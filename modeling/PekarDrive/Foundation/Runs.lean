import Mathlib.Data.List.Basic

/-!
# Runs of a partial step function

A system is given by a function from a state and an event to the next state, if the event can
happen. A run keeps the states in which steps were taken beside their events, so that conditions
on the steps of a run and properties of the states it visits can be compared.

## Main definitions

* `StepRuns.Run`: the runs of a step function.
* `StepRuns.visited`: the states of a run.
* `StepRuns.results`: the results of a sequence of operations that always go through.

## Main results

* `StepRuns.Run.forall_visited_iff`: a property that each step keeps exactly under a condition
  holds in every visited state exactly when every step meets the condition.
* `StepRuns.Run.forall_visited`: an invariant of the steps that stay within a bound.
* `StepRuns.Run.forall_visited_of_forall_trace`: an invariant of the steps that meet a condition.
* `StepRuns.Run.forall_trace_iff`: two properties of steps that agree under an invariant.
* `StepRuns.results_refine`: operations that refine others in one step do so in every sequence.
-/

namespace StepRuns

variable {σ ε : Type}

/-- A run: the start, the states in which steps were taken with their events, and the end. -/
inductive Run (step : σ → ε → Option σ) : σ → List (σ × ε) → σ → Prop
  | done (s : σ) : Run step s [] s
  | step {s s' s'' : σ} {e : ε} {trace : List (σ × ε)} (hs : step s e = some s')
      (hr : Run step s' trace s'') : Run step s ((s, e) :: trace) s''

/-- The states of a run that ends in `s`. -/
def visited (trace : List (σ × ε)) (s : σ) : List σ := trace.map Prod.fst ++ [s]

variable {step : σ → ε → Option σ} {s s' : σ} {trace : List (σ × ε)}

theorem Run.mem_visited (hr : Run step s trace s') : s ∈ visited trace s' := by
  cases hr with
  | done => exact List.mem_singleton_self s
  | step hs hr => exact List.mem_cons_self

theorem mem_visited_last (trace : List (σ × ε)) (s : σ) : s ∈ visited trace s :=
  List.mem_append_right _ (List.mem_singleton_self s)

theorem forall_visited_cons {P : σ → Prop} {e : ε} :
    (∀ x ∈ visited ((s, e) :: trace) s', P x) ↔ P s ∧ ∀ x ∈ visited trace s', P x :=
  List.forall_mem_cons

/-- **Invariants.** What each step into a state within the bound `H` keeps holds in every state of
a run that stays within the bound. -/
theorem Run.forall_visited {I H : σ → Prop}
    (hI : ∀ s e s', I s → H s' → step s e = some s' → I s') (hr : Run step s trace s') (h0 : I s)
    (hH : ∀ x ∈ visited trace s', H x) : ∀ x ∈ visited trace s', I x := by
  induction hr with
  | done s => exact fun x hx => List.mem_singleton.mp hx ▸ h0
  | @step s s₁ s₂ e trace hs hr ih =>
    rw [forall_visited_cons] at hH ⊢
    exact ⟨h0, ih (hI _ _ _ h0 (hH.2 _ hr.mem_visited) hs) hH.2⟩

/-- What each step that meets a condition keeps holds in every state of a run whose steps all meet
it. -/
theorem Run.forall_visited_of_forall_trace {I : σ → Prop} {ok : σ → ε → Prop}
    (hI : ∀ s e s', I s → ok s e → step s e = some s' → I s') (hr : Run step s trace s')
    (h0 : I s) (hok : ∀ x ∈ trace, ok x.1 x.2) : ∀ x ∈ visited trace s', I x := by
  induction hr with
  | done s => exact fun x hx => List.mem_singleton.mp hx ▸ h0
  | @step s s₁ s₂ e trace hs hr ih =>
    rw [List.forall_mem_cons] at hok
    rw [forall_visited_cons]
    exact ⟨h0, ih (hI s e s₁ h0 hok.1 hs) hok.2⟩

/-- Two properties of steps that agree wherever the invariant `I` holds, and keep it, hold of all
steps of the same runs. -/
theorem Run.forall_trace_iff {I : σ → Prop} {A B : σ → ε → Prop}
    (hI : ∀ s e s', I s → A s e → step s e = some s' → I s')
    (hAB : ∀ s e s', I s → step s e = some s' → (A s e ↔ B s e)) (hr : Run step s trace s')
    (h0 : I s) : (∀ x ∈ trace, A x.1 x.2) ↔ ∀ x ∈ trace, B x.1 x.2 := by
  induction hr with
  | done s => simp
  | @step s s₁ s₂ e trace hs hr ih =>
    rw [List.forall_mem_cons, List.forall_mem_cons, hAB s e s₁ h0 hs]
    refine and_congr_right fun hB => ih (hI s e s₁ h0 ?_ hs)
    exact (hAB s e s₁ h0 hs).2 hB

/-- **Exactly guarded properties.** When a step from a state with the property leads to one with
the property if and only if the step meets a condition, the property holds in every visited state
if and only if every step of the run meets the condition. -/
theorem Run.forall_visited_iff {I P : σ → Prop} {ok : σ → ε → Prop}
    (hI : ∀ s e s', I s → step s e = some s' → I s')
    (hP : ∀ s e s', I s → P s → step s e = some s' → (P s' ↔ ok s e))
    (hr : Run step s trace s') (h0 : I s) (hP0 : P s) :
    (∀ x ∈ visited trace s', P x) ↔ ∀ x ∈ trace, ok x.1 x.2 := by
  induction hr with
  | done s => exact ⟨fun _ x hx => absurd hx List.not_mem_nil,
      fun _ x hx => List.mem_singleton.mp hx ▸ hP0⟩
  | @step s s₁ s₂ e trace hs hr ih =>
    have hstep := hP _ _ _ h0 hP0 hs
    rw [forall_visited_cons, List.forall_mem_cons]
    constructor
    · rintro ⟨-, hrest⟩
      have hP₁ := hrest _ hr.mem_visited
      exact ⟨hstep.1 hP₁, (ih (hI _ _ _ h0 hs) hP₁).1 hrest⟩
    · rintro ⟨hok, hrest⟩
      exact ⟨hP0, (ih (hI _ _ _ h0 hs) (hstep.2 hok)).2 hrest⟩

/-! ### Operations with results -/

section Results

variable {τ ρ : Type}

/-- The results of a sequence of operations, and the state after it. -/
def results (op : ε → σ → ρ × σ) : List ε → σ → List ρ × σ
  | [], s => ([], s)
  | e :: es, s =>
    let (r, s') := op e s
    let (rs, s'') := results op es s'
    (r :: rs, s'')

/-- **Refinement.** Operations that give equal results in related states, and lead to related
states, do so in every sequence. -/
theorem results_refine {op : ε → σ → ρ × σ} {op' : ε → τ → ρ × τ} {R : σ → τ → Prop}
    {ok : ε → Prop} (hR : ∀ e s t, ok e → R s t →
      (op e s).1 = (op' e t).1 ∧ R (op e s).2 (op' e t).2)
    {es : List ε} (hok : ∀ e ∈ es, ok e) {s : σ} {t : τ} (h : R s t) :
    (results op es s).1 = (results op' es t).1 ∧ R (results op es s).2 (results op' es t).2 := by
  induction es generalizing s t with
  | nil => exact ⟨rfl, h⟩
  | cons e es ih =>
    obtain ⟨hresult, hstate⟩ := hR e s t (hok e List.mem_cons_self) h
    obtain ⟨hresults, hend⟩ := ih (fun x hx => hok x (List.mem_cons_of_mem e hx)) hstate
    refine ⟨?_, hend⟩
    change (op e s).1 :: _ = (op' e t).1 :: _
    rw [hresult, hresults]

end Results

end StepRuns
