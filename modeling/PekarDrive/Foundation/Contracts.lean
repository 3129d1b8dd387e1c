import Mathlib.Data.List.Induction

/-!
# Contracts

Operations with results may go through or not. A contract says from which states on an operation
must go through, which results it may have, and what it does; it leaves open which of the results it
has. Operations that keep to a contract in one step do so in every sequence.

A peer answers questions one after the other and has a state of its own. Seen by the one who asks,
it is a function of the questions so far.

## Main definitions

* `StepRuns.runAll`: operations one after the other.
* `StepRuns.Contract`, with `Admits` and `Allows` for sequences.
* `StepRuns.Peer`, with `after` and `env`.

## Main results

* `StepRuns.Contract.exists_runAll`: the rule for sequences.
* `StepRuns.Contract.Allows.exists_getElem?`: the results of a sequence, one by one.
-/

namespace StepRuns

variable {σ τ ε δ ρ : Type}

/-! ### Sequences of operations -/

/-- The results of operations one after the other, and the state after them, if all go through. -/
def runAll (op : ε → σ → Option (ρ × σ)) : List ε → σ → Option (List ρ × σ)
  | [], s => some ([], s)
  | e :: es, s =>
    match op e s with
    | none => none
    | some (r, s') => (runAll op es s').map fun x => (r :: x.1, x.2)

/-- What is asked of operations. -/
structure Contract (τ ε ρ : Type) where
  /-- The operation must go through. -/
  Pre : τ → ε → Prop
  /-- The results that it may have. -/
  Post : τ → ε → ρ → Prop
  /-- What it does. -/
  after : τ → ε → τ

namespace Contract

variable (C : Contract τ ε ρ)

/-- Every operation of a sequence must go through. -/
def Admits : τ → List ε → Prop
  | _, [] => True
  | t, e :: es => C.Pre t e ∧ Admits (C.after t e) es

instance decidableAdmits [∀ t e, Decidable (C.Pre t e)] :
    (t : τ) → (es : List ε) → Decidable (C.Admits t es)
  | _, [] => .isTrue trivial
  | t, e :: es =>
    haveI := decidableAdmits (C.after t e) es
    inferInstanceAs (Decidable (C.Pre t e ∧ C.Admits (C.after t e) es))

/-- The results that a sequence may have. -/
def Allows : τ → List ε → List ρ → Prop
  | _, [], [] => True
  | t, e :: es, r :: rs => C.Post t e r ∧ Allows (C.after t e) es rs
  | _, _, _ => False

/-- The state after a sequence. -/
def afterAll (t : τ) (es : List ε) : τ := es.foldl C.after t

/-- The result of an operation of a sequence. -/
theorem Allows.exists_getElem? {t : τ} {es : List ε} {rs : List ρ} (h : C.Allows t es rs) {i : ℕ}
    {e : ε} (hi : es[i]? = some e) :
    ∃ r, rs[i]? = some r ∧ C.Post (C.afterAll t (es.take i)) e r := by
  induction es generalizing t rs i with
  | nil => exact absurd hi (by simp)
  | cons e' es ih =>
    cases rs with
    | nil => exact h.elim
    | cons r rs =>
      cases i with
      | zero =>
        obtain rfl := Option.some.inj hi
        exact ⟨r, rfl, h.1⟩
      | succ i => exact ih h.2 hi

/-- **Keeping to a contract.** When each operation goes through as the contract of its name asks,
with a result that it allows, and leads to related states, every sequence does. -/
theorem exists_runAll {op : δ → σ → Option (ρ × σ)} {name : δ → ε} (R : σ → τ → Prop)
    (ok : δ → Prop) (hop : ∀ e s t, ok e → R s t → C.Pre t (name e) →
      ∃ r s', op e s = some (r, s') ∧ C.Post t (name e) r ∧ R s' (C.after t (name e)))
    {es : List δ} (hok : ∀ e ∈ es, ok e) {s : σ} {t : τ} (h : R s t)
    (hadmits : C.Admits t (es.map name)) :
    ∃ rs s', runAll op es s = some (rs, s') ∧ C.Allows t (es.map name) rs ∧
      R s' (C.afterAll t (es.map name)) := by
  induction es generalizing s t with
  | nil => exact ⟨[], s, rfl, trivial, h⟩
  | cons e es ih =>
    obtain ⟨hpre, hrest⟩ := hadmits
    obtain ⟨r, s₁, hr, hpost, h₁⟩ := hop e s t (hok e List.mem_cons_self) h hpre
    obtain ⟨rs, s', hrs, hallows, h'⟩ :=
      ih (fun x hx => hok x (List.mem_cons_of_mem e hx)) h₁ hrest
    refine ⟨r :: rs, s', ?_, ⟨hpost, hallows⟩, h'⟩
    simp only [runAll, hr, hrs, Option.map_some]

end Contract

/-! ### Peers -/

/-- A peer: its answer to a question, by the number of the question, and its state afterwards. -/
def Peer (ε ρ σ : Type) := ℕ → ε → σ → ρ × σ

namespace Peer

variable (peer : Peer ε ρ σ) (s : σ)

/-- The state after some questions. -/
def after (h : List ε) : σ := h.zipIdx.foldl (fun s q => (peer q.2 q.1 s).2) s

/-- The answers, as a function of the questions so far. -/
def env (h : List ε) (q : ε) : ρ := (peer h.length q (peer.after s h)).1

@[simp] theorem after_concat (h : List ε) (q : ε) :
    peer.after s (h ++ [q]) = (peer h.length q (peer.after s h)).2 := by
  simp [after, List.zipIdx_append]

/-- Questions that leave the state. -/
theorem after_of_forall {h : List ε} (hh : ∀ n, ∀ q ∈ h, (peer n q s).2 = s) :
    peer.after s h = s := by
  induction h using List.reverseRecOn with
  | nil => rfl
  | append_singleton h q ih =>
    rw [after_concat, ih fun n x hx => hh n x (List.mem_append_left _ hx)]
    exact hh _ q (List.mem_append_right _ (List.mem_singleton_self q))

end Peer

end StepRuns
