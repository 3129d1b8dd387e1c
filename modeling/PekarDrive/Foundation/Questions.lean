import PekarDrive.Foundation.Threads

/-!
# Calls that go by the shared state

What a program may call often depends on what it has read: a value found in the shared state. As
long as all shared states that a program can read satisfy `I`, its calls satisfy `P`
(`LockedThreads.Prog.Asks`). The states that the programs of a run read are states that the run has
visited, so it is enough that these satisfy `I`, whoever has written them.

## Main definitions

* `LockedThreads.Prog.Asks`.

## Main results

* `LockedThreads.Run.forall_call`: the calls of a run.
-/

namespace LockedThreads

namespace Prog

variable {Q R σ α β : Type}

/-- Reading only shared states that satisfy `I`, the program makes only calls that satisfy `P`, and
returns a value allowed by `post`. -/
def Asks (I : σ → Prop) (P : Q → Prop) (post : α → Prop) : Prog Q R σ α → Prop
  | ret a => post a
  | fault => True
  | get k => ∀ s, I s → (k s).Asks I P post
  | set _ k => k.Asks I P post
  | lock k => k.Asks I P post
  | unlock k => k.Asks I P post
  | call q k => P q ∧ ∀ r, (k r).Asks I P post

theorem Asks.bind {I : σ → Prop} {P : Q → Prop} {post : α → Prop} {post' : β → Prop}
    {p : Prog Q R σ α} {f : α → Prog Q R σ β} (hp : p.Asks I P post)
    (hf : ∀ a, post a → (f a).Asks I P post') : (p >>= f).Asks I P post' := by
  induction p with
  | ret a => exact hf a hp
  | fault => trivial
  | get k ih => exact fun s hs => ih s (hp s hs)
  | set s k ih => exact ih hp
  | lock k ih => exact ih hp
  | unlock k ih => exact ih hp
  | call q k ih => exact ⟨hp.1, fun r => ih r (hp.2 r)⟩

end Prog

variable {τ Q R σ : Type} [DecidableEq τ] {entry : τ → Prog Q R σ Unit → Prop}
  {I : σ → Prop} {P : Q → Prop} {c₀ c c' : Config τ Q R σ} {e io : List (Q × R)}
  {visited : List (Config τ Q R σ)}

/-- A step from a state that satisfies `I`. -/
theorem Step.asks (hentry : ∀ t p, entry t p → p.Asks I P fun _ => True) (hI : I c.shared)
    (hc : ∀ t, (c.prog t).Asks I P fun _ => True) (hs : Step entry c e c') :
    (∀ t, (c'.prog t).Asks I P fun _ => True) ∧ ∀ x ∈ e, P x.1 := by
  have hresume : ∀ {t p}, p.Asks I P (fun _ => True) →
      ∀ u, ((c.resume t p).prog u).Asks I P fun _ => True := by
    intro t p hp u
    by_cases hu : u = t
    · subst hu
      rw [Config.prog_resume_self]
      exact hp
    · rw [c.prog_resume_of_ne p hu]
      exact hc u
  cases hs with
  | @start t p _ he => exact ⟨hresume (hentry t p he), by simp⟩
  | @get t k hp =>
    have ht := hc t
    rw [hp] at ht
    exact ⟨hresume (ht c.shared hI), by simp⟩
  | @set t s k hp =>
    have ht := hc t
    rw [hp] at ht
    exact ⟨hresume (p := k) ht, by simp⟩
  | @lock t k hp _ =>
    have ht := hc t
    rw [hp] at ht
    exact ⟨hresume (p := k) ht, by simp⟩
  | @unlock t k hp =>
    have ht := hc t
    rw [hp] at ht
    exact ⟨hresume (p := k) ht, by simp⟩
  | @call t q k r hp =>
    have ht := hc t
    rw [hp] at ht
    exact ⟨hresume (ht.2 r), fun x hx => List.mem_singleton.mp hx ▸ ht.1⟩

theorem Run.start_mem_visited (hr : Run entry c₀ io visited c) : c₀ ∈ visited := by
  induction hr with
  | start => exact List.mem_singleton_self _
  | step _ _ ih => exact List.mem_append_left _ ih

/-- **Calls.** If every state that a run visits satisfies `I`, every call of the run satisfies
`P`. -/
theorem Run.forall_call (hentry : ∀ t p, entry t p → p.Asks I P fun _ => True)
    (h₀ : ∀ t, (c₀.prog t).Asks I P fun _ => True) (hr : Run entry c₀ io visited c)
    (hI : ∀ v ∈ visited, I v.shared) : ∀ x ∈ io, P x.1 := by
  have hall : I c.shared ∧ (∀ t, (c.prog t).Asks I P fun _ => True) ∧ ∀ x ∈ io, P x.1 := by
    induction hr with
    | start => exact ⟨hI _ (List.mem_singleton_self _), h₀, by simp⟩
    | step hr hs ih =>
      obtain ⟨hc, hprogs, hio⟩ := ih fun v hv => hI v (List.mem_append_left _ hv)
      obtain ⟨hprogs', he⟩ := hs.asks hentry hc hprogs
      refine ⟨hI _ (List.mem_append_right _ (List.mem_singleton_self _)), hprogs', fun x hx => ?_⟩
      exact (List.mem_append.mp hx).elim (hio x) (he x)
  exact hall.2.2

end LockedThreads
