import PekarDrive.Foundation.Threads

/-!
# Programs that stop outside their memory

What a call does, and what a program does with the answer, may lead it out of its memory. Where
this happens is left to a relation between states, calls and answers: a confined program stops at
the first answer that is not allowed. Its runs are those runs of the program that meet allowed
answers only, and where a program stops by itself at certain answers, it may get these in place of
the others.

## Main definitions

* `LockedThreads.Prog.require`: goes on under a condition only.
* `LockedThreads.Prog.confined`, `LockedThreads.Prog.Keeps`: allowed answers.
* `LockedThreads.replaced`, `LockedThreads.Prog.HaltsOn`: answers in place of others.

## Main results

* `LockedThreads.Prog.eval_confined_eq_some_iff`: the runs of a confined program.
* `LockedThreads.Prog.keeps_bind`: sequences.
* `LockedThreads.Prog.eval_confined_of_haltsOn`: a program that stops by itself.
-/

namespace LockedThreads

variable {Q R σ α β : Type}

/-- The answers of an environment, with others in place of those that are not allowed. -/
def replaced (ok : Q → R → Prop) [DecidableRel ok] (other : Q → R) (env : List Q → Q → R)
    (h : List Q) (q : Q) : R :=
  if ok q (env h q) then env h q else other q

namespace Prog

/-! ### Conditions -/

/-- Goes on if the condition holds, and stops otherwise. -/
def require (c : Prop) [Decidable c] : Prog Q R σ Unit := if c then ret () else fault

section Require

variable {c : Prop} [Decidable c] (f : Unit → Prog Q R σ β)

theorem require_bind_of_pos (hc : c) : (require c >>= f) = f () := by rw [require, if_pos hc]; rfl

theorem require_bind_of_neg (hc : ¬ c) : (require c >>= f) = fault := by
  rw [require, if_neg hc]
  rfl

/-- Under a condition, a program returns if the condition holds and it returns. -/
theorem eval_require_bind_eq_some_iff {env : List Q → Q → R} {h io : List Q} {s : σ} {x : β × σ} :
    (require c >>= f).eval env h s = (io, some x) ↔ c ∧ (f ()).eval env h s = (io, some x) := by
  by_cases hc : c
  · rw [require_bind_of_pos f hc, and_iff_right hc]
  · refine iff_of_false (fun heq => ?_) fun hboth => hc hboth.1
    rw [require_bind_of_neg f hc] at heq
    exact absurd (congrArg Prod.snd heq) (by simp)

end Require

/-! ### Allowed answers -/

section Confined

variable (ok : σ → Q → R → Prop)

/-- The program, stopped by the first answer that is not allowed in the state of the call. -/
def confined [∀ s, DecidableRel (ok s)] : Prog Q R σ α → Prog Q R σ α
  | ret a => ret a
  | fault => fault
  | get k => get fun s => (k s).confined
  | set s k => set s k.confined
  | lock k => lock k.confined
  | unlock k => unlock k.confined
  | call q k => get fun s => call q fun r => if ok s q r then (k r).confined else fault

/-- In the run of the program from the calls `h` and the state `s`, every answer is allowed. -/
def Keeps (env : List Q → Q → R) : Prog Q R σ α → List Q → σ → Prop
  | ret _, _, _ => True
  | fault, _, _ => True
  | get k, h, s => (k s).Keeps env h s
  | set s k, h, _ => k.Keeps env h s
  | lock k, h, s => k.Keeps env h s
  | unlock k, h, s => k.Keeps env h s
  | call q k, h, s => ok s q (env h q) ∧ (k (env h q)).Keeps env (h ++ [q]) s

variable {ok} {env : List Q → Q → R} {h : List Q} {s : σ} {p : Prog Q R σ α}
  {f : α → Prog Q R σ β}

/-- A sequence keeps to allowed answers when its parts do. -/
theorem keeps_bind : (p >>= f).Keeps ok env h s ↔ p.Keeps ok env h s ∧
    ∀ h' a s', p.eval env h s = (h', some (a, s')) → (f a).Keeps ok env h' s' := by
  induction p generalizing h s with
  | ret a =>
    refine ⟨fun hf => ⟨trivial, fun h' a' s' heq => ?_⟩, fun hf => hf.2 h a s rfl⟩
    obtain ⟨rfl, hsome⟩ := Prod.mk.inj heq
    obtain ⟨rfl, rfl⟩ := Prod.mk.inj (Option.some.inj hsome)
    exact hf
  | fault =>
    refine iff_of_true trivial ⟨trivial, fun h' a s' heq => ?_⟩
    exact absurd (congrArg Prod.snd heq) (by simp)
  | get k ih => exact ih s
  | set s' k ih => exact ih
  | lock k ih => exact ih
  | unlock k ih => exact ih
  | call q k ih => exact (and_congr_right fun _ => ih (env h q)).trans and_assoc.symm

/-- A sequence whose first part returns. -/
theorem keeps_bind_of_eq {h' : List Q} {a : α} {s' : σ}
    (heval : p.eval env h s = (h', some (a, s'))) :
    (p >>= f).Keeps ok env h s ↔ p.Keeps ok env h s ∧ (f a).Keeps ok env h' s' := by
  rw [keeps_bind, heval]
  refine and_congr_right fun _ => ⟨fun hf => hf h' a s' rfl, fun hf h'' a' s'' heq => ?_⟩
  obtain ⟨rfl, hsome⟩ := Prod.mk.inj heq
  obtain ⟨rfl, rfl⟩ := Prod.mk.inj (Option.some.inj hsome)
  exact hf

/-- A program all of whose calls have allowed answers only. -/
theorem keeps_of_within {W : Prop} {P : Q → Prop} (hp : p.Within W P)
    (hP : ∀ q, P q → ∀ s r, ok s q r) : p.Keeps ok env h s := by
  induction p generalizing h s with
  | ret a => trivial
  | fault => trivial
  | get k ih => exact ih s (hp s)
  | set s' k ih => exact ih hp.2
  | lock k ih => exact ih hp
  | unlock k ih => exact ih hp
  | call q k ih => exact ⟨hP q hp.1 _ _, ih _ (hp.2 _)⟩

/-- A program all of whose calls in a run get allowed answers. -/
theorem keeps_of_forall_eval (hp : ∀ h' q rest, (p.eval env h s).1 = h' ++ q :: rest →
    h.length ≤ h'.length → ∀ s, ok s q (env h' q)) : p.Keeps ok env h s := by
  induction p generalizing h s with
  | ret a => trivial
  | fault => trivial
  | get k ih => exact ih s hp
  | set s' k ih => exact ih hp
  | lock k ih => exact ih hp
  | unlock k ih => exact ih hp
  | call q k ih =>
    obtain ⟨rest, hrest⟩ := prefix_eval env (h ++ [q]) s (k (env h q))
    refine ⟨hp h q rest ?_ (Nat.le_refl _) s,
      ih _ fun h' q' rest' heq hlen => hp h' q' rest' heq ?_⟩
    · rw [eval_call, ← hrest, List.append_assoc, List.singleton_append]
    · rw [List.length_append] at hlen
      omega

/-! ### Runs of confined programs -/

variable [∀ s, DecidableRel (ok s)]

theorem eval_confined_of_keeps (hp : p.Keeps ok env h s) :
    (p.confined ok).eval env h s = p.eval env h s := by
  induction p generalizing h s with
  | ret a => rfl
  | fault => rfl
  | get k ih => exact ih s hp
  | set s' k ih => exact ih hp
  | lock k ih => exact ih hp
  | unlock k ih => exact ih hp
  | call q k ih =>
    rw [confined, eval_get, eval_call, if_pos hp.1]
    exact ih _ hp.2

theorem eval_confined_of_not_keeps (hp : ¬ p.Keeps ok env h s) :
    ((p.confined ok).eval env h s).2 = none := by
  induction p generalizing h s with
  | ret a => exact absurd trivial hp
  | fault => rfl
  | get k ih => exact ih s hp
  | set s' k ih => exact ih hp
  | lock k ih => exact ih hp
  | unlock k ih => exact ih hp
  | call q k ih =>
    rw [confined, eval_get, eval_call]
    by_cases hr : ok s q (env h q)
    · rw [if_pos hr]
      exact ih _ fun hk => hp ⟨hr, hk⟩
    · rw [if_neg hr]
      rfl

/-- **The runs of a confined program.** It returns where the program returns and has met allowed
answers only. -/
theorem eval_confined_eq_some_iff {io : List Q} {x : α × σ} :
    (p.confined ok).eval env h s = (io, some x) ↔
      p.Keeps ok env h s ∧ p.eval env h s = (io, some x) := by
  by_cases hp : p.Keeps ok env h s
  · rw [eval_confined_of_keeps hp, and_iff_right hp]
  · refine iff_of_false (fun heq => ?_) fun hkeeps => hp hkeeps.1
    have hnone := eval_confined_of_not_keeps hp
    rw [heq] at hnone
    exact absurd hnone (by simp)

/-- A confined program makes no other calls. -/
theorem fst_eval_confined_isPrefix :
    ((p.confined ok).eval env h s).1 <+: (p.eval env h s).1 := by
  induction p generalizing h s with
  | ret a => exact List.prefix_rfl
  | fault => exact List.prefix_rfl
  | get k ih => exact ih s
  | set s' k ih => exact ih
  | lock k ih => exact ih
  | unlock k ih => exact ih
  | call q k ih =>
    rw [confined, eval_get, eval_call, eval_call]
    by_cases hr : ok s q (env h q)
    · rw [if_pos hr]
      exact ih _
    · rw [if_neg hr]
      exact prefix_eval env (h ++ [q]) s (k (env h q))

/-- It makes the first call. -/
theorem exists_fst_eval_confined {q : Q} {rest : List Q}
    (hp : (p.eval env h s).1 = h ++ q :: rest) :
    ∃ rest', ((p.confined ok).eval env h s).1 = h ++ q :: rest' := by
  induction p generalizing s with
  | ret a => exact absurd (List.self_eq_append_right.mp hp) (by simp)
  | fault => exact absurd (List.self_eq_append_right.mp hp) (by simp)
  | get k ih => exact ih s hp
  | set s' k ih => exact ih hp
  | lock k ih => exact ih hp
  | unlock k ih => exact ih hp
  | call q' k ih =>
    obtain ⟨rest₁, hrest₁⟩ := prefix_eval env (h ++ [q']) s (k (env h q'))
    rw [eval_call, ← hrest₁, List.append_assoc] at hp
    obtain ⟨rfl, -⟩ := List.cons.inj (List.append_cancel_left hp)
    obtain ⟨rest₂, hrest₂⟩ := prefix_eval env (h ++ [q']) s
      (if ok s q' (env h q') then (k (env h q')).confined ok else fault)
    refine ⟨rest₂, ?_⟩
    rw [confined, eval_get, eval_call, ← hrest₂, List.append_assoc, List.singleton_append]

/-! ### Answers in place of others -/

section Replaced

variable {ok : Q → R → Prop} {other : Q → R}

/-- At the answer `other q`, the program stops by itself, unless all answers to `q` are allowed. -/
def HaltsOn (ok : Q → R → Prop) (other : Q → R) : Prog Q R σ α → Prop
  | ret _ => True
  | fault => True
  | get k => ∀ s, (k s).HaltsOn ok other
  | set _ k => k.HaltsOn ok other
  | lock k => k.HaltsOn ok other
  | unlock k => k.HaltsOn ok other
  | call q k => ((∀ r, ok q r) ∨ k (other q) = fault) ∧ ∀ r, (k r).HaltsOn ok other

theorem HaltsOn.bind (hp : p.HaltsOn ok other) (hf : ∀ a, (f a).HaltsOn ok other) :
    (p >>= f).HaltsOn ok other := by
  induction p with
  | ret a => exact hf a
  | fault => trivial
  | get k ih => exact fun s => ih s (hp s)
  | set s k ih => exact ih hp
  | lock k ih => exact ih hp
  | unlock k ih => exact ih hp
  | call q k ih =>
    refine ⟨hp.1.imp id fun hfault => ?_, fun r => ih r (hp.2 r)⟩
    change k (other q) >>= f = fault
    rw [hfault]
    rfl

/-- A program all of whose calls have allowed answers only. -/
theorem haltsOn_of_within {W : Prop} {P : Q → Prop} (hp : p.Within W P)
    (hP : ∀ q, P q → ∀ r, ok q r) : p.HaltsOn ok other := by
  induction p with
  | ret a => trivial
  | fault => trivial
  | get k ih => exact fun s => ih s (hp s)
  | set s k ih => exact ih hp.2
  | lock k ih => exact ih hp
  | unlock k ih => exact ih hp
  | call q k ih => exact ⟨.inl (hP q hp.1), fun r => ih r (hp.2 r)⟩

/-- **A program that stops by itself.** A confined program runs as the program does when it gets the
answers at which it stops in place of those that are not allowed. -/
theorem eval_confined_of_haltsOn [DecidableRel ok] (hp : p.HaltsOn ok other)
    (env : List Q → Q → R) (h : List Q) (s : σ) :
    (p.confined fun _ => ok).eval env h s = p.eval (replaced ok other env) h s := by
  induction p generalizing h s with
  | ret a => rfl
  | fault => rfl
  | get k ih => exact ih s (hp s) h s
  | set s' k ih => exact ih hp h s'
  | lock k ih => exact ih hp h s
  | unlock k ih => exact ih hp h s
  | call q k ih =>
    rw [confined, eval_get, eval_call, eval_call, replaced]
    by_cases hr : ok q (env h q)
    · rw [if_pos hr, if_pos hr]
      exact ih _ (hp.2 _) _ s
    · rw [if_neg hr, if_neg hr, hp.1.resolve_left fun hall => hr (hall _)]
      rfl

end Replaced

end Confined

end Prog

end LockedThreads
