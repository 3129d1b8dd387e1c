import PekarDrive.Foundation.Threads

/-!
# Guarded programs run one critical section after the other

A program is *guarded* (`LockedThreads.Prog.Guarded`) when it reads and writes the shared state only
while its thread holds the mutex. For threads with guarded programs the interleaving of their steps
does not show: to every run belongs a run in which each critical section is one step
(`LockedThreads.Serial`), with the same programs left in the end, the same shared state, and the
same answered calls of each thread, in the same order.

A thread that requests the mutex that it holds takes no further step, so nothing is asked of the
program behind such a request.

## Main definitions

* `LockedThreads.Prog.Guarded`, `LockedThreads.Config.Guarded`.
* `LockedThreads.Prog.LockFree`: programs that leave the mutex alone.
* `LockedThreads.Inside`: how far a critical section has been executed.
* `LockedThreads.SerialStep`, `LockedThreads.Serial`: critical sections as single steps.
* `LockedThreads.callsBy`: the answered calls of one thread.

## Main results

* `LockedThreads.Run.exists_serial`.
* `LockedThreads.Inside.eval_eq`: a critical section in the run of a program alone.
* `LockedThreads.Inside.of_bind`: a program without locks inside a critical section.
-/

namespace LockedThreads

/-! ### Guarded programs -/

namespace Prog

variable {Q R σ α β : Type}

/-- From a point where its thread holds the mutex or not (`held`), the program touches the shared
state only while it is held, gives back only what it holds, makes calls that satisfy `P`, and
returns in a situation allowed by `post`. -/
def Guarded (P : Q → Prop) (post : Bool → α → Prop) : Prog Q R σ α → Bool → Prop
  | ret a, held => post held a
  | fault, _ => True
  | get k, held => held = true ∧ ∀ s, (k s).Guarded P post held
  | set _ k, held => held = true ∧ k.Guarded P post held
  | lock k, held => held = false → k.Guarded P post true
  | unlock k, held => held = true ∧ k.Guarded P post false
  | call q k, held => P q ∧ ∀ r, (k r).Guarded P post held

theorem Guarded.bind {P : Q → Prop} {post : Bool → α → Prop} {post' : Bool → β → Prop}
    {p : Prog Q R σ α} {f : α → Prog Q R σ β} {held : Bool} (hp : p.Guarded P post held)
    (hf : ∀ held' a, post held' a → (f a).Guarded P post' held') :
    (p >>= f).Guarded P post' held := by
  induction p generalizing held with
  | ret a => exact hf held a hp
  | fault => trivial
  | get k ih => exact ⟨hp.1, fun s => ih s (hp.2 s)⟩
  | set s k ih => exact ⟨hp.1, ih hp.2⟩
  | lock k ih => exact fun hheld => ih (hp hheld)
  | unlock k ih => exact ⟨hp.1, ih hp.2⟩
  | call q k ih => exact ⟨hp.1, fun r => ih r (hp.2 r)⟩

/-- A program that always holds the mutex in the end, or never, and what follows it. -/
theorem Guarded.seq {P : Q → Prop} {post : Bool → β → Prop} {p : Prog Q R σ α}
    {f : α → Prog Q R σ β} {held held' : Bool} (hp : p.Guarded P (fun b _ => b = held') held)
    (hf : ∀ a, (f a).Guarded P post held') : (p >>= f).Guarded P post held := by
  refine hp.bind fun b a hb => ?_
  rw [hb]
  exact hf a

/-- A guarded program of the thread `t`: it makes calls of its own, and ends without the mutex. -/
abbrev GuardedFor {τ : Type} (tag : Q → τ) (t : τ) (p : Prog Q R σ Unit) (held : Bool) : Prop :=
  p.Guarded (fun q => tag q = t) (fun held _ => held = false) held

/-- The program neither takes nor gives back the mutex. -/
def LockFree : Prog Q R σ α → Prop
  | ret _ => True
  | fault => True
  | get k => ∀ s, (k s).LockFree
  | set _ k => k.LockFree
  | lock _ => False
  | unlock _ => False
  | call _ k => ∀ r, (k r).LockFree

theorem LockFree.bind {p : Prog Q R σ α} {f : α → Prog Q R σ β} (hp : p.LockFree)
    (hf : ∀ a, (f a).LockFree) : (p >>= f).LockFree := by
  induction p with
  | ret a => exact hf a
  | fault => trivial
  | get k ih => exact fun s => ih s (hp s)
  | set s k ih => exact ih hp
  | lock k ih => exact hp.elim
  | unlock k ih => exact hp.elim
  | call q k ih => exact fun r => ih r (hp r)

end Prog

variable {τ Q R σ : Type}

/-! ### Critical sections -/

/-- A critical section that begins with `k` in the state `s` has been executed as far as the
program `p` in the state `s'`, with the given answered calls. -/
inductive Inside (k : Prog Q R σ Unit) (s : σ) : List (Q × R) → Prog Q R σ Unit → σ → Prop
  | enter : Inside k s [] k s
  | get {io : List (Q × R)} {f : σ → Prog Q R σ Unit} {s' : σ} (h : Inside k s io (.get f) s') :
      Inside k s io (f s') s'
  | set {io : List (Q × R)} {p : Prog Q R σ Unit} {s' s'' : σ}
      (h : Inside k s io (.set s'' p) s') : Inside k s io p s''
  | call {io : List (Q × R)} {q : Q} {f : R → Prog Q R σ Unit} {s' : σ} (r : R)
      (h : Inside k s io (.call q f) s') : Inside k s (io ++ [(q, r)]) (f r) s'

/-- In a run of the program alone, what has been executed of a critical section lies behind, when
each call can be answered in one way only. -/
theorem Inside.eval_eq [Subsingleton R] (env : List Q → Q → R) {k p : Prog Q R σ Unit}
    {s s' : σ} {io : List (Q × R)} (hin : Inside k s io p s') (h : List Q) :
    k.eval env h s = p.eval env (h ++ io.map Prod.fst) s' := by
  induction hin with
  | enter => rw [List.map_nil, List.append_nil]
  | get _ ih => exact ih
  | set _ ih => exact ih
  | @call io q f s' r _ ih =>
    rw [ih, Prog.eval_call, Subsingleton.elim (env _ q) r, List.map_append, List.append_assoc]
    rfl

section Head

variable {k k' : Prog Q R σ Unit} {s s' s₁ : σ} {io : List (Q × R)}

/-- What has been executed of a section that begins with a step is nothing, or goes on behind it. -/
theorem Inside.head {first : Prog Q R σ Unit} {p : Prog Q R σ Unit} (hin : Inside first s io p s') :
    (io = [] ∧ p = first ∧ s' = s) ∨ match first with
      | .get f => Inside (f s) s io p s'
      | .set s₁ k => Inside k s₁ io p s'
      | .call q f => ∃ r io', io = (q, r) :: io' ∧ Inside (f r) s io' p s'
      | _ => False := by
  induction hin with
  | enter => exact .inl ⟨rfl, rfl, rfl⟩
  | @get io f s' _ ih =>
    rcases ih with ⟨rfl, rfl, rfl⟩ | ih
    · exact .inr .enter
    · refine .inr ?_
      cases first with
      | get => exact ih.get
      | set => exact ih.get
      | call =>
        obtain ⟨r, io', hio, ih⟩ := ih
        exact ⟨r, io', hio, ih.get⟩
      | _ => exact ih
  | @set io p s' s'' _ ih =>
    rcases ih with ⟨rfl, rfl, rfl⟩ | ih
    · exact .inr .enter
    · refine .inr ?_
      cases first with
      | get => exact ih.set
      | set => exact ih.set
      | call =>
        obtain ⟨r, io', hio, ih⟩ := ih
        exact ⟨r, io', hio, ih.set⟩
      | _ => exact ih
  | @call io q f s' r _ ih =>
    rcases ih with ⟨rfl, rfl, rfl⟩ | ih
    · exact .inr ⟨r, [], rfl, .enter⟩
    · refine .inr ?_
      cases first with
      | get => exact ih.call r
      | set => exact ih.call r
      | call =>
        obtain ⟨r', io', rfl, ih⟩ := ih
        exact ⟨r', io' ++ [(q, r)], rfl, ih.call r⟩
      | _ => exact ih

theorem Inside.of_get {f : σ → Prog Q R σ Unit}
    (h : Inside (.get f) s io (.unlock k') s') : Inside (f s) s io (.unlock k') s' :=
  h.head.resolve_left fun ⟨_, heq, _⟩ => by cases heq

theorem Inside.of_set (h : Inside (.set s₁ k) s io (.unlock k') s') :
    Inside k s₁ io (.unlock k') s' :=
  h.head.resolve_left fun ⟨_, heq, _⟩ => by cases heq

theorem Inside.of_call {q : Q} {f : R → Prog Q R σ Unit}
    (h : Inside (.call q f) s io (.unlock k') s') :
    ∃ r io', io = (q, r) :: io' ∧ Inside (f r) s io' (.unlock k') s' :=
  h.head.resolve_left fun ⟨_, heq, _⟩ => by cases heq

theorem Inside.of_unlock (h : Inside (.unlock k) s io (.unlock k') s') :
    io = [] ∧ k' = k ∧ s' = s := by
  rcases h.head with ⟨hio, hk, hs⟩ | hfalse
  · exact ⟨hio, Prog.unlock.inj hk, hs⟩
  · exact hfalse.elim

theorem Inside.not_fault (h : Inside .fault s io (.unlock k') s') : False := by
  rcases h.head with ⟨_, heq, _⟩ | hfalse
  · cases heq
  · exact hfalse

/-- A section that begins with a program without locks: it is executed to its end, as it is when it
runs alone, when each call can be answered in one way only. -/
theorem Inside.of_bind [Subsingleton R] {α : Type} (env : List Q → Q → R) {p : Prog Q R σ α}
    {f : α → Prog Q R σ Unit} (hp : p.LockFree) (hin : Inside (p >>= f) s io (.unlock k') s')
    (h : List Q) : ∃ a s₁ io₁ io₂, io = io₁ ++ io₂ ∧
      p.eval env h s = (h ++ io₁.map Prod.fst, some (a, s₁)) ∧
      Inside (f a) s₁ io₂ (.unlock k') s' := by
  induction p generalizing s io h with
  | ret a => exact ⟨a, s, [], io, rfl, by simp, hin⟩
  | fault => exact hin.not_fault.elim
  | get k ih => exact ih s (hp s) hin.of_get h
  | set s₁ k ih => exact ih hp hin.of_set h
  | lock k ih => exact hp.elim
  | unlock k ih => exact hp.elim
  | call q k ih =>
    obtain ⟨r, io', rfl, hin'⟩ := hin.of_call
    obtain ⟨a, s₁, io₁, io₂, rfl, heval, hrest⟩ := ih r (hp r) hin' (h ++ [q])
    refine ⟨a, s₁, (q, r) :: io₁, io₂, rfl, ?_, hrest⟩
    rw [Prog.eval_call, Subsingleton.elim (env h q) r, heval, List.append_assoc]
    rfl

end Head

/-- The answered calls of the thread `t`, where `tag` tells to which thread a call belongs. -/
def callsBy [DecidableEq τ] (tag : Q → τ) (io : List (Q × R)) (t : τ) : List (Q × R) :=
  io.filter fun x => decide (tag x.1 = t)

section CallsBy

variable [DecidableEq τ] {tag : Q → τ}

theorem callsBy_append (io io' : List (Q × R)) (t : τ) :
    callsBy tag (io ++ io') t = callsBy tag io t ++ callsBy tag io' t := List.filter_append _ _

theorem callsBy_of_forall {io : List (Q × R)} {t u : τ} (h : ∀ x ∈ io, tag x.1 = t) :
    callsBy tag io u = if u = t then io else [] := by
  by_cases hu : u = t
  · rw [if_pos hu, callsBy, List.filter_eq_self]
    exact fun x hx => decide_eq_true ((h x hx).trans hu.symm)
  · rw [if_neg hu, callsBy, List.filter_eq_nil_iff]
    intro x hx
    simpa using fun heq => hu (heq.symm.trans (h x hx))

/-- A call of another thread may as well come first. -/
theorem callsBy_comm {io io' : List (Q × R)} {t u : τ} (h : ∀ x ∈ io, tag x.1 = t)
    (h' : ∀ x ∈ io', tag x.1 = u) (hne : u ≠ t) (v : τ) :
    callsBy tag (io ++ io') v = callsBy tag (io' ++ io) v := by
  rw [callsBy_append, callsBy_append, callsBy_of_forall h, callsBy_of_forall h']
  by_cases hv : v = t
  · have hvu : v ≠ u := fun heq => hne (heq.symm.trans hv)
    rw [if_neg hvu, List.append_nil, List.nil_append]
  · rw [if_neg hv, List.append_nil, List.nil_append]

end CallsBy

variable [DecidableEq τ]

/-- One step of a thread, a critical section being one step. -/
inductive SerialStep (entry : τ → Prog Q R σ Unit → Prop) :
    Config τ Q R σ → List (Q × R) → Config τ Q R σ → Prop
  | start {c : Config τ Q R σ} {t : τ} {p : Prog Q R σ Unit} (hp : c.prog t = .ret ())
      (he : entry t p) : SerialStep entry c [] (c.resume t p)
  | call {c : Config τ Q R σ} {t : τ} {q : Q} {k : R → Prog Q R σ Unit} (r : R)
      (hp : c.prog t = .call q k) : SerialStep entry c [(q, r)] (c.resume t (k r))
  | critical {c : Config τ Q R σ} {t : τ} {k k' : Prog Q R σ Unit} {io : List (Q × R)} {s : σ}
      (hp : c.prog t = .lock k) (hk : Inside k c.shared io (.unlock k') s) :
      SerialStep entry c io { c.resume t k' with shared := s }

/-- A run in which every critical section is one step: the calls answered and the state reached. -/
inductive Serial (entry : τ → Prog Q R σ Unit → Prop) (c₀ : Config τ Q R σ) :
    List (Q × R) → Config τ Q R σ → Prop
  | start : Serial entry c₀ [] c₀
  | step {io e : List (Q × R)} {c c' : Config τ Q R σ} (hr : Serial entry c₀ io c)
      (hs : SerialStep entry c e c') : Serial entry c₀ (io ++ e) c'

/-! ### Guarded states -/

namespace Config

/-- Every thread has a guarded program left, and makes calls of its own. -/
def Guarded (tag : Q → τ) (c : Config τ Q R σ) : Prop :=
  ∀ t, (c.prog t).GuardedFor tag t (decide (c.holder = some t))

variable {tag : Q → τ} {entry : τ → Prog Q R σ Unit → Prop} {c c' : Config τ Q R σ}

/-- A step in which the thread `t` goes on with `p` keeps the programs guarded. -/
theorem Guarded.of_resume {t : τ} {p : Prog Q R σ Unit} (hc : c.Guarded tag)
    (hprog : ∀ u, u ≠ t → c'.prog u = c.prog u)
    (hhold : ∀ u, u ≠ t → (c'.holder = some u ↔ c.holder = some u)) (ht : c'.prog t = p)
    (hp : p.GuardedFor tag t (decide (c'.holder = some t))) : c'.Guarded tag := by
  intro u
  by_cases hu : u = t
  · subst hu
    rw [ht]
    exact hp
  · rw [hprog u hu, decide_eq_decide.mpr (hhold u hu)]
    exact hc u

end Config

section Steps

variable {tag : Q → τ} {entry : τ → Prog Q R σ Unit → Prop} {c c' : Config τ Q R σ}
  {e : List (Q × R)}

/-- The steps keep the programs guarded. -/
theorem Step.guarded (hentry : ∀ t p, entry t p → p.GuardedFor tag t false)
    (hc : c.Guarded tag) (hs : Step entry c e c') : c'.Guarded tag := by
  cases hs with
  | @start t p hp hen =>
    have ht := hc t
    rw [hp] at ht
    refine hc.of_resume (fun u hu => c.prog_resume_of_ne p hu) (fun _ _ => Iff.rfl)
      (c.prog_resume_self t p) ?_
    change p.Guarded _ _ (decide (c.holder = some t))
    rw [show decide (c.holder = some t) = false from ht]
    exact hentry t p hen
  | @get t k hp =>
    have ht := hc t
    rw [hp] at ht
    exact hc.of_resume (fun u hu => c.prog_resume_of_ne _ hu) (fun _ _ => Iff.rfl)
      (c.prog_resume_self t _) (ht.2 c.shared)
  | @set t s k hp =>
    have ht := hc t
    rw [hp] at ht
    exact hc.of_resume (fun u hu => c.prog_resume_of_ne _ hu) (fun _ _ => Iff.rfl)
      (c.prog_resume_self t _) ht.2
  | @lock t k hp hfree =>
    have ht := hc t
    rw [hp] at ht
    refine hc.of_resume (fun u hu => c.prog_resume_of_ne _ hu) (fun u hu => ?_)
      (c.prog_resume_self t _) ?_
    · simp [hfree, Ne.symm hu]
    · simpa using ht (by simp [hfree])
  | @unlock t k hp =>
    have ht := hc t
    rw [hp] at ht
    have hhold : c.holder = some t := by simpa using ht.1
    refine hc.of_resume (fun u hu => c.prog_resume_of_ne _ hu) (fun u hu => ?_)
      (c.prog_resume_self t _) ?_
    · simp [hhold, Ne.symm hu]
    · simpa using ht.2
  | @call t q k r hp =>
    have ht := hc t
    rw [hp] at ht
    exact hc.of_resume (fun u hu => c.prog_resume_of_ne _ hu) (fun _ _ => Iff.rfl)
      (c.prog_resume_self t _) (ht.2 r)

/-- Every state of a run has guarded programs. -/
theorem Run.guarded {c₀ : Config τ Q R σ} {io : List (Q × R)} {visited : List (Config τ Q R σ)}
    (hentry : ∀ t p, entry t p → p.GuardedFor tag t false)
    (h₀ : c₀.Guarded tag) (hr : Run entry c₀ io visited c) : c.Guarded tag := by
  induction hr with
  | start => exact h₀
  | step _ hs ih => exact hs.guarded hentry ih

/-- A thread that has returned does not hold the mutex. -/
theorem Run.holder_of_returned {c₀ : Config τ Q R σ} {io : List (Q × R)}
    {visited : List (Config τ Q R σ)} (hentry : ∀ t p, entry t p → p.GuardedFor tag t false)
    (h₀ : c₀.Guarded tag) (hr : Run entry c₀ io visited c) (hend : ∀ t, c.prog t = .ret ()) :
    c.holder = none := by
  have hc := hr.guarded hentry h₀
  cases hhold : c.holder with
  | none => rfl
  | some t =>
    have ht := hc t
    rw [hend t, hhold] at ht
    exact absurd ht (by simp [Prog.Guarded])

end Steps

/-! ### Serial runs -/

/-- A state that has been reached by the calls `io` against one that a serial run reaches by the
calls `io'`: both are the same, or some thread is in a critical section that the serial run has not
begun. -/
inductive Ahead (tag : Q → τ) (d : Config τ Q R σ) (io' : List (Q × R)) :
    Config τ Q R σ → List (Q × R) → Prop
  | free {io : List (Q × R)} (hfree : d.holder = none)
      (hio : ∀ t, callsBy tag io' t = callsBy tag io t) : Ahead tag d io' d io
  | entered {c : Config τ Q R σ} {io io₂ : List (Q × R)} {t : τ} {k : Prog Q R σ Unit}
      (hfree : d.holder = none) (hhold : c.holder = some t) (hp : d.prog t = .lock k)
      (hk : Inside k d.shared io₂ (c.prog t) c.shared) (htag : ∀ x ∈ io₂, tag x.1 = t)
      (hprog : ∀ u, u ≠ t → c.prog u = d.prog u)
      (hio : ∀ u, callsBy tag (io' ++ io₂) u = callsBy tag io u) : Ahead tag d io' c io

section Serial

variable {tag : Q → τ} {entry : τ → Prog Q R σ Unit → Prop} {c c' d : Config τ Q R σ}
  {io io' e : List (Q × R)}

theorem callsBy_append_right (h : ∀ t, callsBy tag io' t = callsBy tag io t) (e : List (Q × R))
    (t : τ) : callsBy tag (io' ++ e) t = callsBy tag (io ++ e) t := by
  rw [callsBy_append, callsBy_append, h]

/-- A step from a state in which no thread is in a critical section. -/
theorem Ahead.step_free (hd : d.Guarded tag) (hfree : d.holder = none)
    (hio : ∀ t, callsBy tag io' t = callsBy tag io t) (hs : Step entry d e c') :
    ∃ e' d', (d' = d ∧ e' = [] ∨ SerialStep entry d e' d') ∧
      Ahead tag d' (io' ++ e') c' (io ++ e) := by
  have hheld : ∀ t, decide (d.holder = some t) = false := by simp [hfree]
  cases hs with
  | start hp hen =>
    exact ⟨[], _, .inr (.start hp hen), .free hfree (callsBy_append_right hio [])⟩
  | @get t k hp =>
    have ht := hd t
    rw [hp, hheld] at ht
    exact absurd ht.1 (by simp)
  | @set t s k hp =>
    have ht := hd t
    rw [hp, hheld] at ht
    exact absurd ht.1 (by simp)
  | @lock t k hp =>
    refine ⟨[], d, .inl ⟨rfl, rfl⟩, .entered (t := t) (k := k) hfree rfl hp ?_
      (fun x hx => absurd hx List.not_mem_nil) (fun u hu => d.prog_resume_of_ne k hu) ?_⟩
    · change Inside k d.shared [] ((d.resume t k).prog t) d.shared
      rw [Config.prog_resume_self]
      exact .enter
    · simpa only [List.append_nil] using hio
  | @unlock t k hp =>
    have ht := hd t
    rw [hp, hheld] at ht
    exact absurd ht.1 (by simp)
  | call r hp =>
    exact ⟨_, _, .inr (.call r hp), .free hfree (callsBy_append_right hio _)⟩

/-- A step of a thread outside the critical section that is being executed. -/
theorem Ahead.step_other {t u : τ} {k p : Prog Q R σ Unit} {io₂ : List (Q × R)}
    (hfree : d.holder = none) (hhold : c.holder = some t) (hp : d.prog t = .lock k)
    (hk : Inside k d.shared io₂ (c.prog t) c.shared) (htag : ∀ x ∈ io₂, tag x.1 = t)
    (hprog : ∀ u, u ≠ t → c.prog u = d.prog u)
    (hio : ∀ u, callsBy tag (io' ++ io₂) u = callsBy tag io u) (hu : u ≠ t)
    (he : ∀ x ∈ e, tag x.1 = u) :
    Ahead tag (d.resume u p) (io' ++ e) (c.resume u p) (io ++ e) := by
  refine .entered (t := t) (k := k) hfree hhold ?_ ?_ htag (fun v hv => ?_) fun v => ?_
  · rw [d.prog_resume_of_ne p (Ne.symm hu), hp]
  · rw [c.prog_resume_of_ne p (Ne.symm hu)]
    exact hk
  · by_cases hvu : v = u
    · rw [hvu, Config.prog_resume_self, Config.prog_resume_self]
    · rw [c.prog_resume_of_ne p hvu, d.prog_resume_of_ne p hvu, hprog v hv]
  · -- the call comes before the calls of the section
    rw [List.append_assoc, callsBy_append, ← callsBy_comm htag he hu, ← callsBy_append,
      ← List.append_assoc]
    exact callsBy_append_right hio e v

/-- A step while a thread is in a critical section. -/
theorem Ahead.step_section {t : τ} {k : Prog Q R σ Unit} {io₂ : List (Q × R)}
    (hc : c.Guarded tag) (hfree : d.holder = none) (hhold : c.holder = some t)
    (hp : d.prog t = .lock k) (hk : Inside k d.shared io₂ (c.prog t) c.shared)
    (htag : ∀ x ∈ io₂, tag x.1 = t) (hprog : ∀ u, u ≠ t → c.prog u = d.prog u)
    (hio : ∀ u, callsBy tag (io' ++ io₂) u = callsBy tag io u) (hs : Step entry c e c') :
    ∃ e' d', (d' = d ∧ e' = [] ∨ SerialStep entry d e' d') ∧
      Ahead tag d' (io' ++ e') c' (io ++ e) := by
  have hheld : ∀ u, decide (c.holder = some u) = true → u = t := fun u hu =>
    Option.some.inj ((of_decide_eq_true hu).symm.trans hhold)
  cases hs with
  | @start u p hpu hen =>
    by_cases hu : u = t
    · -- a thread does not return inside its critical section
      have hret := hc u
      rw [hpu, hu] at hret
      exact absurd hhold (of_decide_eq_false hret)
    · exact ⟨[], _, .inr (.start (hprog u hu ▸ hpu) hen),
        step_other hfree hhold hp hk htag hprog hio hu (by simp)⟩
  | @get u f hpu =>
    have hu := hc u
    rw [hpu] at hu
    obtain rfl := hheld u hu.1
    rw [hpu] at hk
    refine ⟨[], d, .inl ⟨rfl, rfl⟩, .entered hfree hhold hp ?_ htag (fun v hv => ?_)
      (by simpa only [List.append_nil] using hio)⟩
    · change Inside k d.shared io₂ ((c.resume u (f c.shared)).prog u) c.shared
      rw [Config.prog_resume_self]
      exact hk.get
    · rw [c.prog_resume_of_ne _ hv, hprog v hv]
  | @set u s f hpu =>
    have hu := hc u
    rw [hpu] at hu
    obtain rfl := hheld u hu.1
    rw [hpu] at hk
    refine ⟨[], d, .inl ⟨rfl, rfl⟩, .entered hfree hhold hp ?_ htag (fun v hv => ?_)
      (by simpa only [List.append_nil] using hio)⟩
    · change Inside k d.shared io₂ ((c.resume u f).prog u) s
      rw [Config.prog_resume_self]
      exact hk.set
    · change (c.resume u f).prog v = d.prog v
      rw [c.prog_resume_of_ne _ hv, hprog v hv]
  | lock _ hnone => exact absurd (hhold.symm.trans hnone) (by simp)
  | @unlock u f hpu =>
    have hu := hc u
    rw [hpu] at hu
    obtain rfl := hheld u hu.1
    rw [hpu] at hk
    refine ⟨io₂, { d.resume u f with shared := c.shared }, .inr (.critical hp hk), ?_⟩
    have heq : { c.resume u f with holder := none } =
        ({ d.resume u f with shared := c.shared } : Config τ Q R σ) := by
      simp only [Config.resume, hfree, Config.mk.injEq, true_and]
      funext v
      by_cases hv : v = u
      · rw [hv, Function.update_self, Function.update_self]
      · rw [Function.update_of_ne hv, Function.update_of_ne hv, hprog v hv]
    rw [heq]
    exact .free hfree (by simpa using hio)
  | @call u q f r hpu =>
    have hu := hc u
    rw [hpu] at hu
    by_cases hut : u = t
    · subst hut
      rw [hpu] at hk
      refine ⟨[], d, .inl ⟨rfl, rfl⟩, .entered hfree hhold hp
        (?_ : Inside k d.shared (io₂ ++ [(q, r)]) ((c.resume u (f r)).prog u) c.shared)
        (fun x hx => ?_) (fun v hv => ?_) fun v => ?_⟩
      · rw [Config.prog_resume_self]
        exact hk.call r
      · rcases List.mem_append.mp hx with hx | hx
        · exact htag x hx
        · exact List.mem_singleton.mp hx ▸ hu.1
      · rw [c.prog_resume_of_ne _ hv, hprog v hv]
      · rw [List.append_nil, ← List.append_assoc]
        exact callsBy_append_right hio _ v
    · refine ⟨_, _, .inr (.call r (hprog u hut ▸ hpu)),
        step_other hfree hhold hp hk htag hprog hio hut fun x hx => ?_⟩
      exact List.mem_singleton.mp hx ▸ hu.1

/-- **Runs are serial up to the critical section that is being executed.** -/
theorem Run.exists_ahead {c₀ : Config τ Q R σ} {visited : List (Config τ Q R σ)}
    (hentry : ∀ t p, entry t p → p.GuardedFor tag t false)
    (h₀ : c₀.Guarded tag) (hfree : c₀.holder = none) (hr : Run entry c₀ io visited c) :
    ∃ io' d, Serial entry c₀ io' d ∧ Ahead tag d io' c io := by
  induction hr with
  | start => exact ⟨[], c₀, .start, .free hfree fun _ => rfl⟩
  | @step io e visited c c' hr hs ih =>
    obtain ⟨io', d, hd, hahead⟩ := ih
    have hc := hr.guarded hentry h₀
    have hstep : ∃ e' d', (d' = d ∧ e' = [] ∨ SerialStep entry d e' d') ∧
        Ahead tag d' (io' ++ e') c' (io ++ e) := by
      cases hahead with
      | free hfree hio => exact Ahead.step_free hc hfree hio hs
      | entered hfree hhold hp hk htag hprog hio =>
        exact Ahead.step_section hc hfree hhold hp hk htag hprog hio hs
    obtain ⟨e', d', hserial, hahead'⟩ := hstep
    refine ⟨io' ++ e', d', ?_, hahead'⟩
    rcases hserial with ⟨rfl, rfl⟩ | hserial
    · rwa [List.append_nil]
    · exact hd.step hserial

/-- **Runs are serial.** A run of guarded programs that ends while no thread holds the mutex ends as
a serial run does, in which every thread has made the same calls and got the same answers. -/
theorem Run.exists_serial {c₀ : Config τ Q R σ} {visited : List (Config τ Q R σ)}
    (hentry : ∀ t p, entry t p → p.GuardedFor tag t false)
    (h₀ : c₀.Guarded tag) (hfree : c₀.holder = none) (hr : Run entry c₀ io visited c)
    (hend : c.holder = none) :
    ∃ io', Serial entry c₀ io' c ∧ ∀ t, callsBy tag io' t = callsBy tag io t := by
  obtain ⟨io', d, hd, hahead⟩ := hr.exists_ahead hentry h₀ hfree
  cases hahead with
  | free _ hio => exact ⟨io', hd, hio⟩
  | entered _ hhold => exact absurd (hhold.symm.trans hend) (by simp)

end Serial

end LockedThreads
