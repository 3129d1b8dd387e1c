import PekarDrive.Foundation.Threads
import Mathlib.Logic.Relation

/-!
# A mutex that is never given back

A thread that requests the mutex that it holds waits for ever, and so does every thread that
requests the mutex after it. What the other threads can still do is what they can do without the
mutex.

The programs considered here own the shared state while their thread holds the mutex: only then do
they write it, and what they read is what they know (`LockedThreads.Prog.Owns`). An answer that is
not accepted makes such a program request the mutex that it holds. In a run in which an answer was
not accepted, one thread is stuck (`LockedThreads.Config.StuckAt`), the shared state stays as it is,
and a thread comes to the end of its program exactly if the program may return without the mutex
(`LockedThreads.Prog.ReturnsFree`).

## Main definitions

* `LockedThreads.Prog.Owns`, `LockedThreads.Prog.Closed`, `LockedThreads.Prog.ReturnsFree`.
* `LockedThreads.Prog.Updates`: programs that own what they write, and write as a relation has it.
* `LockedThreads.Config.Owned`, `LockedThreads.Config.Updating`, `LockedThreads.Config.StuckAt`.

## Main results

* `LockedThreads.Run.exists_stuckAt`: an answer that is not accepted.
* `LockedThreads.Config.StuckAt.of_run`, `LockedThreads.Config.StuckAt.exists_run_iff`: the runs
  after it.
* `LockedThreads.Run.reflTransGen_shared`: what becomes of the shared state.
-/

namespace LockedThreads

/-! ### Programs -/

namespace Prog

variable {Q R σ α β : Type}

/-- From a point where its thread holds the mutex and the shared state is `own`, or does not hold
it, the program writes and gives the mutex back only while it is held, requests it only while it is
not, and returns in a situation allowed by `post`. After an answer that is not accepted (`ok`) the
program requests the mutex it holds; the shared state then satisfies `S`. -/
def Owns (ok : Q → R → Prop) (S : σ → Prop) (post : Option σ → α → Prop) :
    Prog Q R σ α → Option σ → Prop
  | ret a, own => post own a
  | fault, _ => True
  | get k, own => ∀ s, (∀ s' ∈ own, s' = s) → (k s).Owns ok S post own
  | set s k, own => own ≠ none ∧ k.Owns ok S post (some s)
  | lock k, own => own = none ∧ ∀ s, k.Owns ok S post (some s)
  | unlock k, own => own ≠ none ∧ k.Owns ok S post none
  | call q k, own => ∀ r, (ok q r → (k r).Owns ok S post own) ∧
      (¬ ok q r → (∃ s ∈ own, S s) ∧ (k r).requestsLock = true)

/-- As `Owns`, and each write takes the shared state to one related by `G`. -/
def Updates (ok : Q → R → Prop) (S : σ → Prop) (G : σ → σ → Prop) (post : Option σ → α → Prop) :
    Prog Q R σ α → Option σ → Prop
  | ret a, own => post own a
  | fault, _ => True
  | get k, own => ∀ s, (∀ s' ∈ own, s' = s) → (k s).Updates ok S G post own
  | set s k, own => (∃ s₀ ∈ own, G s₀ s) ∧ k.Updates ok S G post (some s)
  | lock k, own => own = none ∧ ∀ s, k.Updates ok S G post (some s)
  | unlock k, own => own ≠ none ∧ k.Updates ok S G post none
  | call q k, own => ∀ r, (ok q r → (k r).Updates ok S G post own) ∧
      (¬ ok q r → (∃ s ∈ own, S s) ∧ (k r).requestsLock = true)

/-- The program starts and ends without the mutex. -/
def Closed (ok : Q → R → Prop) (S : σ → Prop) (p : Prog Q R σ α) : Prop :=
  p.Owns ok S (fun own _ => own = none) none

/-- With the shared state `s` and suitable answers, the program returns a value allowed by `post`,
and neither requests the mutex nor gives it back nor writes. -/
def ReturnsFree (s : σ) (post : α → Prop) : Prog Q R σ α → Prop
  | ret a => post a
  | fault => False
  | get k => (k s).ReturnsFree s post
  | set _ _ => False
  | lock _ => False
  | unlock _ => False
  | call _ k => ∃ r, (k r).ReturnsFree s post

section Updates

variable {ok : Q → R → Prop} {S : σ → Prop} {G : σ → σ → Prop} {post : Option σ → α → Prop}
  {post' : Option σ → β → Prop} {p : Prog Q R σ α} {f : α → Prog Q R σ β} {own : Option σ}

theorem Updates.bind (hp : p.Updates ok S G post own)
    (hf : ∀ own' a, post own' a → (f a).Updates ok S G post' own') :
    (p >>= f).Updates ok S G post' own := by
  induction p generalizing own with
  | ret a => exact hf own a hp
  | fault => trivial
  | get k ih => exact fun s hs => ih s (hp s hs)
  | set s k ih => exact ⟨hp.1, ih hp.2⟩
  | lock k ih => exact ⟨hp.1, fun s => ih (hp.2 s)⟩
  | unlock k ih => exact ⟨hp.1, ih hp.2⟩
  | call q k ih =>
    intro r
    exact ⟨fun hr => ih r ((hp r).1 hr), fun hr =>
      ⟨((hp r).2 hr).1, requestsLock_bind f ((hp r).2 hr).2⟩⟩

theorem Updates.owns (hp : p.Updates ok S G post own) : p.Owns ok S post own := by
  induction p generalizing own with
  | ret a => exact hp
  | fault => trivial
  | get k ih => exact fun s hs => ih s (hp s hs)
  | set s k ih =>
    obtain ⟨⟨s₀, hs₀, -⟩, hk⟩ := hp
    exact ⟨Option.ne_none_iff_exists'.mpr ⟨s₀, hs₀⟩, ih hk⟩
  | lock k ih => exact ⟨hp.1, fun s => ih (hp.2 s)⟩
  | unlock k ih => exact ⟨hp.1, ih hp.2⟩
  | call q k ih => exact fun r => ⟨fun hr => ih r ((hp r).1 hr), (hp r).2⟩

/-- A program that owns what it writes updates it, in whatever way. -/
theorem Owns.updates (hp : p.Owns ok S post own) :
    p.Updates ok S (fun _ _ => True) post own := by
  induction p generalizing own with
  | ret a => exact hp
  | fault => trivial
  | get k ih => exact fun s hs => ih s (hp s hs)
  | set s k ih =>
    obtain ⟨s₀, hs₀⟩ := Option.ne_none_iff_exists'.mp hp.1
    exact ⟨⟨s₀, hs₀, trivial⟩, ih hp.2⟩
  | lock k ih => exact ⟨hp.1, fun s => ih (hp.2 s)⟩
  | unlock k ih => exact ⟨hp.1, ih hp.2⟩
  | call q k ih => exact fun r => ⟨fun hr => ih r ((hp r).1 hr), (hp r).2⟩

/-- A call all of whose answers are accepted. -/
theorem updates_ask {q : Q} (hq : ∀ r, ok q r) {post : Option σ → R → Prop}
    (hpost : ∀ r, post own r) : (ask q : Prog Q R σ R).Updates ok S G post own :=
  fun r => ⟨fun _ => hpost r, fun hr => absurd (hq r) hr⟩

end Updates

/-- A sequence returns without the mutex if its first part does, with a value from which the second
part does. -/
theorem returnsFree_bind {s : σ} {post : β → Prop} (p : Prog Q R σ α) (f : α → Prog Q R σ β) :
    (p >>= f).ReturnsFree s post ↔ p.ReturnsFree s fun a => (f a).ReturnsFree s post := by
  induction p with
  | ret a => rfl
  | fault => rfl
  | get k ih => exact ih s
  | set s' k ih => rfl
  | lock k ih => rfl
  | unlock k ih => rfl
  | call q k ih => exact exists_congr ih

end Prog

/-! ### States -/

section States

variable {τ Q R σ : Type} [DecidableEq τ]

namespace Config

/-- What the thread `t` owns: the shared state, if it holds the mutex. -/
def own (c : Config τ Q R σ) (t : τ) : Option σ := if c.holder = some t then some c.shared else none

/-- Every thread owns the shared state while it holds the mutex, and ends without it. -/
def Owned (ok : Q → R → Prop) (S : τ → σ → Prop) (c : Config τ Q R σ) : Prop :=
  ∀ t, (c.prog t).Owns ok (S t) (fun own _ => own = none) (c.own t)

/-- As `Owned`, and every write takes the shared state to one related by `G`. -/
def Updating (ok : Q → R → Prop) (S : τ → σ → Prop) (G : σ → σ → Prop) (c : Config τ Q R σ) :
    Prop :=
  ∀ t, (c.prog t).Updates ok (S t) G (fun own _ => own = none) (c.own t)

/-- The thread `t` requests the mutex that it holds; no other thread has it. -/
structure StuckAt (ok : Q → R → Prop) (S : τ → σ → Prop) (c : Config τ Q R σ) (t : τ) : Prop where
  /-- The request. -/
  requests : (c.prog t).requestsLock = true
  /-- The holder. -/
  holder : c.holder = some t
  /-- The shared state. -/
  state : S t c.shared
  /-- The other threads. -/
  others : ∀ u, u ≠ t → (c.prog u).Closed ok (S u)

variable {ok : Q → R → Prop} {S : τ → σ → Prop} {G : σ → σ → Prop} {c c' : Config τ Q R σ} {t : τ}

theorem own_of_holder (h : c.holder = some t) : c.own t = some c.shared := if_pos h

theorem own_of_ne (h : c.holder ≠ some t) : c.own t = none := if_neg h

theorem holder_of_own_ne (h : c.own t ≠ none) : c.holder = some t :=
  not_not.mp fun hne => h (own_of_ne hne)

theorem Owned.updating (hc : c.Owned ok S) : c.Updating ok S fun _ _ => True := fun t =>
  (hc t).updates

/-- A step in which the thread `t` goes on with `p` and the other threads own what they owned. -/
theorem Updating.of_resume {p : Prog Q R σ Unit} (hc : c.Updating ok S G)
    (hprog : ∀ u, u ≠ t → c'.prog u = c.prog u) (hown : ∀ u, u ≠ t → c'.own u = c.own u)
    (ht : c'.prog t = p) (hp : p.Updates ok (S t) G (fun own _ => own = none) (c'.own t)) :
    c'.Updating ok S G := by
  intro u
  by_cases hu : u = t
  · subst hu
    rw [ht]
    exact hp
  · rw [hprog u hu, hown u hu]
    exact hc u

end Config

section Steps

variable {ok : Q → R → Prop} {S : τ → σ → Prop} {G : σ → σ → Prop}
  {entry : τ → Prog Q R σ Unit → Prop} {c c₀ c' d : Config τ Q R σ} {e io : List (Q × R)}
  {visited : List (Config τ Q R σ)} {t u : τ}

/-- A step keeps the ownership and takes the shared state to a related one if it writes, or a thread
is stuck after an answer that is not accepted. -/
theorem Step.updating_or_stuckAt
    (hentry : ∀ t p, entry t p → p.Updates ok (S t) G (fun own _ => own = none) none)
    (hc : c.Updating ok S G) (hs : Step entry c e c') :
    ((∀ x ∈ e, ok x.1 x.2) ∧ c'.Updating ok S G ∨ ∃ t, c'.StuckAt ok S t) ∧
      (c'.shared = c.shared ∨ G c.shared c'.shared) := by
  cases hs with
  | @start t p hp hen =>
    have ht := hc t
    rw [hp] at ht
    refine ⟨.inl ⟨by simp, hc.of_resume (fun u hu => c.prog_resume_of_ne p hu) (fun _ _ => rfl)
      (c.prog_resume_self t p) ?_⟩, .inl rfl⟩
    change p.Updates ok (S t) G _ (c.own t)
    rw [show c.own t = none from ht]
    exact hentry t p hen
  | @get t k hp =>
    have ht := hc t
    rw [hp] at ht
    refine ⟨.inl ⟨by simp, hc.of_resume (fun u hu => c.prog_resume_of_ne _ hu) (fun _ _ => rfl)
      (c.prog_resume_self t _) (ht c.shared fun s hs => ?_)⟩, .inl rfl⟩
    -- the holder knows the shared state that it reads
    rw [Config.own] at hs
    split at hs
    · exact (Option.some.inj hs).symm
    · exact absurd hs (by simp)
  | @set t s k hp =>
    have ht := hc t
    rw [hp] at ht
    obtain ⟨⟨s₀, hown, hG⟩, hk⟩ := ht
    have hhold : c.holder = some t := Config.holder_of_own_ne fun hnone => by simp [hnone] at hown
    have hne : ∀ u, u ≠ t → c.holder ≠ some u := fun u hu heq =>
      hu (Option.some.inj (heq.symm.trans hhold))
    rw [Config.own_of_holder hhold] at hown
    obtain rfl := Option.some.inj hown
    refine ⟨.inl ⟨by simp, hc.of_resume (fun u hu => c.prog_resume_of_ne _ hu) (fun u hu => ?_)
      (c.prog_resume_self t _) ?_⟩, .inr hG⟩
    · rw [Config.own_of_ne (hne u hu), Config.own_of_ne]
      exact hne u hu
    · rw [Config.own_of_holder (c := { c.resume t k with shared := s }) hhold]
      exact hk
  | @lock t k hp hfree =>
    have ht := hc t
    rw [hp] at ht
    refine ⟨.inl ⟨by simp, hc.of_resume (fun u hu => c.prog_resume_of_ne _ hu) (fun u hu => ?_)
      (c.prog_resume_self t _) ?_⟩, .inl rfl⟩
    · rw [Config.own_of_ne (c := c) (by simp [hfree]), Config.own_of_ne]
      exact fun heq => hu (Option.some.inj heq).symm
    · rw [Config.own_of_holder rfl]
      exact ht.2 _
  | @unlock t k hp =>
    have ht := hc t
    rw [hp] at ht
    have hhold : c.holder = some t := Config.holder_of_own_ne ht.1
    refine ⟨.inl ⟨by simp, hc.of_resume (fun u hu => c.prog_resume_of_ne _ hu) (fun u hu => ?_)
      (c.prog_resume_self t _) ?_⟩, .inl rfl⟩
    · rw [Config.own_of_ne (c := c) fun heq => hu (Option.some.inj (heq.symm.trans hhold)),
        Config.own_of_ne (c := { c.resume t k with holder := none }) (by simp)]
    · rw [Config.own_of_ne (c := { c.resume t k with holder := none }) (by simp)]
      exact ht.2
  | @call t q k r hp =>
    have ht := hc t
    rw [hp] at ht
    refine ⟨?_, .inl rfl⟩
    by_cases hr : ok q r
    · exact .inl ⟨by simpa using hr, hc.of_resume (fun u hu => c.prog_resume_of_ne _ hu)
        (fun _ _ => rfl) (c.prog_resume_self t _) ((ht r).1 hr)⟩
    · obtain ⟨⟨s, hown, hS⟩, hreq⟩ := (ht r).2 hr
      have hhold : c.holder = some t :=
        Config.holder_of_own_ne fun hnone => by simp [hnone] at hown
      rw [Config.own_of_holder hhold] at hown
      obtain rfl := Option.some.inj hown
      refine .inr ⟨t, ?_, hhold, hS, fun u hu => ?_⟩
      · rw [Config.prog_resume_self]
        exact hreq
      · have hother := hc u
        rw [Config.own_of_ne fun heq => hu (Option.some.inj (heq.symm.trans hhold))] at hother
        rw [c.prog_resume_of_ne _ hu]
        exact hother.owns

/-- A step keeps the ownership, or a thread is stuck after an answer that is not accepted. -/
theorem Step.owned_or_stuckAt (hentry : ∀ t p, entry t p → p.Closed ok (S t))
    (hc : c.Owned ok S) (hs : Step entry c e c') :
    (∀ x ∈ e, ok x.1 x.2) ∧ c'.Owned ok S ∨ ∃ t, c'.StuckAt ok S t :=
  (hs.updating_or_stuckAt (fun t p hp => (hentry t p hp).updates) hc.updating).1.imp
    (fun h => ⟨h.1, fun t => (h.2 t).owns⟩) id

/-- What can happen while the thread `t` is stuck: another thread goes on, and neither writes nor
takes the mutex. -/
theorem Config.StuckAt.step_cases (hentry : ∀ t p, entry t p → p.Closed ok (S t))
    (hc : c.StuckAt ok S t) (hs : Step entry c e c') :
    ∃ u p, u ≠ t ∧ c' = c.resume u p ∧ p.Closed ok (S u) ∧ (∀ x ∈ e, ok x.1 x.2) ∧
      (p.ReturnsFree c.shared (fun _ => True) →
        (c.prog u).ReturnsFree c.shared fun _ => True) := by
  have hreq := hc.requests
  -- the thread that is stuck takes no step
  have hmoves : ∀ {u p}, c.prog u = p → p.requestsLock = false → u ≠ t := by
    rintro u p hp hno rfl
    rw [hp, hno] at hreq
    exact absurd hreq (by simp)
  cases hs with
  | @start u p hp hen =>
    refine ⟨u, p, hmoves hp rfl, rfl, hentry u p hen, by simp, fun _ => ?_⟩
    rw [hp]
    trivial
  | @get u k hp =>
    have hu := hmoves hp rfl
    have hclosed := hc.others u hu
    rw [hp] at hclosed
    refine ⟨u, k c.shared, hu, rfl, hclosed c.shared (by simp), by simp, fun h => ?_⟩
    rw [hp]
    exact h
  | @set u s k hp =>
    have hclosed := hc.others u (hmoves hp rfl)
    rw [hp] at hclosed
    exact absurd rfl hclosed.1
  | lock hp hfree =>
    rw [hc.holder] at hfree
    exact absurd hfree (by simp)
  | @unlock u k hp =>
    have hclosed := hc.others u (hmoves hp rfl)
    rw [hp] at hclosed
    exact absurd rfl hclosed.1
  | @call u q k r hp =>
    have hu := hmoves hp rfl
    have hclosed := hc.others u hu
    rw [hp] at hclosed
    have hr : ok q r := by
      by_contra hr
      obtain ⟨⟨s, hs, -⟩, -⟩ := (hclosed r).2 hr
      exact absurd hs (by simp)
    refine ⟨u, k r, hu, rfl, (hclosed r).1 hr, by simpa using hr, fun h => ?_⟩
    rw [hp]
    exact ⟨r, h⟩

/-- **Standstill.** While a thread is stuck, the shared state stays, every answer is accepted, and
what a thread has left to run returns without the mutex only if it did before. -/
theorem Config.StuckAt.of_run (hentry : ∀ t p, entry t p → p.Closed ok (S t))
    (hc : c.StuckAt ok S t) (hr : Run entry c io visited d) :
    d.StuckAt ok S t ∧ d.shared = c.shared ∧ (∀ x ∈ io, ok x.1 x.2) ∧
      ∀ u, u ≠ t → (d.prog u).ReturnsFree c.shared (fun _ => True) →
        (c.prog u).ReturnsFree c.shared fun _ => True := by
  induction hr with
  | start => exact ⟨hc, rfl, by simp, fun _ _ h => h⟩
  | @step io e visited c₁ c₂ hr hs ih =>
    obtain ⟨hstuck, hshared, hio, hfree⟩ := ih
    obtain ⟨v, p, hv, rfl, hp, he, hback⟩ := hstuck.step_cases hentry hs
    refine ⟨⟨?_, hstuck.holder, hstuck.state, fun u hu => ?_⟩, hshared, fun x hx => ?_,
      fun u hu h => hfree u hu ?_⟩
    · rw [c₁.prog_resume_of_ne p hv.symm]
      exact hstuck.requests
    · by_cases huv : u = v
      · subst huv
        rw [Config.prog_resume_self]
        exact hp
      · rw [c₁.prog_resume_of_ne p huv]
        exact hstuck.others u hu
    · exact (List.mem_append.mp hx).elim (hio x) (he x)
    · by_cases huv : u = v
      · subst huv
        rw [Config.prog_resume_self] at h
        rw [← hshared] at h ⊢
        exact hback h
      · rwa [c₁.prog_resume_of_ne p huv] at h

/-- A thread whose program returns without the mutex comes to its end alone. -/
theorem Run.exists_ret {p : Prog Q R σ Unit} (hr : Run entry c₀ io visited c)
    (hp : c.prog t = p) (h : p.ReturnsFree c.shared fun _ => True) :
    ∃ io' visited' d, Run entry c₀ io' visited' d ∧ d.prog t = .ret () := by
  induction p generalizing io visited c with
  | ret a => exact ⟨io, visited, c, hr, hp⟩
  | fault => exact h.elim
  | get k ih =>
    obtain ⟨_, d, hrun, hprog, -, hshared⟩ := hr.get_thread hp
    exact ih c.shared hrun hprog (hshared ▸ h)
  | set s k ih => exact h.elim
  | lock k ih => exact h.elim
  | unlock k ih => exact h.elim
  | call q k ih =>
    obtain ⟨r, h⟩ := h
    obtain ⟨_, d, hrun, hprog, -, hshared⟩ := hr.call_thread r hp
    exact ih r hrun hprog (hshared ▸ h)

/-- **Who comes to an end.** While a thread is stuck, another one can come to the end of its program
if and only if the program may return without the mutex. -/
theorem Config.StuckAt.exists_run_iff (hentry : ∀ t p, entry t p → p.Closed ok (S t))
    (hc : c.StuckAt ok S t) (hu : u ≠ t) :
    (∃ io visited d, Run entry c io visited d ∧ d.prog u = .ret ()) ↔
      (c.prog u).ReturnsFree c.shared fun _ => True := by
  constructor
  · rintro ⟨io, visited, d, hr, hd⟩
    refine (hc.of_run hentry hr).2.2.2 u hu ?_
    rw [hd]
    trivial
  · exact fun h => Run.start.exists_ret rfl h

/-- In every run either all answers were accepted, or a thread is stuck. -/
theorem Run.owned_or_stuckAt (hentry : ∀ t p, entry t p → p.Closed ok (S t))
    (h₀ : c₀.Owned ok S) (hr : Run entry c₀ io visited c) :
    (∀ x ∈ io, ok x.1 x.2) ∧ c.Owned ok S ∨ ∃ t, c.StuckAt ok S t := by
  induction hr with
  | start => exact .inl ⟨by simp, h₀⟩
  | step hr hs ih =>
    rcases ih with ⟨hio, hc⟩ | ⟨t, hc⟩
    · rcases hs.owned_or_stuckAt hentry hc with ⟨he, hc'⟩ | hstuck
      · exact .inl ⟨fun x hx => (List.mem_append.mp hx).elim (hio x) (he x), hc'⟩
      · exact .inr hstuck
    · refine .inr ⟨t, ?_⟩
      have hrun := Run.start.step hs
      exact (hc.of_run hentry hrun).1

/-- After an answer that is not accepted a thread is stuck. -/
theorem Run.exists_stuckAt (hentry : ∀ t p, entry t p → p.Closed ok (S t))
    (h₀ : c₀.Owned ok S) (hr : Run entry c₀ io visited c) (hbad : ∃ x ∈ io, ¬ ok x.1 x.2) :
    ∃ t, c.StuckAt ok S t := by
  refine (hr.owned_or_stuckAt hentry h₀).resolve_left ?_
  rintro ⟨hio, -⟩
  obtain ⟨x, hx, hno⟩ := hbad
  exact hno (hio x hx)

/-- **Updates.** Whatever state a run has visited, the shared state of the last one comes from it by
writes as `G` has them. -/
theorem Run.reflTransGen_shared
    (hentry : ∀ t p, entry t p → p.Updates ok (S t) G (fun own _ => own = none) none)
    (h₀ : c₀.Updating ok S G) (hr : Run entry c₀ io visited c) :
    (c.Updating ok S G ∨ ∃ t, c.StuckAt ok S t) ∧
      ∀ v ∈ visited, Relation.ReflTransGen G v.shared c.shared := by
  have hclosed : ∀ t p, entry t p → p.Closed ok (S t) := fun t p hp => (hentry t p hp).owns
  induction hr with
  | start => exact ⟨.inl h₀, fun v hv => List.mem_singleton.mp hv ▸ .refl⟩
  | @step io e visited c c' hr hs ih =>
    obtain ⟨hcases, hvisited⟩ := ih
    have hstep : (c'.Updating ok S G ∨ ∃ t, c'.StuckAt ok S t) ∧
        (c'.shared = c.shared ∨ G c.shared c'.shared) := by
      rcases hcases with hc | ⟨t, hc⟩
      · obtain ⟨hcases', hshared⟩ := hs.updating_or_stuckAt hentry hc
        exact ⟨hcases'.imp_left And.right, hshared⟩
      · obtain ⟨hstuck, hshared, -⟩ := hc.of_run hclosed (Run.start.step hs)
        exact ⟨.inr ⟨t, hstuck⟩, .inl hshared⟩
    refine ⟨hstep.1, fun v hv => ?_⟩
    rcases List.mem_append.mp hv with hv | hv
    · rcases hstep.2 with heq | hG
      · rw [heq]
        exact hvisited v hv
      · exact (hvisited v hv).tail hG
    · exact List.mem_singleton.mp hv ▸ .refl

end Steps

end States

end LockedThreads
