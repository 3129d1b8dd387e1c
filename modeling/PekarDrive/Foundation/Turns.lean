import PekarDrive.Foundation.Serial
import Mathlib.Data.List.FinRange
import Mathlib.Data.Fintype.Basic

/-!
# Threads with one critical section each

Threads that take the mutex at most once, and touch the shared state only while they hold it, do
together what they do when they run alone one after the other, in some order
(`LockedThreads.Run.exists_inTurn`): the shared state is the one that the last of them leaves, and
each has made the calls that it makes in its turn. The answers to the calls are of a type with one
value, so that a thread cannot learn from them how the others are getting on.

## Main definitions

* `LockedThreads.Prog.LocksAtMost`: how often a program takes the mutex.
* `LockedThreads.InTurn`: runs alone, one after the other.
* `LockedThreads.Prog.mapCall`: a program with its calls renamed.

## Main results

* `LockedThreads.Run.exists_inTurn`.
* `LockedThreads.Prog.eval_mapCall`, `LockedThreads.Prog.Guarded.mapCall`.
-/

namespace LockedThreads

namespace Prog

variable {Q Q' R σ α β : Type}

/-! ### How often the mutex is taken -/

/-- The program takes the mutex at most `n` times. -/
def LocksAtMost : Prog Q R σ α → ℕ → Prop
  | ret _, _ => True
  | fault, _ => True
  | get k, n => ∀ s, (k s).LocksAtMost n
  | set _ k, n => k.LocksAtMost n
  | lock k, n => 0 < n ∧ k.LocksAtMost (n - 1)
  | unlock k, n => k.LocksAtMost n
  | call _ k, n => ∀ r, (k r).LocksAtMost n

theorem LocksAtMost.mono {p : Prog Q R σ α} {m n : ℕ} (hp : p.LocksAtMost m) (hmn : m ≤ n) :
    p.LocksAtMost n := by
  induction p generalizing m n with
  | ret a => trivial
  | fault => trivial
  | get k ih => exact fun s => ih s (hp s) hmn
  | set s k ih => exact ih hp hmn
  | lock k ih => exact ⟨hp.1.trans_le hmn, ih hp.2 (Nat.sub_le_sub_right hmn 1)⟩
  | unlock k ih => exact ih hp hmn
  | call q k ih => exact fun r => ih r (hp r) hmn

theorem LocksAtMost.bind {p : Prog Q R σ α} {f : α → Prog Q R σ β} {m n : ℕ}
    (hp : p.LocksAtMost m) (hf : ∀ a, (f a).LocksAtMost n) : (p >>= f).LocksAtMost (m + n) := by
  induction p generalizing m with
  | ret a => exact (hf a).mono (Nat.le_add_left n m)
  | fault => trivial
  | get k ih => exact fun s => ih s (hp s)
  | set s k ih => exact ih hp
  | lock k ih =>
    refine ⟨Nat.add_pos_left hp.1 n, ?_⟩
    rw [Nat.sub_add_comm hp.1]
    exact ih hp.2
  | unlock k ih => exact ih hp
  | call q k ih => exact fun r => ih r (hp r)

/-! ### Renaming the calls -/

/-- The program with its calls renamed. -/
def mapCall (f : Q → Q') : Prog Q R σ α → Prog Q' R σ α
  | ret a => ret a
  | fault => fault
  | get k => get fun s => (k s).mapCall f
  | set s k => set s (k.mapCall f)
  | lock k => lock (k.mapCall f)
  | unlock k => unlock (k.mapCall f)
  | call q k => call (f q) fun r => (k r).mapCall f

theorem LocksAtMost.mapCall (f : Q → Q') {p : Prog Q R σ α} {n : ℕ} (hp : p.LocksAtMost n) :
    (p.mapCall f).LocksAtMost n := by
  induction p generalizing n with
  | ret a => trivial
  | fault => trivial
  | get k ih => exact fun s => ih s (hp s)
  | set s k ih => exact ih hp
  | lock k ih => exact ⟨hp.1, ih hp.2⟩
  | unlock k ih => exact ih hp
  | call q k ih => exact fun r => ih r (hp r)

theorem Guarded.mapCall (f : Q → Q') {P : Q' → Prop} {post : Bool → α → Prop}
    {p : Prog Q R σ α} {held : Bool} (hp : p.Guarded (fun q => P (f q)) post held) :
    (p.mapCall f).Guarded P post held := by
  induction p generalizing held with
  | ret a => exact hp
  | fault => trivial
  | get k ih => exact ⟨hp.1, fun s => ih s (hp.2 s)⟩
  | set s k ih => exact ⟨hp.1, ih hp.2⟩
  | lock k ih => exact fun hheld => ih (hp hheld)
  | unlock k ih => exact ⟨hp.1, ih hp.2⟩
  | call q k ih => exact ⟨hp.1, fun r => ih r (hp.2 r)⟩

/-- A program with its calls renamed runs alone as before. -/
theorem eval_mapCall [Subsingleton R] (f : Q → Q') (env : List Q → Q → R)
    (env' : List Q' → Q' → R) (p : Prog Q R σ α) (h : List Q) (s : σ) :
    (p.mapCall f).eval env' (h.map f) s = ((p.eval env h s).1.map f, (p.eval env h s).2) := by
  induction p generalizing h s with
  | ret a => rfl
  | fault => rfl
  | get k ih => exact ih s h s
  | set s' k ih => exact ih h s'
  | lock k ih => exact ih h s
  | unlock k ih => exact ih h s
  | call q k ih =>
    have hnext := ih (env h q) (h ++ [q]) s
    rw [List.map_append] at hnext
    rw [mapCall, eval_call, eval_call, Subsingleton.elim (env' _ _) (env h q)]
    exact hnext

end Prog

variable {τ Q R σ : Type}

/-! ### One after the other -/

/-- Each of the given threads in turn changes the state: what the thread does from the state it
finds (`whole`) is what is left of it in the state that it leaves behind (`rest`). -/
inductive Turns {ω : Type} (whole rest : τ → σ → ω) (s₀ : σ) : List τ → σ → Prop
  | nil : Turns whole rest s₀ [] s₀
  | snoc {order : List τ} {s s' : σ} {t : τ} (h : Turns whole rest s₀ order s)
      (ht : whole t s = rest t s') : Turns whole rest s₀ (order ++ [t]) s'

theorem Turns.congr {ω : Type} {whole rest rest' : τ → σ → ω} {s₀ s : σ} {order : List τ}
    (h : Turns whole rest s₀ order s) (hrest : ∀ t ∈ order, rest' t = rest t) :
    Turns whole rest' s₀ order s := by
  induction h with
  | nil => exact .nil
  | @snoc order s s' t h ht ih =>
    refine (ih fun u hu => hrest u (List.mem_append_left _ hu)).snoc ?_
    rw [hrest t (List.mem_append_right _ (List.mem_singleton_self t)), ht]

/-- Threads that do not change the state may take their turn at any time. -/
theorem Turns.append {ω : Type} {whole rest : τ → σ → ω} {s₀ s : σ} {order : List τ}
    (h : Turns whole rest s₀ order s) {ts : List τ} (hts : ∀ t ∈ ts, whole t s = rest t s) :
    Turns whole rest s₀ (order ++ ts) s := by
  induction ts generalizing order with
  | nil => rwa [List.append_nil]
  | cons t ts ih =>
    rw [← List.singleton_append, ← List.append_assoc]
    exact ih (h.snoc (hts t List.mem_cons_self)) fun u hu => hts u (List.mem_cons_of_mem t hu)

/-- Programs that run alone one after the other: what the thread `t` does from the state it finds
(`whole t`) is to make the calls `calls t` and return. -/
abbrev InTurn (whole : τ → σ → List Q × Option (Unit × σ)) (calls : τ → List Q) :
    σ → List τ → σ → Prop :=
  Turns whole fun t s => (calls t, some ((), s))

/-- What is executed of a critical section takes the mutex no more often than the section. -/
theorem Inside.locksAtMost {k p : Prog Q R σ Unit} {s s' : σ} {io : List (Q × R)}
    (hin : Inside k s io p s') {n : ℕ} (hk : k.LocksAtMost n) : p.LocksAtMost n := by
  induction hin with
  | enter => exact hk
  | get _ ih => exact ih _
  | set _ ih => exact ih
  | call r _ ih => exact ih r

/-- A critical section of a guarded program makes the calls that the program may make. -/
theorem Inside.guarded {P : Q → Prop} {post : Bool → Unit → Prop} {k p : Prog Q R σ Unit} {s s' : σ}
    {io : List (Q × R)} (hin : Inside k s io p s') {held : Bool} (hk : k.Guarded P post held) :
    (∀ x ∈ io, P x.1) ∧ p.Guarded P post held := by
  induction hin with
  | enter => exact ⟨fun x hx => absurd hx List.not_mem_nil, hk⟩
  | get _ ih => exact ⟨ih.1, ih.2.2 _⟩
  | set _ ih => exact ⟨ih.1, ih.2.2⟩
  | call r _ ih =>
    refine ⟨fun x hx => ?_, ih.2.2 r⟩
    rcases List.mem_append.mp hx with hx | hx
    · exact ih.1 x hx
    · exact List.mem_singleton.mp hx ▸ ih.2.1

variable [DecidableEq τ] {tag : Q → τ}

/-- The calls that the thread `t` has made. -/
def madeBy (tag : Q → τ) (io : List (Q × R)) (t : τ) : List Q :=
  (callsBy tag io t).map Prod.fst

theorem madeBy_append {io io' : List (Q × R)} {t : τ} (h : ∀ x ∈ io', tag x.1 = t) (u : τ) :
    madeBy tag (io ++ io') u = madeBy tag io u ++ if u = t then io'.map Prod.fst else [] := by
  rw [madeBy, callsBy_append, callsBy_of_forall h, List.map_append, madeBy]
  split <;> rfl

/-- What is left of each thread. -/
def left (env : List Q → Q → R) (tag : Q → τ) (io : List (Q × R)) (d : Config τ Q R σ) (t : τ)
    (s : σ) : List Q × Option (Unit × σ) :=
  (d.prog t).eval env (madeBy tag io t) s

/-- A state in which the threads of `order` have had their critical sections, one after the other,
and the other threads have only made calls. -/
structure Turned (env : List Q → Q → R) (tag : Q → τ) (whole : τ → σ → List Q × Option (Unit × σ))
    (s₀ : σ) (order : List τ) (io : List (Q × R)) (d : Config τ Q R σ) : Prop where
  guarded : d.Guarded tag
  free : d.holder = none
  turns : Turns whole (left env tag io d) s₀ order d.shared
  nodup : order.Nodup
  finished : ∀ t ∈ order, (d.prog t).LocksAtMost 0
  waiting : ∀ t, t ∉ order → (d.prog t).LocksAtMost 1 ∧ left env tag io d t = whole t

section Steps

variable {env : List Q → Q → R} {whole : τ → σ → List Q × Option (Unit × σ)} {s₀ : σ}
  {order : List τ} {io e : List (Q × R)} {d d' : Config τ Q R σ}

/-- A call does not change what is left of the threads. -/
theorem left_call [Subsingleton R] {t : τ} {q : Q} {k : R → Prog Q R σ Unit} (r : R)
    (hp : d.prog t = .call q k) (hq : tag q = t) :
    left env tag (io ++ [(q, r)]) (d.resume t (k r)) = left env tag io d := by
  have htag : ∀ x ∈ [(q, r)], tag x.1 = t := fun x hx => List.mem_singleton.mp hx ▸ hq
  funext u s
  rw [left, left, madeBy_append htag]
  by_cases hu : u = t
  · subst hu
    rw [if_pos rfl, Config.prog_resume_self, hp, Prog.eval_call, Subsingleton.elim (env _ q) r]
    rfl
  · rw [if_neg hu, List.append_nil, Config.prog_resume_of_ne _ _ hu]

/-- A critical section of one thread does not change what is left of the others. -/
theorem left_critical {t u : τ} {k' : Prog Q R σ Unit} {io₂ : List (Q × R)} {s : σ}
    (htag : ∀ x ∈ io₂, tag x.1 = t) (hu : u ≠ t) :
    left env tag (io ++ io₂) { d.resume t k' with shared := s } u = left env tag io d u := by
  funext s'
  change ((d.resume t k').prog u).eval env _ s' = _
  rw [left, madeBy_append htag, if_neg hu, List.append_nil, Config.prog_resume_of_ne _ _ hu]

theorem Turned.call [Subsingleton R] (hd : Turned env tag whole s₀ order io d) {t : τ} {q : Q}
    {k : R → Prog Q R σ Unit} (r : R) (hp : d.prog t = .call q k) :
    Turned env tag whole s₀ order (io ++ [(q, r)]) (d.resume t (k r)) := by
  have hq : tag q = t := by
    have ht := hd.guarded t
    rw [hp] at ht
    exact ht.1
  have hleft : left env tag (io ++ [(q, r)]) (d.resume t (k r)) = left env tag io d :=
    left_call r hp hq
  have hlocks : ∀ u n, (d.prog u).LocksAtMost n → ((d.resume t (k r)).prog u).LocksAtMost n := by
    intro u n hn
    by_cases hu : u = t
    · subst hu
      rw [hp] at hn
      rw [Config.prog_resume_self]
      exact hn r
    · rwa [Config.prog_resume_of_ne _ _ hu]
  have hstep : Step (fun _ _ => False) d [(q, r)] (d.resume t (k r)) := .call r hp
  exact {
    guarded := hstep.guarded (fun _ _ he => he.elim) hd.guarded
    free := hd.free
    turns := hd.turns.congr fun u _ => congrFun hleft u
    nodup := hd.nodup
    finished := fun u hu => hlocks u 0 (hd.finished u hu)
    waiting := fun u hu =>
      ⟨hlocks u 1 (hd.waiting u hu).1, (congrFun hleft u).trans (hd.waiting u hu).2⟩ }

/-- The thread that has its critical section takes its turn. -/
theorem Turned.critical [Subsingleton R] (hd : Turned env tag whole s₀ order io d) {t : τ}
    {k k' : Prog Q R σ Unit} {io₂ : List (Q × R)} {s : σ} (hp : d.prog t = .lock k)
    (hk : Inside k d.shared io₂ (.unlock k') s) :
    Turned env tag whole s₀ (order ++ [t]) (io ++ io₂) { d.resume t k' with shared := s } := by
  have hmem : t ∉ order := fun ht => by
    have hlocks := hd.finished t ht
    rw [hp] at hlocks
    exact absurd hlocks.1 (by simp)
  obtain ⟨hlocks, hwhole⟩ := hd.waiting t hmem
  rw [hp] at hlocks
  have hguard := hd.guarded t
  rw [hp, hd.free] at hguard
  obtain ⟨htag, hbehind⟩ := hk.guarded (hguard (by simp))
  have hother : ∀ u, u ≠ t → left env tag (io ++ io₂) { d.resume t k' with shared := s } u =
      left env tag io d u := fun u hu => left_critical htag hu
  have hne : ∀ u ∈ order, u ≠ t := fun u hu heq => hmem (heq ▸ hu)
  refine ⟨?_, hd.free, ?_, ?_, fun u hu => ?_, fun u hu => ?_⟩
  · refine hd.guarded.of_resume (fun u hu => d.prog_resume_of_ne k' hu) (fun _ _ => Iff.rfl)
      (d.prog_resume_self t k') ?_
    change k'.GuardedFor tag t (decide (d.holder = some t))
    rw [hd.free]
    exact hbehind.2
  · refine (hd.turns.congr fun u hu => hother u (hne u hu)).snoc ?_
    change whole t d.shared = ((d.resume t k').prog t).eval env _ s
    rw [← hwhole, left, hp, Config.prog_resume_self, madeBy_append htag, if_pos rfl]
    exact hk.eval_eq env _
  · simpa [List.nodup_append, hd.nodup] using hne
  · change ((d.resume t k').prog u).LocksAtMost 0
    rcases List.mem_append.mp hu with hu | hu
    · rw [Config.prog_resume_of_ne _ _ (hne u hu)]
      exact hd.finished u hu
    · obtain rfl := List.mem_singleton.mp hu
      rw [Config.prog_resume_self]
      exact hk.locksAtMost hlocks.2
  · have hut : u ≠ t := fun heq => hu (by simp [heq])
    have hu' : u ∉ order := fun hmem' => hu (List.mem_append_left _ hmem')
    refine ⟨?_, (hother u hut).trans (hd.waiting u hu').2⟩
    change ((d.resume t k').prog u).LocksAtMost 1
    rw [Config.prog_resume_of_ne _ _ hut]
    exact (hd.waiting u hu').1

theorem Serial.exists_turned [Subsingleton R] {c₀ : Config τ Q R σ}
    (h₀ : Turned env tag whole s₀ [] [] c₀) (hr : Serial (fun _ _ => False) c₀ io d) :
    ∃ order, Turned env tag whole s₀ order io d := by
  induction hr with
  | start => exact ⟨[], h₀⟩
  | step _ hs ih =>
    obtain ⟨order, hd⟩ := ih
    cases hs with
    | start _ he => exact he.elim
    | call r hp => exact ⟨order, hd.call r hp⟩
    | critical hp hk => exact ⟨_, hd.critical hp hk⟩

end Steps

/-- **Threads with one critical section each.** When all threads have returned, they have done what
they do alone, one after the other in some order. -/
theorem Run.exists_inTurn [Subsingleton R] [Fintype τ] (env : List Q → Q → R)
    {c₀ c : Config τ Q R σ} {io : List (Q × R)} {visited : List (Config τ Q R σ)}
    (hguarded : ∀ t, (c₀.prog t).GuardedFor tag t false)
    (hlocks : ∀ t, (c₀.prog t).LocksAtMost 1) (hfree : c₀.holder = none)
    (hr : Run (fun _ _ => False) c₀ io visited c) (hend : ∀ t, c.prog t = .ret ()) :
    ∃ order : List τ, order.Nodup ∧ (∀ t, t ∈ order) ∧
      InTurn (fun t => (c₀.prog t).eval env []) (madeBy tag io) c₀.shared order c.shared := by
  have h₀ : c₀.Guarded tag := fun t => by
    rw [hfree]
    exact hguarded t
  obtain ⟨io', hserial, hio⟩ := hr.exists_serial (fun _ _ he => he.elim) h₀ hfree
    (hr.holder_of_returned (fun _ _ he => he.elim) h₀ hend)
  have hstart : Turned env tag (fun t => (c₀.prog t).eval env []) c₀.shared [] [] c₀ :=
    ⟨h₀, hfree, .nil, List.nodup_nil, fun t ht => absurd ht List.not_mem_nil,
      fun t _ => ⟨hlocks t, rfl⟩⟩
  obtain ⟨order, hd⟩ := hserial.exists_turned hstart
  have hleft : left env tag io' c = fun t s => (madeBy tag io t, some ((), s)) := by
    funext t s
    rw [left, hend t, madeBy, madeBy, hio t]
    rfl
  have hturns := hd.turns
  rw [hleft] at hturns
  refine ⟨order ++ (Finset.univ.filter (· ∉ order)).toList, ?_, fun t => ?_, ?_⟩
  · refine List.nodup_append.mpr ⟨hd.nodup, Finset.nodup_toList _, fun t ht u hu heq => ?_⟩
    exact (Finset.mem_filter.mp (Finset.mem_toList.mp hu)).2 (heq ▸ ht)
  · by_cases ht : t ∈ order
    · exact List.mem_append_left _ ht
    · exact List.mem_append_right _ (by simpa using ht)
  · refine hturns.append fun t ht => ?_
    -- a thread without a critical section leaves the state alone
    have ht' : t ∉ order := by simpa using ht
    have hwhole := congrFun (hd.waiting t ht').2 c.shared
    rw [hleft] at hwhole
    exact hwhole.symm

end LockedThreads
