import Mathlib.Logic.Function.Basic
import Mathlib.Data.List.Basic

/-!
# Threads that share a state behind one mutex

A thread runs a program (`LockedThreads.Prog`) that reads and writes a shared state, takes and
gives back the one mutex, and makes calls to the outside, answered by the environment. The same
program has two meanings.

* `LockedThreads.Prog.eval` runs it alone with every lock granted; the answers are a function of
  the calls made so far, so they may change from one call to the next.
* `LockedThreads.Step` interleaves the programs of several threads. The mutex is not recursive:
  a thread that requests it waits until no thread holds it, its own holding included.

A program is *disciplined* (`LockedThreads.Prog.Disciplined`) with respect to a set of accepted
answers when it requests the mutex only without holding it as long as the answers are accepted,
and requests the mutex it holds as soon as one is not. For disciplined programs the runs without
a self-request are exactly those in which every answer is accepted
(`LockedThreads.Run.forall_not_selfRequest_iff`).

## Main definitions

* `LockedThreads.Prog`, `LockedThreads.Prog.eval`, `LockedThreads.Prog.Disciplined`.
* `LockedThreads.Prog.Within`: what a program may write and call.
* `LockedThreads.Config`, `LockedThreads.Step`, `LockedThreads.Run`.
* `LockedThreads.Config.SelfRequest`: some thread requests the mutex that it holds.

## Main results

* `LockedThreads.Prog.eval_bind`, `LockedThreads.Prog.Disciplined.bind`.
* `LockedThreads.Run.forall_not_selfRequest_iff`.
-/

namespace LockedThreads

/-! ### Programs -/

/-- A program of one thread, with calls `Q` answered by `R`, shared states `σ` and results `α`. -/
inductive Prog (Q R σ α : Type) : Type
  /-- The program has returned. -/
  | ret (a : α)
  /-- The program has run into undefined behaviour; the process stops. -/
  | fault
  /-- Reads the shared state. -/
  | get (k : σ → Prog Q R σ α)
  /-- Writes the shared state. -/
  | set (s : σ) (k : Prog Q R σ α)
  /-- Requests the mutex. -/
  | lock (k : Prog Q R σ α)
  /-- Gives the mutex back. -/
  | unlock (k : Prog Q R σ α)
  /-- Makes a call to the outside. -/
  | call (q : Q) (k : R → Prog Q R σ α)

namespace Prog

variable {Q R σ α β : Type}

/-- Sequencing. -/
def bind (p : Prog Q R σ α) (f : α → Prog Q R σ β) : Prog Q R σ β :=
  match p with
  | ret a => f a
  | fault => fault
  | get k => get fun s => (k s).bind f
  | set s k => set s (k.bind f)
  | lock k => lock (k.bind f)
  | unlock k => unlock (k.bind f)
  | call q k => call q fun r => (k r).bind f

instance : Monad (Prog Q R σ) where
  pure := ret
  bind := bind

/-- Reads the shared state. -/
def read : Prog Q R σ σ := get ret

/-- Writes the shared state. -/
def write (s : σ) : Prog Q R σ Unit := set s (ret ())

/-- `pthread_mutex_lock`. -/
def acquire : Prog Q R σ Unit := lock (ret ())

/-- `pthread_mutex_unlock`. -/
def release : Prog Q R σ Unit := unlock (ret ())

/-- Makes a call and returns its answer. -/
def ask (q : Q) : Prog Q R σ R := call q ret

@[simp] theorem pure_eq_ret (a : α) : (pure a : Prog Q R σ α) = ret a := rfl

@[simp] theorem ret_bind (a : α) (f : α → Prog Q R σ β) : (ret a >>= f) = f a := rfl

@[simp] theorem fault_bind (f : α → Prog Q R σ β) : (fault >>= f) = fault := rfl

@[simp] theorem read_bind (f : σ → Prog Q R σ β) : (read >>= f) = get f := rfl

@[simp] theorem write_bind (s : σ) (f : Unit → Prog Q R σ β) : (write s >>= f) = set s (f ()) :=
  rfl

@[simp] theorem acquire_bind (f : Unit → Prog Q R σ β) : (acquire >>= f) = lock (f ()) := rfl

@[simp] theorem release_bind (f : Unit → Prog Q R σ β) : (release >>= f) = unlock (f ()) := rfl

@[simp] theorem ask_bind (q : Q) (f : R → Prog Q R σ β) : (ask q >>= f) = call q f := rfl

@[simp] theorem get_bind (k : σ → Prog Q R σ α) (f : α → Prog Q R σ β) :
    (get k >>= f) = get fun s => k s >>= f := rfl

@[simp] theorem set_bind (s : σ) (k : Prog Q R σ α) (f : α → Prog Q R σ β) :
    (set s k >>= f) = set s (k >>= f) := rfl

@[simp] theorem lock_bind (k : Prog Q R σ α) (f : α → Prog Q R σ β) :
    (lock k >>= f) = lock (k >>= f) := rfl

@[simp] theorem unlock_bind (k : Prog Q R σ α) (f : α → Prog Q R σ β) :
    (unlock k >>= f) = unlock (k >>= f) := rfl

@[simp] theorem call_bind (q : Q) (k : R → Prog Q R σ α) (f : α → Prog Q R σ β) :
    (call q k >>= f) = call q fun r => k r >>= f := rfl

theorem bind_assoc {γ : Type} (p : Prog Q R σ α) (f : α → Prog Q R σ β)
    (g : β → Prog Q R σ γ) : (p >>= f) >>= g = p >>= fun a => f a >>= g := by
  induction p with
  | ret a => rfl
  | fault => rfl
  | get k ih => exact congrArg get (funext ih)
  | set s k ih => exact congrArg (set s) ih
  | lock k ih => exact congrArg lock ih
  | unlock k ih => exact congrArg unlock ih
  | call q k ih => exact congrArg (call q) (funext ih)

/-! ### Running alone -/

/-- The run of a program with every lock granted, from the calls `h` made so far and the shared
state `s`: all calls made, and the result with the final state unless the program faults. The
environment answers a call by what has been asked before it. -/
def eval (env : List Q → Q → R) : Prog Q R σ α → List Q → σ → List Q × Option (α × σ)
  | ret a, h, s => (h, some (a, s))
  | fault, h, _ => (h, none)
  | get k, h, s => (k s).eval env h s
  | set s k, h, _ => k.eval env h s
  | lock k, h, s => k.eval env h s
  | unlock k, h, s => k.eval env h s
  | call q k, h, s => (k (env h q)).eval env (h ++ [q]) s

section Eval

variable (env : List Q → Q → R) (h : List Q) (s : σ)

@[simp] theorem eval_ret (a : α) : (ret a : Prog Q R σ α).eval env h s = (h, some (a, s)) := rfl

@[simp] theorem eval_fault : (fault : Prog Q R σ α).eval env h s = (h, none) := rfl

@[simp] theorem eval_get (k : σ → Prog Q R σ α) :
    (get k).eval env h s = (k s).eval env h s := rfl

@[simp] theorem eval_set (s' : σ) (k : Prog Q R σ α) :
    (set s' k).eval env h s = k.eval env h s' := rfl

@[simp] theorem eval_lock (k : Prog Q R σ α) : (lock k).eval env h s = k.eval env h s := rfl

@[simp] theorem eval_unlock (k : Prog Q R σ α) : (unlock k).eval env h s = k.eval env h s := rfl

@[simp] theorem eval_call (q : Q) (k : R → Prog Q R σ α) :
    (call q k).eval env h s = (k (env h q)).eval env (h ++ [q]) s := rfl

/-- A sequence runs its second part from the state in which the first returned. -/
theorem eval_bind (p : Prog Q R σ α) (f : α → Prog Q R σ β) :
    (p >>= f).eval env h s = match p.eval env h s with
      | (h', none) => (h', none)
      | (h', some (a, s')) => (f a).eval env h' s' := by
  induction p generalizing h s with
  | ret a => rfl
  | fault => rfl
  | get k ih => exact ih s h s
  | set s' k ih => exact ih h s'
  | lock k ih => exact ih h s
  | unlock k ih => exact ih h s
  | call q k ih => exact ih (env h q) (h ++ [q]) s

theorem eval_bind_of_eq {env : List Q → Q → R} {h h' : List Q} {s s' : σ} {p : Prog Q R σ α}
    {a : α} (hp : p.eval env h s = (h', some (a, s'))) (f : α → Prog Q R σ β) :
    (p >>= f).eval env h s = (f a).eval env h' s' := by
  rw [eval_bind, hp]

theorem eval_bind_of_fault {env : List Q → Q → R} {h h' : List Q} {s : σ} {p : Prog Q R σ α}
    (hp : p.eval env h s = (h', none)) (f : α → Prog Q R σ β) :
    (p >>= f).eval env h s = (h', none) := by
  rw [eval_bind, hp]

/-- A run keeps the calls made before it. -/
theorem prefix_eval (p : Prog Q R σ α) : h <+: (p.eval env h s).1 := by
  induction p generalizing h s with
  | ret a => exact List.prefix_rfl
  | fault => exact List.prefix_rfl
  | get k ih => exact ih s h s
  | set s' k ih => exact ih h s'
  | lock k ih => exact ih h s
  | unlock k ih => exact ih h s
  | call q k ih => exact (List.prefix_append h [q]).trans (ih (env h q) (h ++ [q]) s)

theorem mem_eval_call (q : Q) (k : R → Prog Q R σ α) : q ∈ ((call q k).eval env h s).1 :=
  (prefix_eval env (h ++ [q]) s (k (env h q))).subset
    (List.mem_append_right h (List.mem_singleton_self q))

/-- What the first part of a sequence has called, the sequence has called. -/
theorem mem_eval_bind {env : List Q → Q → R} {h : List Q} {s : σ} {p : Prog Q R σ α} {q : Q}
    (hq : q ∈ (p.eval env h s).1) (f : α → Prog Q R σ β) : q ∈ ((p >>= f).eval env h s).1 := by
  rw [eval_bind]
  split
  · rename_i heq
    rwa [heq] at hq
  · rename_i h' a s' heq
    rw [heq] at hq
    exact (prefix_eval env h' s' (f a)).subset hq

end Eval

/-! ### Programs that do not write -/

/-- The program never writes the shared state. -/
def ReadOnly : Prog Q R σ α → Prop
  | ret _ => True
  | fault => True
  | get k => ∀ s, (k s).ReadOnly
  | set _ _ => False
  | lock k => k.ReadOnly
  | unlock k => k.ReadOnly
  | call _ k => ∀ r, (k r).ReadOnly

theorem ReadOnly.bind {p : Prog Q R σ α} {f : α → Prog Q R σ β} (hp : p.ReadOnly)
    (hf : ∀ a, (f a).ReadOnly) : (p >>= f).ReadOnly := by
  induction p with
  | ret a => exact hf a
  | fault => trivial
  | get k ih => exact fun s => ih s (hp s)
  | set s k ih => exact hp.elim
  | lock k ih => exact ih hp
  | unlock k ih => exact ih hp
  | call q k ih => exact fun r => ih r (hp r)

/-- A program that never writes returns in the state in which it was started. -/
theorem ReadOnly.eq_of_eval {env : List Q → Q → R} {p : Prog Q R σ α} (hp : p.ReadOnly)
    {h h' : List Q} {s s' : σ} {a : α} (heval : p.eval env h s = (h', some (a, s'))) :
    s' = s := by
  induction p generalizing h with
  | ret b => exact ((Prod.mk.inj (Option.some.inj (congrArg Prod.snd heval))).2).symm
  | fault => exact absurd (congrArg Prod.snd heval) (by simp)
  | get k ih => exact ih s (hp s) heval
  | set s k ih => exact hp.elim
  | lock k ih => exact ih hp heval
  | unlock k ih => exact ih hp heval
  | call q k ih => exact ih _ (hp _) heval

/-- Run alone from `s`, the program returns in `s`, if it returns. -/
def Leaves (s : σ) (p : Prog Q R σ α) : Prop := ∀ env h, ∀ x ∈ (p.eval env h s).2, x.2 = s

theorem leaves_ret (s : σ) (a : α) : (ret a : Prog Q R σ α).Leaves s :=
  fun _ _ _ hx => (congrArg Prod.snd (Option.some.inj hx)).symm

theorem leaves_of_eval_eq_none {s : σ} {p : Prog Q R σ α}
    (hp : ∀ env h, (p.eval env h s).2 = none) : p.Leaves s := by
  intro env h x hx
  rw [hp] at hx
  exact absurd hx (by simp)

theorem ReadOnly.leaves {p : Prog Q R σ α} (hp : p.ReadOnly) (s : σ) : p.Leaves s := by
  intro env h x hx
  obtain ⟨a, s'⟩ := x
  exact hp.eq_of_eval (Prod.ext rfl hx)

theorem Leaves.bind {s : σ} {p : Prog Q R σ α} {f : α → Prog Q R σ β} (hp : p.Leaves s)
    (hf : ∀ a, (f a).Leaves s) : (p >>= f).Leaves s := by
  intro env h x hx
  rw [eval_bind] at hx
  split at hx
  · exact absurd hx (by simp)
  · rename_i h' a s' heval
    -- the second part starts where the first has returned
    obtain rfl : s' = s := hp env h (a, s') (by rw [heval]; rfl)
    exact hf a env h' x hx

/-! ### What a program may do -/

/-- The program writes the shared state only if `W` holds, and all its calls satisfy `P`. -/
def Within (W : Prop) (P : Q → Prop) : Prog Q R σ α → Prop
  | ret _ => True
  | fault => True
  | get k => ∀ s, (k s).Within W P
  | set _ k => W ∧ k.Within W P
  | lock k => k.Within W P
  | unlock k => k.Within W P
  | call q k => P q ∧ ∀ r, (k r).Within W P

section Within

variable {W : Prop} {P : Q → Prop} {p : Prog Q R σ α}

theorem Within.bind {f : α → Prog Q R σ β} (hp : p.Within W P) (hf : ∀ a, (f a).Within W P) :
    (p >>= f).Within W P := by
  induction p with
  | ret a => exact hf a
  | fault => trivial
  | get k ih => exact fun s => ih s (hp s)
  | set s k ih => exact ⟨hp.1, ih hp.2⟩
  | lock k ih => exact ih hp
  | unlock k ih => exact ih hp
  | call q k ih => exact ⟨hp.1, fun r => ih r (hp.2 r)⟩

theorem readOnly_of_within (hp : p.Within False fun _ => True) : p.ReadOnly := by
  induction p with
  | ret a => trivial
  | fault => trivial
  | get k ih => exact fun s => ih s (hp s)
  | set s k ih => exact hp.1.elim
  | lock k ih => exact ih hp
  | unlock k ih => exact ih hp
  | call q k ih => exact fun r => ih r (hp.2 r)

/-- The calls made in a run are calls that the program may make. -/
theorem Within.forall_mem_eval (hp : p.Within W P) (env : List Q → Q → R) {h : List Q}
    (hh : ∀ q ∈ h, P q) (s : σ) : ∀ q ∈ (p.eval env h s).1, P q := by
  induction p generalizing h s with
  | ret a => exact hh
  | fault => exact hh
  | get k ih => exact ih s (hp s) hh s
  | set s' k ih => exact ih hp.2 hh s'
  | lock k ih => exact ih hp hh s
  | unlock k ih => exact ih hp hh s
  | call q k ih =>
    refine ih _ (hp.2 _) (fun q' hq' => ?_) s
    rcases List.mem_append.mp hq' with hq' | hq'
    · exact hh q' hq'
    · exact List.mem_singleton.mp hq' ▸ hp.1

end Within

/-! ### The discipline of the mutex -/

/-- The next step of the program is a request of the mutex. -/
def requestsLock : Prog Q R σ α → Bool
  | lock _ => true
  | _ => false

/-- The program keeps to the mutex, from a point where its thread holds it or not (`held`), and
returns in a situation allowed by `post`: accepted answers (`ok`) never lead it to request the
mutex while holding it, and any other answer makes it do so at once. -/
def Disciplined (ok : Q → R → Prop) (post : Bool → α → Prop) : Prog Q R σ α → Bool → Prop
  | ret a, held => post held a
  | fault, _ => True
  | get k, held => ∀ s, (k s).Disciplined ok post held
  | set _ k, held => k.Disciplined ok post held
  | lock k, held => held = false ∧ k.Disciplined ok post true
  | unlock k, held => held = true ∧ k.Disciplined ok post false
  | call q k, held => ∀ r, (ok q r → (k r).Disciplined ok post held) ∧
      (¬ ok q r → held = true ∧ (k r).requestsLock = true)

theorem requestsLock_bind {p : Prog Q R σ α} (f : α → Prog Q R σ β)
    (hp : p.requestsLock = true) : (p >>= f).requestsLock = true := by
  cases p with
  | lock k => rfl
  | _ => exact absurd hp (by simp [requestsLock])

theorem Disciplined.bind {ok : Q → R → Prop} {post : Bool → α → Prop} {post' : Bool → β → Prop}
    {p : Prog Q R σ α} {f : α → Prog Q R σ β} {held : Bool} (hp : p.Disciplined ok post held)
    (hf : ∀ held' a, post held' a → (f a).Disciplined ok post' held') :
    (p >>= f).Disciplined ok post' held := by
  induction p generalizing held with
  | ret a => exact hf held a hp
  | fault => trivial
  | get k ih => exact fun s => ih s (hp s)
  | set s k ih => exact ih hp
  | lock k ih => exact ⟨hp.1, ih hp.2⟩
  | unlock k ih => exact ⟨hp.1, ih hp.2⟩
  | call q k ih =>
    intro r
    exact ⟨fun hr => ih r ((hp r).1 hr), fun hr =>
      ⟨((hp r).2 hr).1, requestsLock_bind f ((hp r).2 hr).2⟩⟩

end Prog

/-! ### Interleavings -/

/-- The shared state, the thread that holds the mutex, and what each thread has left to run. -/
structure Config (τ Q R σ : Type) where
  /-- The shared state. -/
  shared : σ
  /-- The holder of the mutex. -/
  holder : Option τ
  /-- The rest of the program of each thread. -/
  prog : τ → Prog Q R σ Unit

namespace Config

variable {τ Q R σ : Type} [DecidableEq τ]

/-- The thread `t` goes on with `p`. -/
def resume (c : Config τ Q R σ) (t : τ) (p : Prog Q R σ Unit) : Config τ Q R σ :=
  { c with prog := Function.update c.prog t p }

@[simp] theorem prog_resume_self (c : Config τ Q R σ) (t : τ) (p : Prog Q R σ Unit) :
    (c.resume t p).prog t = p :=
  Function.update_self ..

theorem prog_resume_of_ne (c : Config τ Q R σ) {t u : τ} (p : Prog Q R σ Unit) (h : u ≠ t) :
    (c.resume t p).prog u = c.prog u :=
  Function.update_of_ne h ..

/-- Some thread requests the mutex that it holds itself: it waits for ever. -/
def SelfRequest (c : Config τ Q R σ) : Prop :=
  ∃ t, (c.prog t).requestsLock = true ∧ c.holder = some t

/-- Every thread keeps to the mutex and ends without holding it. -/
def Obeys (ok : Q → R → Prop) (c : Config τ Q R σ) : Prop :=
  ∀ t, (c.prog t).Disciplined ok (fun held _ => held = false) (decide (c.holder = some t))

theorem Obeys.not_selfRequest {ok : Q → R → Prop} {c : Config τ Q R σ} (hc : c.Obeys ok) :
    ¬ c.SelfRequest := by
  rintro ⟨t, hreq, hold⟩
  have ht := hc t
  cases hp : c.prog t with
  | lock k =>
    rw [hp] at ht
    exact absurd ht.1 (by simp [hold])
  | _ => rw [hp] at hreq; exact absurd hreq (by simp [Prog.requestsLock])

end Config

variable {τ Q R σ : Type} [DecidableEq τ]

/-- One step of one thread, with the answered call it makes, if any. A thread that has returned
may start any program of its entry points. -/
inductive Step (entry : τ → Prog Q R σ Unit → Prop) :
    Config τ Q R σ → List (Q × R) → Config τ Q R σ → Prop
  | start {c : Config τ Q R σ} {t : τ} {p : Prog Q R σ Unit} (hp : c.prog t = .ret ())
      (he : entry t p) : Step entry c [] (c.resume t p)
  | get {c : Config τ Q R σ} {t : τ} {k : σ → Prog Q R σ Unit} (hp : c.prog t = .get k) :
      Step entry c [] (c.resume t (k c.shared))
  | set {c : Config τ Q R σ} {t : τ} {s : σ} {k : Prog Q R σ Unit} (hp : c.prog t = .set s k) :
      Step entry c [] { c.resume t k with shared := s }
  | lock {c : Config τ Q R σ} {t : τ} {k : Prog Q R σ Unit} (hp : c.prog t = .lock k)
      (hfree : c.holder = none) : Step entry c [] { c.resume t k with holder := some t }
  | unlock {c : Config τ Q R σ} {t : τ} {k : Prog Q R σ Unit} (hp : c.prog t = .unlock k) :
      Step entry c [] { c.resume t k with holder := none }
  | call {c : Config τ Q R σ} {t : τ} {q : Q} {k : R → Prog Q R σ Unit} (r : R)
      (hp : c.prog t = .call q k) : Step entry c [(q, r)] (c.resume t (k r))

/-- A run from `c₀`: the calls answered so far, the states visited and the state reached. -/
inductive Run (entry : τ → Prog Q R σ Unit → Prop) (c₀ : Config τ Q R σ) :
    List (Q × R) → List (Config τ Q R σ) → Config τ Q R σ → Prop
  | start : Run entry c₀ [] [c₀] c₀
  | step {io e : List (Q × R)} {visited : List (Config τ Q R σ)} {c c' : Config τ Q R σ}
      (hr : Run entry c₀ io visited c) (hs : Step entry c e c') :
      Run entry c₀ (io ++ e) (visited ++ [c']) c'

/-! ### Following one thread

Each lemma takes one step of a thread `t` whose next step is known, and says what the thread has
left to run and what has become of the shared state. -/

section Follow

variable {entry : τ → Prog Q R σ Unit → Prop} {c₀ c : Config τ Q R σ} {io : List (Q × R)}
  {visited : List (Config τ Q R σ)} {t : τ}

theorem Run.start_thread (hr : Run entry c₀ io visited c) {p : Prog Q R σ Unit}
    (hp : c.prog t = .ret ()) (he : entry t p) :
    ∃ visited' c', Run entry c₀ io visited' c' ∧ c'.prog t = p ∧ c'.holder = c.holder ∧
      c'.shared = c.shared :=
  ⟨_, _, List.append_nil io ▸ hr.step (.start hp he), c.prog_resume_self t p, rfl, rfl⟩

theorem Run.lock_thread (hr : Run entry c₀ io visited c) {k : Prog Q R σ Unit}
    (hp : c.prog t = .lock k) (hfree : c.holder = none) :
    ∃ visited' c', Run entry c₀ io visited' c' ∧ c'.prog t = k ∧ c'.holder = some t ∧
      c'.shared = c.shared :=
  ⟨_, { c.resume t k with holder := some t }, List.append_nil io ▸ hr.step (.lock hp hfree),
    c.prog_resume_self t k, rfl, rfl⟩

theorem Run.get_thread (hr : Run entry c₀ io visited c) {k : σ → Prog Q R σ Unit}
    (hp : c.prog t = .get k) :
    ∃ visited' c', Run entry c₀ io visited' c' ∧ c'.prog t = k c.shared ∧ c'.holder = c.holder ∧
      c'.shared = c.shared :=
  ⟨_, _, List.append_nil io ▸ hr.step (.get hp), c.prog_resume_self t _, rfl, rfl⟩

theorem Run.call_thread (hr : Run entry c₀ io visited c) {q : Q} {k : R → Prog Q R σ Unit}
    (r : R) (hp : c.prog t = .call q k) :
    ∃ visited' c', Run entry c₀ (io ++ [(q, r)]) visited' c' ∧ c'.prog t = k r ∧
      c'.holder = c.holder ∧ c'.shared = c.shared :=
  ⟨_, _, hr.step (.call r hp), c.prog_resume_self t _, rfl, rfl⟩

end Follow

section Discipline

variable {entry : τ → Prog Q R σ Unit → Prop} {ok : Q → R → Prop} {c c' : Config τ Q R σ}
  {e : List (Q × R)}

/-- A step in which the thread `t` goes on with `p` keeps the discipline if `p` keeps it at the
new holder and the other threads hold the mutex as before. -/
theorem Config.Obeys.of_resume {t : τ} {p : Prog Q R σ Unit} (hc : c.Obeys ok)
    (hprog : ∀ u, u ≠ t → c'.prog u = c.prog u)
    (hhold : ∀ u, u ≠ t → (c'.holder = some u ↔ c.holder = some u)) (ht : c'.prog t = p)
    (hp : p.Disciplined ok (fun held _ => held = false) (decide (c'.holder = some t))) :
    c'.Obeys ok := by
  intro u
  by_cases hu : u = t
  · subst hu
    rw [ht]
    exact hp
  · rw [hprog u hu, decide_eq_decide.mpr (hhold u hu)]
    exact hc u

/-- A step whose call, if any, gets an accepted answer keeps the discipline. -/
theorem Step.obeys (hentry : ∀ t p, entry t p → p.Disciplined ok (fun held _ => held = false) false)
    (hc : c.Obeys ok) (hs : Step entry c e c') (he : ∀ x ∈ e, ok x.1 x.2) : c'.Obeys ok := by
  cases hs with
  | @start t p hp hen =>
    have ht := hc t
    rw [hp] at ht
    refine hc.of_resume (fun u hu => c.prog_resume_of_ne p hu) (fun _ _ => Iff.rfl)
      (c.prog_resume_self t p) ?_
    change p.Disciplined ok _ (decide (c.holder = some t))
    rw [show decide (c.holder = some t) = false from ht]
    exact hentry t p hen
  | @get t k hp =>
    have ht := hc t
    rw [hp] at ht
    exact hc.of_resume (fun u hu => c.prog_resume_of_ne _ hu) (fun _ _ => Iff.rfl)
      (c.prog_resume_self t _) (ht c.shared)
  | @set t s k hp =>
    have ht := hc t
    rw [hp] at ht
    exact hc.of_resume (fun u hu => c.prog_resume_of_ne _ hu) (fun _ _ => Iff.rfl)
      (c.prog_resume_self t _) ht
  | @lock t k hp hfree =>
    have ht := hc t
    rw [hp] at ht
    refine hc.of_resume (fun u hu => c.prog_resume_of_ne _ hu) (fun u hu => ?_)
      (c.prog_resume_self t _) ?_
    · simp [hfree, Ne.symm hu]
    · simpa using ht.2
  | @unlock t k hp =>
    have ht := hc t
    rw [hp] at ht
    have hhold : c.holder = some t := by simpa using ht.1
    refine hc.of_resume (fun u hu => c.prog_resume_of_ne _ hu) (fun u hu => ?_)
      (c.prog_resume_self t _) ?_
    · simp [hhold, Ne.symm hu]
    · simpa using ht.2
  | @call t q k r hp =>
    have ht := hc t
    rw [hp] at ht
    exact hc.of_resume (fun u hu => c.prog_resume_of_ne _ hu) (fun _ _ => Iff.rfl)
      (c.prog_resume_self t _) ((ht r).1 (he (q, r) (List.mem_singleton_self _)))

/-- A call answered otherwise leaves its thread requesting the mutex it holds. -/
theorem Step.selfRequest (hc : c.Obeys ok) (hs : Step entry c e c')
    (he : ∃ x ∈ e, ¬ ok x.1 x.2) : c'.SelfRequest := by
  cases hs with
  | @call t q k r hp =>
    obtain ⟨x, hx, hbad⟩ := he
    obtain rfl := List.mem_singleton.mp hx
    have ht := hc t
    rw [hp] at ht
    obtain ⟨hheld, hreq⟩ := (ht r).2 hbad
    refine ⟨t, ?_, of_decide_eq_true hheld⟩
    rw [Config.prog_resume_self]
    exact hreq
  | _ => exact absurd he (by simp)

/-- Every state of a run whose answers are all accepted keeps the discipline. -/
theorem Run.obeys {c₀ : Config τ Q R σ} {io : List (Q × R)} {visited : List (Config τ Q R σ)}
    (hentry : ∀ t p, entry t p → p.Disciplined ok (fun held _ => held = false) false)
    (h₀ : c₀.Obeys ok) (hr : Run entry c₀ io visited c) (hio : ∀ x ∈ io, ok x.1 x.2) :
    c.Obeys ok ∧ ∀ v ∈ visited, v.Obeys ok := by
  induction hr with
  | start => exact ⟨h₀, fun v hv => List.mem_singleton.mp hv ▸ h₀⟩
  | step hr hs ih =>
    obtain ⟨hc, hv⟩ := ih fun x hx => hio x (List.mem_append_left _ hx)
    have hc' := hs.obeys hentry hc fun x hx => hio x (List.mem_append_right _ hx)
    refine ⟨hc', fun v hmem => ?_⟩
    rcases List.mem_append.mp hmem with hmem | hmem
    · exact hv v hmem
    · exact List.mem_singleton.mp hmem ▸ hc'

/-- **Runs without a self-request.** When all programs are disciplined, no visited state has a
thread requesting the mutex it holds if and only if every call of the run got an accepted
answer. -/
theorem Run.forall_not_selfRequest_iff {c₀ : Config τ Q R σ} {io : List (Q × R)}
    {visited : List (Config τ Q R σ)}
    (hentry : ∀ t p, entry t p → p.Disciplined ok (fun held _ => held = false) false)
    (h₀ : c₀.Obeys ok) (hr : Run entry c₀ io visited c) :
    (∀ v ∈ visited, ¬ v.SelfRequest) ↔ ∀ x ∈ io, ok x.1 x.2 := by
  refine ⟨fun hgood => ?_, fun hio v hv => ((hr.obeys hentry h₀ hio).2 v hv).not_selfRequest⟩
  induction hr with
  | start => simp
  | @step io e visited c c' hr hs ih =>
    have hprev := ih fun v hv => hgood v (List.mem_append_left _ hv)
    have hc := (hr.obeys hentry h₀ hprev).1
    intro x hx
    rcases List.mem_append.mp hx with hx | hx
    · exact hprev x hx
    · by_contra hbad
      exact hgood c' (List.mem_append_right _ (List.mem_singleton_self _))
        (hs.selfRequest hc ⟨x, hx, hbad⟩)

end Discipline

end LockedThreads
