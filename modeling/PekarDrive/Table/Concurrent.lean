import PekarDrive.Foundation.Serial
import PekarDrive.Table.Refinement

/-!
# Threads at the server table

The acceptor, the scheduler and the administration thread of the master call the functions of
`src/server_table.c` at the same time. Those functions that do all their work between taking and
giving back the mutex appear to be executed one after the other: the table that any number of
threads leave behind is the list that the calls give in some order, and each thread finds and visits
what this order shows it. The order keeps the order of the calls of each thread.

`getfs_index` and `table_count` read the count without the mutex and are not among these functions.

## Main definitions

* `PekarDrive.LockedCall`, with `prog`, `applyTo` and `seen`: a call, what it does to a list and
  what it shows its caller.
* `PekarDrive.threadProg`: a thread that makes calls one after the other.
* `PekarDrive.tableAfter`, `PekarDrive.seenIn`: calls made in a given order.

## Main results

* `PekarDrive.LockedCall.critical`: one critical section.
* `PekarDrive.callsInSomeOrder`: every run of any number of threads.
-/

namespace PekarDrive

open CText LockedThreads

/-- What a call tells its caller. -/
inductive Seen
  /-- The pointer that a search returns. -/
  | found (p : Option ℕ)
  /-- The entry that `for_each_server` passes to its callback. -/
  | visited (w : FileServer)
  deriving DecidableEq

/-- A call of a function that works on the table only while it holds the mutex. -/
inductive LockedCall
  /-- `add_server` and `remove_server`. -/
  | change (c : TableChange)
  /-- `getfs_id`. -/
  | getfsId (id : UInt64)
  /-- `getfs_pred`. -/
  | getfsPred (pred : FileServer → Bool)
  /-- `for_each_server`, with a callback that tells which entry it is called with. -/
  | forEachServer

variable {τ : Type}

namespace LockedCall

/-- The program of a call in the thread `t`, which is told what it sees. -/
def prog (t : τ) : LockedCall → TableProg (τ × Seen) Unit Unit
  | change c => c.prog
  | getfsId id => do
    let p ← PekarDrive.getfsId id
    Prog.ask (t, .found p)
  | getfsPred pred => do
    let p ← PekarDrive.getfsPred pred
    Prog.ask (t, .found p)
  | forEachServer => PekarDrive.forEachServer fun w => Prog.ask (t, .visited w)

/-- What a call does to a list. -/
def applyTo (l : List FileServer) : LockedCall → List FileServer
  | change c => c.applyTo l
  | _ => l

/-- What a call shows of a list. -/
def seen (l : List FileServer) : LockedCall → List Seen
  | change _ => []
  | getfsId id => [.found (l.findIdx? fun w => w.id == id)]
  | getfsPred pred => [.found (l.findIdx? pred)]
  | forEachServer => l.map .visited

end LockedCall

/-- A thread that makes calls one after the other. -/
def threadProg (t : τ) : List LockedCall → TableProg (τ × Seen) Unit Unit
  | [] => return ()
  | c :: cs => do
    c.prog t
    threadProg t cs

/-- The list after calls made in the given order. -/
def tableAfter (l : List FileServer) (order : List (τ × LockedCall)) : List FileServer :=
  order.foldl (fun l x => x.2.applyTo l) l

/-- What calls made in the given order show, each its thread. -/
def seenIn (l : List FileServer) : List (τ × LockedCall) → List (τ × Seen)
  | [] => []
  | (t, c) :: order => (c.seen l).map (t, ·) ++ seenIn (c.applyTo l) order

theorem tableAfter_append (l : List FileServer) (order order' : List (τ × LockedCall)) :
    tableAfter l (order ++ order') = tableAfter (tableAfter l order) order' :=
  List.foldl_append

theorem seenIn_append (l : List FileServer) (order order' : List (τ × LockedCall)) :
    seenIn l (order ++ order') = seenIn l order ++ seenIn (tableAfter l order) order' := by
  induction order generalizing l with
  | nil => rfl
  | cons x order ih =>
    obtain ⟨t, c⟩ := x
    rw [List.cons_append, seenIn, seenIn, ih, List.append_assoc]
    rfl

/-! ### The threads are guarded -/

section Guarded

variable (t : τ)

theorem guarded_change (c : TableChange) :
    (c.prog : TableProg (τ × Seen) Unit Unit).GuardedFor Prod.fst t false := by
  cases c with
  | add server =>
    rw [TableChange.prog, addServer, Prog.acquire_bind, Prog.read_bind]
    refine fun _ => ⟨rfl, fun s => ?_⟩
    beta_reduce
    split
    · exact trivial
    · exact ⟨rfl, rfl, rfl⟩
  | remove id =>
    refine fun _ => ⟨rfl, fun s => ?_⟩
    change Prog.GuardedFor Prod.fst t (if s.indexof id < 0 then Prog.release
      else Prog.write (s.remove id) >>= fun _ => Prog.release) true
    split
    · exact ⟨rfl, rfl⟩
    · exact ⟨rfl, rfl, rfl⟩

theorem guarded_getfsPred (pred : FileServer → Bool) :
    (getfsPred pred : TableProg (τ × Seen) Unit (Option ℕ)).Guarded (fun q => q.1 = t)
      (fun held _ => held = false) false := by
  rw [getfsPred, Prog.acquire_bind, Prog.read_bind]
  refine fun _ => ⟨rfl, fun s => ?_⟩
  beta_reduce
  split
  · exact ⟨rfl, rfl⟩
  · exact ⟨rfl, rfl⟩

theorem guarded_forEachServer {apply : FileServer → TableProg (τ × Seen) Unit Unit}
    (happly : ∀ w, (apply w).Guarded (fun q => q.1 = t) (fun held _ => held = true) true) :
    (forEachServer apply).GuardedFor Prod.fst t false := by
  have hloop : ∀ n i, (forEachLoop apply n i).Guarded (fun q => q.1 = t)
      (fun held _ => held = true) true := by
    intro n
    induction n with
    | zero => exact fun _ => rfl
    | succ n ih =>
      intro i
      rw [forEachLoop_succ]
      refine ⟨rfl, fun s => ?_⟩
      beta_reduce
      split
      · split
        · exact trivial
        · exact (happly _).seq fun _ => ih (i + 1)
      · exact rfl
  exact fun _ => (hloop ushrtMax 0).seq fun _ => ⟨rfl, rfl⟩

theorem guarded_prog (c : LockedCall) : (c.prog t).GuardedFor Prod.fst t false := by
  cases c with
  | change c => exact guarded_change t c
  | getfsId id => exact (guarded_getfsPred t _).seq fun _ => ⟨rfl, fun _ => rfl⟩
  | getfsPred pred => exact (guarded_getfsPred t _).seq fun _ => ⟨rfl, fun _ => rfl⟩
  | forEachServer => exact guarded_forEachServer t fun w => ⟨rfl, fun _ => rfl⟩

theorem guarded_threadProg (cs : List LockedCall) :
    (threadProg t cs).GuardedFor Prod.fst t false := by
  induction cs with
  | nil => exact rfl
  | cons c cs ih => exact (guarded_prog t c).seq fun _ => ih

end Guarded

/-! ### One critical section -/

/-- A thread between two critical sections: what it has left to call, and what its last call has
found without having told it yet. -/
inductive Between (t : τ) : TableProg (τ × Seen) Unit Unit → List LockedCall → List Seen → Prop
  | next (rest : List LockedCall) : Between t (threadProg t rest) rest []
  | telling (x : Seen) (rest : List LockedCall) :
      Between t (.call (t, x) fun _ => threadProg t rest) rest [x]

theorem threadProg_cases (t : τ) (cs : List LockedCall) :
    cs = [] ∧ threadProg t cs = .ret () ∨
      ∃ c rest k, cs = c :: rest ∧ threadProg t cs = .lock k := by
  cases cs with
  | nil => exact .inl ⟨rfl, rfl⟩
  | cons c rest =>
    refine .inr ⟨c, rest, ?_⟩
    cases c with
    | change c => cases c <;> exact ⟨_, rfl, rfl⟩
    | _ => exact ⟨_, rfl, rfl⟩

section Between

variable {t : τ} {rest : List LockedCall} {pending : List Seen}

theorem Between.of_call {q : τ × Seen} {k : Unit → TableProg (τ × Seen) Unit Unit}
    (h : Between t (.call q k) rest pending) :
    ∃ x, q = (t, x) ∧ (∀ r, k r = threadProg t rest) ∧ pending = [x] := by
  generalize hp : Prog.call q k = p at h
  cases h with
  | next =>
    obtain ⟨_, hret⟩ | ⟨_, _, _, _, hlock⟩ := threadProg_cases t rest
    · exact absurd (hp.trans hret) (by simp)
    · exact absurd (hp.trans hlock) (by simp)
  | telling x =>
    obtain ⟨rfl, rfl⟩ := Prog.call.inj hp
    exact ⟨x, rfl, fun _ => rfl, rfl⟩

theorem Between.of_lock {k : TableProg (τ × Seen) Unit Unit}
    (h : Between t (.lock k) rest pending) :
    ∃ c rest', rest = c :: rest' ∧ threadProg t (c :: rest') = .lock k ∧ pending = [] := by
  generalize hp : Prog.lock k = p at h
  cases h with
  | next =>
    obtain ⟨_, hret⟩ | ⟨c, rest', _, rfl, _⟩ := threadProg_cases t rest
    · exact absurd (hp.trans hret) (by simp)
    · exact ⟨c, rest', rfl, rfl, rfl⟩
  | telling x => exact absurd hp (by simp)

theorem Between.of_ret (h : Between t (.ret ()) rest pending) : rest = [] ∧ pending = [] := by
  generalize hp : Prog.ret () = p at h
  cases h with
  | next =>
    obtain ⟨hnil, _⟩ | ⟨_, _, _, _, hlock⟩ := threadProg_cases t rest
    · exact ⟨hnil, rfl⟩
    · exact absurd (hp.trans hlock) (by simp)
  | telling x => exact absurd hp (by simp)

end Between

section Critical

variable {t : τ} {s s' : ServerTable} {io : List ((τ × Seen) × Unit)}
  {k' : TableProg (τ × Seen) Unit Unit}

theorem critical_change {c : TableChange} {rest : List LockedCall}
    {k : TableProg (τ × Seen) Unit Unit} (hk : threadProg t (.change c :: rest) = .lock k)
    (hin : Inside k s io (.unlock k') s') :
    k' = threadProg t rest ∧ s'.serverTable = c.applyTo s.serverTable ∧ io = [] := by
  cases c with
  | add server =>
    rw [threadProg, LockedCall.prog, TableChange.prog, addServer, Prog.acquire_bind, Prog.read_bind,
      Prog.lock_bind, Prog.get_bind] at hk
    obtain rfl := Prog.lock.inj hk
    replace hin := hin.of_get
    beta_reduce at hin
    cases hadd : s.add server with
    | none =>
      rw [hadd] at hin
      exact hin.not_fault.elim
    | some s₁ =>
      rw [hadd] at hin
      obtain ⟨rfl, rfl, rfl⟩ := hin.of_set.of_unlock
      exact ⟨rfl, ServerTable.serverTable_add hadd, rfl⟩
  | remove id =>
    obtain rfl := Prog.lock.inj hk
    replace hin := hin.of_get
    change Inside ((if s.indexof id < 0 then Prog.release
      else Prog.write (s.remove id) >>= fun _ => Prog.release) >>= fun _ => threadProg t rest)
        s io (.unlock k') s' at hin
    by_cases hneg : s.indexof id < 0
    · rw [if_pos hneg] at hin
      obtain ⟨rfl, rfl, rfl⟩ := hin.of_unlock
      refine ⟨rfl, ?_, rfl⟩
      rw [TableChange.applyTo, ← s'.serverTable_remove, ServerTable.remove, dif_pos hneg]
    · rw [if_neg hneg] at hin
      obtain ⟨rfl, rfl, rfl⟩ := hin.of_set.of_unlock
      exact ⟨rfl, s.serverTable_remove id, rfl⟩

theorem critical_getfsPred {pred : FileServer → Bool}
    {f : Option ℕ → TableProg (τ × Seen) Unit Unit} {k : TableProg (τ × Seen) Unit Unit} (hk : (getfsPred pred >>= f) = .lock k)
    (hin : Inside k s io (.unlock k') s') :
    k' = f (s.serverTable.findIdx? pred) ∧ s' = s ∧ io = [] := by
  rw [getfsPred, Prog.acquire_bind, Prog.read_bind, Prog.lock_bind, Prog.get_bind] at hk
  obtain rfl := Prog.lock.inj hk
  replace hin := hin.of_get
  beta_reduce at hin
  cases hfind : s.serverTable.findIdx? pred with
  | none =>
    rw [hfind] at hin
    obtain ⟨rfl, rfl, rfl⟩ := hin.of_unlock
    exact ⟨rfl, rfl, rfl⟩
  | some i =>
    rw [hfind] at hin
    obtain ⟨rfl, rfl, rfl⟩ := hin.of_unlock
    exact ⟨rfl, rfl, rfl⟩

/-- A callback that tells which entry it is called with, on the entries of a list. -/
theorem eval_inTurn_ask (env : List (τ × Seen) → τ × Seen → Unit) (t : τ) (l : List FileServer)
    (h : List (τ × Seen)) (s : ServerTable) :
    (inTurn (fun w => Prog.ask (t, .visited w)) l).eval env h s =
      (h ++ l.map fun w => (t, .visited w), some ((), s)) := by
  induction l generalizing h with
  | nil => rw [List.map_nil, List.append_nil]; rfl
  | cons w l ih =>
    rw [inTurn, Prog.ask_bind, Prog.eval_call, ih, List.append_assoc]
    rfl

theorem lockFree_forEachLoop {apply : FileServer → TableProg (τ × Seen) Unit Unit}
    (happly : ∀ w, (apply w).LockFree) (n i : ℕ) : (forEachLoop apply n i).LockFree := by
  induction n generalizing i with
  | zero => exact trivial
  | succ n ih =>
    rw [forEachLoop_succ]
    intro s
    beta_reduce
    split
    · split
      · exact trivial
      · exact (happly _).bind fun _ => ih (i + 1)
    · exact trivial

theorem critical_forEachServer {rest : List LockedCall} {k : TableProg (τ × Seen) Unit Unit}
    (hk : threadProg t (.forEachServer :: rest) = .lock k)
    (hin : Inside k s io (.unlock k') s') :
    k' = threadProg t rest ∧ s' = s ∧
      io.map Prod.fst = s.serverTable.map fun w => (t, .visited w) := by
  obtain rfl := Prog.lock.inj hk
  let apply : FileServer → TableProg (τ × Seen) Unit Unit := fun w => Prog.ask (t, .visited w)
  have hask : ∀ w, (apply w).ReadOnly := fun w _ => trivial
  change Inside ((forEachLoop apply ushrtMax 0 >>= fun _ => Prog.release) >>= fun _ =>
    threadProg t rest) s io (.unlock k') s' at hin
  rw [Prog.bind_assoc] at hin
  obtain ⟨a, s₁, io₁, io₂, rfl, heval, hrest⟩ := hin.of_bind (fun _ _ => ())
    (lockFree_forEachLoop (fun w => by exact fun _ => trivial) ushrtMax 0) []
  have hlen : s.serverTable.length ≤ 0 + ushrtMax := by
    rw [s.count_eq, Nat.zero_add]
    exact Nat.le_of_lt_succ s.serverCount.toNat_lt
  rw [eval_forEachLoop_of_readOnly _ s hask ushrtMax 0 [] hlen, List.drop_zero,
    eval_inTurn_ask] at heval
  obtain ⟨hcalls, hstate⟩ := Prod.mk.inj heval
  obtain rfl := (Prod.mk.inj (Option.some.inj hstate)).2
  obtain ⟨rfl, rfl, rfl⟩ := hrest.of_unlock
  exact ⟨rfl, rfl, by simpa using hcalls.symm⟩

/-- **One critical section.** It does to the entries what its call does to a list, and shows what
its call shows of the list, up to what the thread is told next. -/
theorem LockedCall.critical {c : LockedCall} {rest : List LockedCall}
    {k : TableProg (τ × Seen) Unit Unit} (hk : threadProg t (c :: rest) = .lock k)
    (hin : Inside k s io (.unlock k') s') : ∃ pending, Between t k' rest pending ∧
    s'.serverTable = c.applyTo s.serverTable ∧
    io.map Prod.fst ++ pending.map (t, ·) = (c.seen s.serverTable).map (t, ·) := by
  cases c with
  | change c =>
    obtain ⟨rfl, htab, rfl⟩ := critical_change hk hin
    exact ⟨[], .next rest, htab, rfl⟩
  | getfsId id =>
    have hk' : ((PekarDrive.getfsPred fun w => w.id == id) >>= fun p => Prog.call (t, Seen.found p)
        fun _ => threadProg t rest) = .lock k := (Prog.bind_assoc _ _ _).symm.trans hk
    obtain ⟨rfl, rfl, rfl⟩ := critical_getfsPred hk' hin
    exact ⟨_, .telling _ rest, rfl, rfl⟩
  | getfsPred pred =>
    have hk' : (PekarDrive.getfsPred pred >>= fun p => Prog.call (t, Seen.found p)
        fun _ => threadProg t rest) = .lock k := (Prog.bind_assoc _ _ _).symm.trans hk
    obtain ⟨rfl, rfl, rfl⟩ := critical_getfsPred hk' hin
    exact ⟨_, .telling _ rest, rfl, rfl⟩
  | forEachServer =>
    obtain ⟨rfl, rfl, hio⟩ := critical_forEachServer hk hin
    refine ⟨[], .next rest, rfl, ?_⟩
    rw [List.map_nil, List.append_nil, hio, LockedCall.seen, List.map_map]
    rfl

end Critical

/-! ### Whole runs -/

variable [DecidableEq τ]

/-- The calls of the thread `t` in an order. -/
def callsOf (order : List (τ × LockedCall)) (t : τ) : List LockedCall :=
  (order.filter fun x => decide (x.1 = t)).map Prod.snd

/-- What the thread `t` has seen. -/
def seenBy (seen : List (τ × Seen)) (t : τ) : List Seen :=
  (seen.filter fun x => decide (x.1 = t)).map Prod.snd

theorem callsOf_append_singleton (order : List (τ × LockedCall)) (t u : τ) (c : LockedCall) :
    callsOf (order ++ [(t, c)]) u = callsOf order u ++ if t = u then [c] else [] := by
  by_cases h : t = u <;> simp [callsOf, h]

theorem seenBy_append (seen seen' : List (τ × Seen)) (t : τ) :
    seenBy (seen ++ seen') t = seenBy seen t ++ seenBy seen' t := by
  simp [seenBy]

theorem seenBy_map (t u : τ) (seen : List Seen) :
    seenBy (seen.map (t, ·)) u = if t = u then seen else [] := by
  by_cases h : t = u <;> simp [seenBy, h, List.filter_map, Function.comp_def]

/-- A state reached by critical sections that make calls in the given order: what each thread has
left to call, and what it has seen up to what it is told next. -/
def Ordered (calls : τ → List LockedCall) (l : List FileServer) (order : List (τ × LockedCall))
    (io : List ((τ × Seen) × Unit)) (d : Config τ (τ × Seen) Unit ServerTable) : Prop :=
  d.shared.serverTable = tableAfter l order ∧
  ∀ t, ∃ rest pending, Between t (d.prog t) rest pending ∧ callsOf order t ++ rest = calls t ∧
    seenBy (io.map Prod.fst) t ++ pending = seenBy (seenIn l order) t

theorem ordered_start (calls : τ → List LockedCall) (t₀ : ServerTable) :
    Ordered calls t₀.serverTable [] [] ⟨t₀, none, fun t => threadProg t (calls t)⟩ :=
  ⟨rfl, fun t => ⟨calls t, [], .next _, rfl, rfl⟩⟩

/-- A step with whole critical sections lengthens the order by at most one call. -/
theorem Ordered.step {calls : τ → List LockedCall} {l : List FileServer}
    {order : List (τ × LockedCall)} {io e : List ((τ × Seen) × Unit)}
    {d d' : Config τ (τ × Seen) Unit ServerTable} (hd : Ordered calls l order io d)
    (hs : SerialStep (fun _ _ => False) d e d') :
    ∃ order', Ordered calls l order' (io ++ e) d' := by
  obtain ⟨htab, hthreads⟩ := hd
  cases hs with
  | start _ he => exact he.elim
  | @call t q k r hp =>
    obtain ⟨rest, pending, hbetween, hrest, hseen⟩ := hthreads t
    rw [hp] at hbetween
    obtain ⟨x, rfl, hk, rfl⟩ := hbetween.of_call
    have htell : (io ++ [((t, x), r)]).map Prod.fst = io.map Prod.fst ++ [x].map (t, ·) := by simp
    refine ⟨order, htab, fun u => ?_⟩
    rw [htell, seenBy_append, seenBy_map]
    by_cases hu : t = u
    · subst hu
      refine ⟨rest, [], ?_, hrest, ?_⟩
      · rw [Config.prog_resume_self, hk]
        exact .next rest
      · rw [if_pos rfl, List.append_nil, hseen]
    · rw [if_neg hu, List.append_nil, Config.prog_resume_of_ne _ _ (Ne.symm hu)]
      exact hthreads u
  | @critical t k k' io' s hp hk =>
    obtain ⟨rest, pending, hbetween, hrest, hseen⟩ := hthreads t
    rw [hp] at hbetween
    obtain ⟨c, rest', rfl, hlock, rfl⟩ := hbetween.of_lock
    obtain ⟨pending', hbetween', htab', hio'⟩ := LockedCall.critical hlock hk
    have hseen' : seenIn l (order ++ [(t, c)]) =
        seenIn l order ++ (c.seen d.shared.serverTable).map (t, ·) := by
      rw [seenIn_append, ← htab, seenIn, seenIn, List.append_nil]
    refine ⟨order ++ [(t, c)], ?_, fun u => ?_⟩
    · rw [tableAfter_append, ← htab]
      exact htab'
    · rw [hseen', ← hio', callsOf_append_singleton, List.map_append, seenBy_append, seenBy_append,
        seenBy_append, seenBy_map]
      by_cases hu : t = u
      · subst hu
        refine ⟨rest', pending', ?_, ?_, ?_⟩
        · exact (d.prog_resume_self t k').symm ▸ hbetween'
        · rw [if_pos rfl, List.append_assoc]
          exact hrest
        · rw [if_pos rfl, ← hseen, List.append_nil, List.append_assoc]
      · obtain ⟨rest, pending, hbetween, hrest, hseen⟩ := hthreads u
        refine ⟨rest, pending, ?_, ?_, ?_⟩
        · exact (d.prog_resume_of_ne k' (Ne.symm hu)).symm ▸ hbetween
        · rw [if_neg hu, List.append_nil, hrest]
        · have hnone := congrArg (seenBy · u) hio'
          simp only [seenBy_append, seenBy_map, if_neg hu, List.append_nil] at hnone
          rw [if_neg hu, hnone, List.append_nil, List.append_nil, List.append_nil, hseen]

theorem Ordered.serial {calls : τ → List LockedCall} {l : List FileServer}
    {c d : Config τ (τ × Seen) Unit ServerTable} {io : List ((τ × Seen) × Unit)}
    (h₀ : Ordered calls l [] [] c) (hr : Serial (fun _ _ => False) c io d) :
    ∃ order, Ordered calls l order io d := by
  induction hr with
  | start => exact ⟨[], h₀⟩
  | step _ hs ih =>
    obtain ⟨order, hd⟩ := ih
    exact hd.step hs

theorem map_callsBy (io : List ((τ × Seen) × Unit)) (t : τ) :
    (callsBy Prod.fst io t).map (fun x => x.1.2) = seenBy (io.map Prod.fst) t := by
  simp [callsBy, seenBy, List.filter_map, Function.comp_def]

/-- **Calls in some order.** Any number of threads make calls on the table, in any interleaving of
their steps. When all have returned, there is an order of their calls, which keeps the order of the
calls of each thread, such that the table is the list that the calls give in that order, and each
thread has seen what they show it in that order. -/
theorem callsInSomeOrder (calls : τ → List LockedCall) (t₀ : ServerTable)
    {io : List ((τ × Seen) × Unit)} {visited : List (Config τ (τ × Seen) Unit ServerTable)}
    {c : Config τ (τ × Seen) Unit ServerTable}
    (hr : Run (fun _ _ => False) ⟨t₀, none, fun t => threadProg t (calls t)⟩ io visited c)
    (hend : ∀ t, c.prog t = .ret ()) : ∃ order : List (τ × LockedCall),
      (∀ t, callsOf order t = calls t) ∧
      c.shared.serverTable = tableAfter t₀.serverTable order ∧
      ∀ t, seenBy (io.map Prod.fst) t = seenBy (seenIn t₀.serverTable order) t := by
  have hguarded : Config.Guarded Prod.fst
      (⟨t₀, none, fun t => threadProg t (calls t)⟩ : Config τ (τ × Seen) Unit ServerTable) :=
    fun t => guarded_threadProg t (calls t)
  obtain ⟨io', hserial, hio⟩ := hr.exists_serial (fun _ _ he => he.elim) hguarded rfl
    (hr.holder_of_returned (fun _ _ he => he.elim) hguarded hend)
  obtain ⟨order, htab, hthreads⟩ := (ordered_start calls t₀).serial hserial
  refine ⟨order, fun t => ?_, htab, fun t => ?_⟩
  · obtain ⟨rest, pending, hbetween, hrest, -⟩ := hthreads t
    rw [hend t] at hbetween
    rw [← hrest, hbetween.of_ret.1, List.append_nil]
  · obtain ⟨rest, pending, hbetween, -, hseen⟩ := hthreads t
    rw [hend t] at hbetween
    rw [← hseen, hbetween.of_ret.2, List.append_nil, ← map_callsBy, ← map_callsBy, hio t]

/-- The thread `true` adds a worker, the thread `false` looks for it. -/
def exampleCalls : Bool → List LockedCall
  | true => [.change (.add ⟨1, 0, ⟨lit "10.0.0.1", 80⟩⟩)]
  | false => [.getfsId 1]

/-- The search comes before the worker is added, and is told its result only while the other thread
is inside its critical section. -/
theorem callsInSomeOrder_exampleCalls :
    ∃ order : List (Bool × LockedCall), (∀ t, callsOf order t = exampleCalls t) ∧
      [⟨1, 0, ⟨lit "10.0.0.1", 80⟩⟩] = tableAfter [] order ∧
      ∀ t, seenBy [(false, .found none)] t = seenBy (seenIn [] order) t := by
  let c₀ : Config Bool (Bool × Seen) Unit ServerTable :=
    ⟨.empty, none, fun t => threadProg t (exampleCalls t)⟩
  have h₀ : Run (fun _ _ => False) c₀ [] [c₀] c₀ := .start
  have h₁ := h₀.step (.lock (t := false) rfl rfl)
  have h₂ := h₁.step (.get (t := false) rfl)
  have h₃ := h₂.step (.unlock (t := false) rfl)
  have h₄ := h₃.step (.lock (t := true) rfl rfl)
  have h₅ := h₄.step (.call (t := false) () rfl)
  have h₆ := h₅.step (.get (t := true) rfl)
  have h₇ := h₆.step (.set (t := true) rfl)
  have h₈ := h₇.step (.unlock (t := true) rfl)
  exact callsInSomeOrder exampleCalls .empty h₈ (by rintro (_ | _) <;> rfl)

end PekarDrive
