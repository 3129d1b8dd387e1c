import PekarDrive.Foundation.Turns
import PekarDrive.System.Authorization

/-!
# Connections served at the same time

Built with `THREADING`, a worker serves every connection in a thread of its own. The threads meet in
`src/server/file_exec.c`, whose functions work on the files only while they hold the one mutex, and
each thread enters at most one of them. So whatever the interleaving of the threads, the files are
in the end as if the connections had been served one after the other in some order, and each client
has been sent what it is sent in that order.

A thread has copied its connection when it starts; what the main loop does with the variable that it
copies from is not part of these runs.

## Main definitions

* `PekarDrive.serve`: the thread that serves a connection.
* `PekarDrive.ServedInTurn`: connections served one after the other.

## Main results

* `PekarDrive.guarded_handleWorkerClient`, `PekarDrive.locksAtMost_handleWorkerClient`.
* `PekarDrive.servedInSomeOrder`.
-/

namespace PekarDrive

open CMemory CText LockedThreads

/-! ### What `handle_client` does with the mutex -/

section Mutex

variable (setup : WorkerSetup) (heap : WorkerHeap) (arg : List UInt8)

section Guarded

variable {P : WorkerEvent → Prop} (hP : ∀ e, P e)

include hP

theorem guarded_readFile (fileName : CString) :
    (readFile setup heap fileName).Guarded P (fun held _ => held = true) true := by
  rw [readFile, Prog.ask_bind]
  refine ⟨hP _, fun _ => ?_⟩
  rw [Prog.read_bind]
  refine ⟨rfl, fun fs => ?_⟩
  beta_reduce
  split
  · exact trivial
  · exact rfl

theorem guarded_writeParts (isappend : Bool) :
    (writeParts setup heap arg isappend).Guarded P (fun held _ => held = true) true := by
  unfold writeParts
  split
  · exact trivial
  · exact ⟨hP _, fun _ => ⟨rfl, fun fs => ⟨rfl, rfl⟩⟩⟩

theorem guarded_deleteFile (fileName : CString) :
    (deleteFile setup fileName).Guarded P (fun held _ => held = true) true :=
  ⟨hP _, fun _ => ⟨rfl, fun _ => ⟨rfl, rfl⟩⟩⟩

theorem guarded_fExec (op : UInt16) (uninit : FileOutput) :
    (fExec setup heap op arg uninit).Guarded P (fun held _ => held = false) false := by
  -- an operation that its bit selects, and what follows it in either case
  have hif : ∀ {c : Prop} {_ : Decidable c} {p : WorkerProg FileOutput} {output : FileOutput}
      {k : FileOutput → WorkerProg FileOutput}, p.Guarded P (fun held _ => held = true) true →
      (∀ o, (k o).Guarded P (fun held _ => held = false) true) →
      (if c then p >>= k else pure output >>= k).Guarded P (fun held _ => held = false) true := by
    intro c _ p output k hp hk
    split
    · exact hp.seq hk
    · exact hk output
  rw [fExec, Prog.acquire_bind]
  refine fun _ => hif (guarded_readFile setup heap hP _) fun _ => ?_
  refine hif (guarded_writeParts setup heap arg hP false) fun _ => ?_
  refine hif (guarded_writeParts setup heap arg hP true) fun _ => ?_
  exact hif (guarded_deleteFile setup hP _) fun _ => ⟨rfl, rfl⟩

theorem guarded_fileList (dir : CString) :
    (fileList setup dir).Guarded P (fun held _ => held = false) false := by
  rw [fileList, Prog.acquire_bind, Prog.ask_bind]
  refine fun _ => ⟨hP _, fun _ => ?_⟩
  rw [Prog.read_bind]
  refine ⟨rfl, fun fs => ?_⟩
  beta_reduce
  split
  · exact ⟨rfl, rfl⟩
  · exact ⟨rfl, rfl⟩

theorem guarded_sendPacket (p : Packet) (len : ℕ) :
    (sendPacket heap p len).Guarded P (fun held _ => held = false) false :=
  ⟨hP _, fun _ => rfl⟩

theorem guarded_answerClient (seqNumber type : UInt32) (output : FileOutput) :
    (answerClient setup heap seqNumber type output).Guarded P (fun held _ => held = false)
      false := by
  unfold answerClient
  split
  · exact guarded_sendPacket heap hP _ _
  · split
    · exact trivial
    · exact guarded_sendPacket heap hP _ _

theorem guarded_switchOp (seqNumber type : UInt32) (uninit : UInt16) :
    (switchOp setup heap seqNumber type uninit).Guarded P (fun held _ => held = false) false := by
  unfold switchOp
  split
  · exact rfl
  · exact rfl
  · exact rfl
  · exact rfl
  · exact (guarded_answerClient setup heap hP _ _ _).seq fun _ => rfl

/-- `handle_client` works on the files only while it holds the mutex. -/
theorem guarded_handleWorkerClient (uninit : Uninit) (r : ReadResult) :
    (handleWorkerClient setup heap uninit r).Guarded P (fun held _ => held = false) false := by
  unfold handleWorkerClient
  split
  · exact rfl
  · rename_i p _
    simp only
    split
    · exact rfl
    · split
      · exact guarded_sendPacket heap hP _ _
      · split
        · exact (guarded_fileList setup hP _).seq fun _ => guarded_sendPacket heap hP _ _
        · refine (guarded_switchOp setup heap hP _ _ _).seq fun op => ?_
          exact (guarded_fExec setup heap _ hP _ _).seq fun output =>
            guarded_answerClient setup heap hP _ _ _

end Guarded

theorem locksAtMost_writeParts (isappend : Bool) :
    (writeParts setup heap arg isappend).LocksAtMost 0 := by
  unfold writeParts
  split
  · exact trivial
  · exact fun _ _ => trivial

theorem locksAtMost_readFile (fileName : CString) :
    (readFile setup heap fileName).LocksAtMost 0 := by
  rw [readFile, Prog.ask_bind]
  intro _
  rw [Prog.read_bind]
  intro fs
  beta_reduce
  split <;> exact trivial

theorem locksAtMost_fExec (op : UInt16) (uninit : FileOutput) :
    (fExec setup heap op arg uninit).LocksAtMost 1 := by
  have hif : ∀ {c : Prop} {_ : Decidable c} {p : WorkerProg FileOutput} {output : FileOutput}
      {k : FileOutput → WorkerProg FileOutput}, p.LocksAtMost 0 → (∀ o, (k o).LocksAtMost 0) →
      (if c then p >>= k else pure output >>= k).LocksAtMost 0 := by
    intro c _ p output k hp hk
    split
    · exact hp.bind hk
    · exact hk output
  rw [fExec, Prog.acquire_bind]
  refine ⟨Nat.one_pos, hif (locksAtMost_readFile setup heap _) fun _ => ?_⟩
  refine hif (locksAtMost_writeParts setup heap arg false) fun _ => ?_
  refine hif (locksAtMost_writeParts setup heap arg true) fun _ => ?_
  exact hif (fun _ _ => trivial) fun _ => trivial

theorem locksAtMost_answerClient (seqNumber type : UInt32) (output : FileOutput) :
    (answerClient setup heap seqNumber type output).LocksAtMost 0 := by
  unfold answerClient
  split
  · exact fun _ => trivial
  · split
    · exact trivial
    · exact fun _ => trivial

theorem locksAtMost_switchOp (seqNumber type : UInt32) (uninit : UInt16) :
    (switchOp setup heap seqNumber type uninit).LocksAtMost 0 := by
  unfold switchOp
  split
  · exact trivial
  · exact trivial
  · exact trivial
  · exact trivial
  · exact (locksAtMost_answerClient setup heap _ _ _).bind (n := 0) fun _ => trivial

theorem locksAtMost_fileList (dir : CString) : (fileList setup dir).LocksAtMost 1 := by
  rw [fileList, Prog.acquire_bind, Prog.ask_bind]
  refine ⟨Nat.one_pos, fun _ => ?_⟩
  rw [Prog.read_bind]
  intro fs
  beta_reduce
  split <;> exact trivial

/-- `handle_client` enters at most one critical section. -/
theorem locksAtMost_handleWorkerClient (uninit : Uninit) (r : ReadResult) :
    (handleWorkerClient setup heap uninit r).LocksAtMost 1 := by
  unfold handleWorkerClient
  split
  · exact trivial
  · simp only
    split
    · exact trivial
    · split
      · exact fun _ => trivial
      · split
        · exact (locksAtMost_fileList setup _).bind (n := 0) fun _ _ => trivial
        · refine (locksAtMost_switchOp setup heap _ _ _).bind (n := 1) fun op => ?_
          exact (locksAtMost_fExec setup heap _ _ _).bind (n := 0) fun output =>
            locksAtMost_answerClient setup heap _ _ _

end Mutex

/-! ### Threads -/

/-- The thread `t` that serves a connection. -/
def serve {τ : Type} (setup : WorkerSetup) (c : WorkerConnection) (t : τ) :
    Prog (τ × WorkerEvent) Unit FileSystem Unit :=
  (handleWorkerClient setup c.heap c.uninit (.delivered c.bytes c.stale)).mapCall (t, ·)

/-- What the thread `t` has done. -/
def eventsOf {τ : Type} [DecidableEq τ] (io : List ((τ × WorkerEvent) × Unit)) (t : τ) :
    List WorkerEvent :=
  (io.filter fun x => decide (x.1.1 = t)).map fun x => x.1.2

/-- Connections served one after the other, with what the worker does for each. -/
def ServedInTurn (setup : WorkerSetup) :
    List (WorkerConnection × List WorkerEvent) → FileSystem → FileSystem → Prop
  | [], fs, fs' => fs' = fs
  | (c, events) :: rest, fs, fs'' =>
    ∃ fs', c.run setup fs = (events, some ((), fs')) ∧ ServedInTurn setup rest fs' fs''

section Serve

variable {τ : Type} {setup : WorkerSetup}

theorem servedInTurn_append {xs ys : List (WorkerConnection × List WorkerEvent)}
    {fs fs' fs'' : FileSystem} (hxs : ServedInTurn setup xs fs fs')
    (hys : ServedInTurn setup ys fs' fs'') : ServedInTurn setup (xs ++ ys) fs fs'' := by
  induction xs generalizing fs with
  | nil => exact hxs ▸ hys
  | cons x xs ih =>
    obtain ⟨c, events⟩ := x
    obtain ⟨fs₁, hrun, hrest⟩ := hxs
    exact ⟨fs₁, hrun, ih hrest⟩

/-- A thread that runs alone serves its connection. -/
theorem run_of_eval_serve {c : WorkerConnection} {t : τ} {fs fs' : FileSystem}
    {calls : List (τ × WorkerEvent)}
    (h : (serve setup c t).eval (fun _ _ => ()) [] fs = (calls, some ((), fs'))) :
    c.run setup fs = (calls.map Prod.snd, some ((), fs')) := by
  have heval := Prog.eval_mapCall (t, ·) (fun _ _ => ()) (fun _ _ => ())
    (handleWorkerClient setup c.heap c.uninit (.delivered c.bytes c.stale)) [] fs
  rw [List.map_nil] at heval
  obtain ⟨hcalls, hresult⟩ := Prod.mk.inj (heval.symm.trans h)
  refine Prod.ext ?_ hresult
  rw [← hcalls, List.map_map]
  exact (List.map_id _).symm

theorem map_madeBy [DecidableEq τ] (io : List ((τ × WorkerEvent) × Unit)) (t : τ) :
    (madeBy Prod.fst io t).map Prod.snd = eventsOf io t := by
  rw [madeBy, List.map_map]
  rfl

/-- Threads that run alone one after the other serve their connections one after the other. -/
theorem servedInTurn_of_inTurn [DecidableEq τ] {conns : τ → WorkerConnection}
    {io : List ((τ × WorkerEvent) × Unit)} {order : List τ} {fs fs' : FileSystem}
    (h : InTurn (fun t => (serve setup (conns t) t).eval (fun _ _ => ()) []) (madeBy Prod.fst io) fs
      order fs') :
    ServedInTurn setup (order.map fun t => (conns t, eventsOf io t)) fs fs' := by
  induction h with
  | nil => exact rfl
  | @snoc order fs₁ fs₂ t _ ht ih =>
    rw [List.map_append, List.map_singleton]
    refine servedInTurn_append ih ⟨fs₂, ?_, rfl⟩
    rw [run_of_eval_serve ht, map_madeBy]

end Serve

/-- **Serving at the same time.** Any number of connections, each served by a thread of its own, in
any interleaving of their steps: when all threads have returned, the files are as if the connections
had been served one after the other in some order, and the worker has done for each connection what
it does in that order. -/
theorem servedInSomeOrder (setup : WorkerSetup) (conns : List WorkerConnection) (fs : FileSystem)
    {io : List ((Fin conns.length × WorkerEvent) × Unit)}
    {visited : List (Config (Fin conns.length) (Fin conns.length × WorkerEvent) Unit FileSystem)}
    {c : Config (Fin conns.length) (Fin conns.length × WorkerEvent) Unit FileSystem}
    (hr : Run (fun _ _ => False) ⟨fs, none, fun t => serve setup (conns.get t) t⟩ io visited c)
    (hend : ∀ t, c.prog t = .ret ()) : ∃ order : List (Fin conns.length),
      order.Perm (List.finRange conns.length) ∧
      ServedInTurn setup (order.map fun t => (conns.get t, eventsOf io t)) fs c.shared := by
  have hguarded : ∀ t, (serve setup (conns.get t) t).GuardedFor Prod.fst t false := fun t =>
    (guarded_handleWorkerClient setup _ (fun _ => by rfl) _ _).mapCall _
  have hlocks : ∀ t, (serve setup (conns.get t) t).LocksAtMost 1 := fun t =>
    (locksAtMost_handleWorkerClient setup _ _ _).mapCall _
  obtain ⟨order, hnodup, hall, hturns⟩ :=
    hr.exists_inTurn (fun _ _ => ()) hguarded hlocks rfl hend
  refine ⟨order, ?_, servedInTurn_of_inTurn hturns⟩
  rw [List.perm_ext_iff_of_nodup hnodup (List.nodup_finRange _)]
  exact fun t => ⟨fun _ => List.mem_finRange t, fun _ => hall t⟩

/-- A client that deletes the file `a`, and one that writes it. -/
def exampleConnections : List WorkerConnection :=
  [⟨pEncode (attachToken 2 (pInit 0 (lit "a") MsgType.delete.code)), fun _ => 0, zeroWorkerHeap,
      ⟨0, ⟨0, none, 0⟩⟩⟩,
    ⟨pEncode (attachToken 2 (pInit 0 (lit "a;b") MsgType.write.code)), fun _ => 0, zeroWorkerHeap,
      ⟨0, ⟨0, none, 0⟩⟩⟩]

/-- The file is written before the answer to the deletion has been sent. -/
theorem servedInSomeOrder_exampleConnections :
    ∃ (io : List ((Fin 2 × WorkerEvent) × Unit)) (fs' : FileSystem) (order : List (Fin 2)),
      order.Perm (List.finRange 2) ∧ ServedInTurn exampleSetup
        (order.map fun t => (exampleConnections.get t, eventsOf io t)) emptyFs fs' := by
  let c₀ : Config (Fin 2) (Fin 2 × WorkerEvent) Unit FileSystem :=
    ⟨emptyFs, none, fun t => serve exampleSetup (exampleConnections.get t) t⟩
  have h₀ : Run (fun _ _ => False) c₀ [] [c₀] c₀ := .start
  have h₁ := h₀.step (.lock (t := 0) rfl rfl)
  have h₂ := h₁.step (.call (t := 0) () rfl)
  have h₃ := h₂.step (.get (t := 0) rfl)
  have h₄ := h₃.step (.set (t := 0) rfl)
  have h₅ := h₄.step (.unlock (t := 0) rfl)
  have h₆ := h₅.step (.lock (t := 1) rfl rfl)
  have h₇ := h₆.step (.call (t := 1) () rfl)
  have h₈ := h₇.step (.get (t := 1) rfl)
  have h₉ := h₈.step (.set (t := 1) rfl)
  have h₁₀ := h₉.step (.call (t := 0) () rfl)
  have h₁₁ := h₁₀.step (.unlock (t := 1) rfl)
  have h₁₂ := h₁₁.step (.call (t := 1) () rfl)
  exact ⟨_, _, servedInSomeOrder exampleSetup exampleConnections emptyFs h₁₂
    (Fin.forall_fin_two.mpr ⟨rfl, rfl⟩)⟩

end PekarDrive
