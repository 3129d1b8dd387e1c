import PekarDrive.WorkerAdmin.Ping

/-!
# The admin thread, the main thread and the mutex of the table

The master runs two threads. The admin thread repeats `for_each_server(ping_server)`
(`manager_thread`); the main thread calls the functions of the server table. The mutex is the
default one, which a thread must not request while it holds it.

`for_each_server` holds the mutex while it calls back, and `handle_ping_response` calls
`remove_server`, which requests it again. So a run has no such self-request exactly as long as
every ping is answered by a PING packet.

## Main definitions

* `PekarDrive.MasterThread`, `PekarDrive.Callback`, `PekarDrive.TableCall`.
* `PekarDrive.masterEntry`: the programs that the two threads start.
* `PekarDrive.masterStart`: the state in which both threads are idle.

## Main results

* `PekarDrive.disciplined_forEachServer`.
* `PekarDrive.masterRun_not_selfRequest_iff`.
-/

namespace PekarDrive

open CMemory CText LockedThreads

/-! ### The threads -/

/-- The threads of the master. -/
inductive MasterThread
  /-- The thread of `main`, which serves clients. -/
  | main
  /-- The thread of `manager_thread`. -/
  | admin
  deriving DecidableEq

/-- What the main thread may pass to `for_each_server`. -/
inductive Callback
  /-- `ping_server`. -/
  | pingServer
  /-- A function that calls no function of the table. -/
  | quiet

/-- The function a callback runs on an entry. -/
def Callback.run (tokens : Tokens) : Callback → FileServer → TableProg Request Reply Unit
  | pingServer, server => PekarDrive.pingServer tokens server
  | quiet, _ => return ()

/-- The table operations of the main thread. -/
inductive TableCall
  | addServer (server : FileServer)
  | getfsIndex (index : ℕ)
  | getfsId (id : UInt64)
  | getfsPred (pred : FileServer → Bool)
  | forEachServer (apply : Callback)

/-- The program of a table operation, its result dropped. -/
def TableCall.prog (tokens : Tokens) : TableCall → TableProg Request Reply Unit
  | addServer server => PekarDrive.addServer server
  | getfsIndex index => do
    let _ ← PekarDrive.getfsIndex index
    return ()
  | getfsId id => do
    let _ ← PekarDrive.getfsId id
    return ()
  | getfsPred pred => do
    let _ ← PekarDrive.getfsPred pred
    return ()
  | forEachServer apply => PekarDrive.forEachServer (apply.run tokens)

/-- The programs that the threads start: one ping round after the other, and any table operation
after any other. -/
def masterEntry (tokens : Tokens) : MasterThread → TableProg Request Reply Unit → Prop
  | .admin, p => p = forEachServer (pingServer tokens)
  | .main, p => ∃ call : TableCall, p = call.prog tokens

/-- Both threads idle over a table. -/
def masterStart (t : ServerTable) : Config MasterThread Request Reply ServerTable where
  shared := t
  holder := none
  prog _ := .ret ()

/-! ### The discipline of the table functions -/

/-- The accepted answers: those on which no entry is removed. -/
def pingAccepted (_ : Request) (r : Reply) : Prop := AnswersPing r

theorem disciplined_addServer {Q R : Type} (ok : Q → R → Prop) (server : FileServer) :
    (addServer server : TableProg Q R Unit).Disciplined ok (fun held _ => held = false) false := by
  simp only [addServer, Prog.acquire_bind, Prog.read_bind]
  refine ⟨rfl, fun t => ?_⟩
  cases hadd : t.add server with
  | none =>
    simp only [hadd]
    trivial
  | some t' =>
    simp only [hadd]
    exact ⟨rfl, rfl⟩

theorem disciplined_getfsIndex {Q R : Type} (ok : Q → R → Prop) (index : ℕ) :
    (getfsIndex index : TableProg Q R (Option ℕ)).Disciplined ok
      (fun held _ => held = false) false := by
  intro t
  change (if t.serverCount.toNat ≤ index then Prog.ret none
    else Prog.lock (Prog.unlock (Prog.ret (some index))) : TableProg Q R _).Disciplined ok _ false
  split
  · rfl
  · exact ⟨rfl, rfl, rfl⟩

theorem disciplined_getfsPred {Q R : Type} (ok : Q → R → Prop) (pred : FileServer → Bool) :
    (getfsPred pred : TableProg Q R (Option ℕ)).Disciplined ok
      (fun held _ => held = false) false := by
  simp only [getfsPred, Prog.acquire_bind, Prog.read_bind]
  refine ⟨rfl, fun t => ?_⟩
  cases hfind : t.serverTable.findIdx? pred with
  | none =>
    simp only [hfind]
    exact ⟨rfl, rfl⟩
  | some i =>
    simp only [hfind]
    exact ⟨rfl, rfl⟩

theorem disciplined_getfsId {Q R : Type} (ok : Q → R → Prop) (id : UInt64) :
    (getfsId id : TableProg Q R (Option ℕ)).Disciplined ok (fun held _ => held = false) false :=
  disciplined_getfsPred ok fun w => w.id == id

theorem disciplined_forEachLoop {Q R : Type} {ok : Q → R → Prop}
    {apply : FileServer → TableProg Q R Unit}
    (happly : ∀ w, (apply w).Disciplined ok (fun held _ => held = true) true) (n i : ℕ) :
    (forEachLoop apply n i).Disciplined ok (fun held _ => held = true) true := by
  induction n generalizing i with
  | zero => rfl
  | succ n ih =>
    rw [forEachLoop_succ]
    intro t
    beta_reduce
    split
    · split
      · trivial
      · exact (happly _).bind fun held _ hheld => hheld ▸ ih (i + 1)
    · rfl

/-- `for_each_server` keeps to the mutex if its callback does while the mutex is held. -/
theorem disciplined_forEachServer {Q R : Type} {ok : Q → R → Prop}
    {apply : FileServer → TableProg Q R Unit}
    (happly : ∀ w, (apply w).Disciplined ok (fun held _ => held = true) true) :
    (forEachServer apply).Disciplined ok (fun held _ => held = false) false :=
  ⟨rfl, (disciplined_forEachLoop happly ushrtMax 0).bind fun _ _ hheld => ⟨hheld, rfl⟩⟩

/-- Under the mutex a ping is harmless when it is answered, and requests the mutex otherwise. -/
theorem disciplined_pingServer (tokens : Tokens) (server : FileServer) :
    (pingServer tokens server).Disciplined pingAccepted (fun held _ => held = true) true := by
  intro r
  refine ⟨fun hr => ?_, fun hr => ⟨rfl, requestsLock_handlePingResponse server hr⟩⟩
  change (handlePingResponse r.read server).Disciplined _ _ true
  rw [handlePingResponse_of_answersPing server hr]
  rfl

theorem disciplined_masterEntry (tokens : Tokens) (th : MasterThread)
    (p : TableProg Request Reply Unit) (hp : masterEntry tokens th p) :
    p.Disciplined pingAccepted (fun held _ => held = false) false := by
  cases th with
  | admin =>
    rw [show p = forEachServer (pingServer tokens) from hp]
    exact disciplined_forEachServer (disciplined_pingServer tokens)
  | main =>
    obtain ⟨call, rfl⟩ := hp
    cases call with
    | addServer server => exact disciplined_addServer pingAccepted server
    | getfsIndex index =>
      exact (disciplined_getfsIndex pingAccepted index).bind fun _ _ hheld => hheld
    | getfsId id => exact (disciplined_getfsId pingAccepted id).bind fun _ _ hheld => hheld
    | getfsPred pred => exact (disciplined_getfsPred pingAccepted pred).bind fun _ _ hheld => hheld
    | forEachServer apply =>
      refine disciplined_forEachServer fun w => ?_
      cases apply with
      | pingServer => exact disciplined_pingServer tokens w
      | quiet => rfl

/-! ### Runs of the two threads -/

theorem obeys_masterStart (t : ServerTable) : (masterStart t).Obeys pingAccepted := by
  intro th
  change false = decide ((none : Option MasterThread) = some th)
  simp

/-- **The mutex in runs of the master.** Over every table and every interleaving of the two
threads, no visited state has a thread requesting the mutex it holds if and only if every ping of
the run was answered by a PING packet. -/
theorem masterRun_not_selfRequest_iff (tokens : Tokens) (t : ServerTable)
    {io : List (Request × Reply)} {visited : List (Config MasterThread Request Reply ServerTable)}
    {c : Config MasterThread Request Reply ServerTable}
    (hr : Run (masterEntry tokens) (masterStart t) io visited c) :
    (∀ v ∈ visited, ¬ v.SelfRequest) ↔ ∀ x ∈ io, AnswersPing x.2 :=
  hr.forall_not_selfRequest_iff (disciplined_masterEntry tokens) (obeys_masterStart t)

/-- The admin thread takes the mutex, reads the table and pings the first worker, which answers
`r`. -/
theorem exists_masterRun_ping (tokens : Tokens) {t : ServerTable} {w : FileServer}
    (hw : t.serverTable[0]? = some w) (r : Reply) : ∃ visited c,
    Run (masterEntry tokens) (masterStart t) [(pingRequest tokens w, r)] visited c := by
  have hlt : 0 < t.serverCount.toNat := by
    rw [← t.count_eq]
    exact (List.getElem?_eq_some_iff.mp hw).1
  have h₀ : Run (masterEntry tokens) (masterStart t) [] [masterStart t] (masterStart t) := .start
  obtain ⟨_, c₁, h₁, hp₁, hh₁, hs₁⟩ := h₀.start_thread (t := MasterThread.admin)
    (p := forEachServer (pingServer tokens)) rfl rfl
  obtain ⟨_, c₂, h₂, hp₂, -, hs₂⟩ := h₁.lock_thread hp₁ hh₁
  rw [show ushrtMax = 65534 + 1 from rfl, forEachLoop_succ] at hp₂
  obtain ⟨_, c₃, h₃, hp₃, -, -⟩ := h₂.get_thread hp₂
  obtain ⟨k, hcall⟩ : ∃ k, c₃.prog .admin = .call (pingRequest tokens w) k := by
    refine ⟨fun r => (handlePingResponse r.read w >>= fun _ =>
      forEachLoop (pingServer tokens) 65534 1) >>= fun _ => Prog.release, ?_⟩
    rw [hp₃, hs₂, hs₁]
    simp only [masterStart, if_pos hlt, hw]
    rfl
  obtain ⟨visited, c, h₄, -, -, -⟩ := h₃.call_thread r hcall
  exact ⟨visited, c, h₄⟩

/-- The ping handler asks for the mutex again when the worker is silent: the master stops. -/
theorem exists_masterRun_selfRequest :
    ¬ ∀ (tokens : Tokens) (t : ServerTable) (io : List (Request × Reply))
      (visited : List (Config MasterThread Request Reply ServerTable))
      (c : Config MasterThread Request Reply ServerTable),
      Run (masterEntry tokens) (masterStart t) io visited c → ∀ v ∈ visited, ¬ v.SelfRequest := by
  intro h
  obtain ⟨visited, c, hr⟩ := exists_masterRun_ping exampleTokens (t := oneServer) rfl silentReply
  have hio := (hr.forall_not_selfRequest_iff (disciplined_masterEntry exampleTokens)
    (obeys_masterStart oneServer)).1 (h _ _ _ visited c hr)
  exact absurd (hio _ (List.mem_singleton_self _)).1 (by decide)

/-- When the worker answers, no thread asks for the mutex it holds. -/
theorem masterRun_answered : ∃ visited c,
    Run (masterEntry exampleTokens) (masterStart oneServer)
      [(pingRequest exampleTokens (exampleServer 1), pingReply)] visited c ∧
    ∀ v ∈ visited, ¬ v.SelfRequest := by
  obtain ⟨visited, c, hr⟩ := exists_masterRun_ping exampleTokens (t := oneServer) rfl pingReply
  refine ⟨visited, c, hr, (masterRun_not_selfRequest_iff exampleTokens oneServer hr).2 ?_⟩
  simp only [List.mem_singleton, forall_eq]
  decide

end PekarDrive
