import PekarDrive.Master.MainLoop
import PekarDrive.Packet.Connection
import PekarDrive.WorkerAdmin.PingLocking

/-!
# The descriptors behind the connections of the master

The main thread of the master listens, serves one client and closes both sockets; while it serves
a client it talks to workers, and the admin thread pings workers all the time. The two threads
share the descriptors of the process, and every step here is one call of one thread.

`client_init` and `conn_listen` return a connection with an error flag when they fail. Of their
callers only `main` looks at the flag, and hands the connection to `conn_close` all the same. The
connection has descriptor zero, which may be anybody's.

## Main definitions

* `PekarDrive.Place`: the variables that hold descriptors.
* `PekarDrive.ConnState`, `PekarDrive.ConnEvent`, `PekarDrive.connStep`.
* `PekarDrive.usedConn`: the connection that a step hands to `conn_read`, `conn_write` or
  `conn_close`.
* `PekarDrive.UsesOwn`: its descriptor was opened for it and is still open.
* `PekarDrive.UsesMade`: it was made.

## Main results

* `PekarDrive.Owned.step`: what a step keeps.
* `PekarDrive.forall_usesOwn_iff`.
-/

namespace PekarDrive

open CText Descriptors StepRuns

/-! ### The steps -/

/-- The variables that hold descriptors. -/
inductive Place
  /-- `master_fd`, which is kept here like a connection without error flag. -/
  | listener
  /-- `client` of `main`. -/
  | client
  /-- The connection to a worker of a thread. -/
  | worker (th : MasterThread)
  deriving DecidableEq

/-- What a thread talks to a worker for. -/
inductive WorkerTask
  /-- `ping_server` and `handle_ping_response`. -/
  | ping
  /-- `worker_ls_index`. -/
  | ls
  /-- `worker_write` and `written_bytes`. -/
  | write
  /-- `worker_delete`. -/
  | delete
  deriving DecidableEq

/-- The next call on the connection to a worker. -/
inductive ConnCall
  /-- `conn_write`. -/
  | write
  /-- `conn_read`. -/
  | read
  /-- `conn_close`. -/
  | close
  deriving DecidableEq

/-- What follows `conn_write`; only `worker_ls_index` looks at its result. -/
def WorkerTask.afterWrite (task : WorkerTask) (sent : Bool) : Option (WorkerTask × ConnCall) :=
  match task with
  | ping => some (ping, .read)
  | ls => if sent then some (ls, .read) else none
  | write => some (write, .read)
  | delete => some (delete, .close)

/-- What follows `conn_read`. -/
def WorkerTask.afterRead : WorkerTask → Option (WorkerTask × ConnCall)
  | write => some (write, .close)
  | _ => none

/-- Where the main thread stands. -/
inductive ServePhase
  /-- In `conn_listen`. -/
  | listen
  /-- In `handle_client`, before `conn_read`. -/
  | read
  /-- In `handle_client`, behind `conn_read`. -/
  | serve
  /-- In `server_restart`, before `conn_close`. -/
  | restart
  /-- In `server_restart`, before `close`. -/
  | closeMaster
  /-- In `server_restart`, before `socket`. -/
  | openMaster
  deriving DecidableEq

/-- The state of the two threads. -/
structure ConnState where
  /-- The descriptors of the process. -/
  table : Table
  /-- Where the main thread stands. -/
  phase : ServePhase
  /-- What the variables hold. -/
  held : Place → Option HeldConn
  /-- What each thread is about to do with its connection to a worker. -/
  next : MasterThread → Option (WorkerTask × ConnCall)

/-- A step of a thread. -/
inductive ConnEvent
  /-- `conn_listen` fails before it accepts. -/
  | listenFails (failure : ListenFailure)
  /-- `conn_listen` fails to accept. -/
  | acceptFails
  /-- `conn_listen` returns a connection. -/
  | accept
  /-- `conn_read` in `handle_client`; whether it delivers a packet. -/
  | readClient (delivered : Bool)
  /-- `conn_write` in `handle_client` or `service_available`. -/
  | answerClient
  /-- `handle_client` returns without an answer. -/
  | handled
  /-- `conn_close` in `server_restart`. -/
  | closeClient
  /-- `close` in `server_restart`. -/
  | closeMaster
  /-- `socket` in `server_restart`; whether it succeeds. -/
  | openMaster (ok : Bool)
  /-- `client_init`. -/
  | connect (th : MasterThread) (task : WorkerTask) (outcome : InitOutcome)
  /-- `conn_write` to a worker; whether it sends anything. -/
  | writeWorker (th : MasterThread) (sent : Bool)
  /-- `conn_read` from a worker. -/
  | readWorker (th : MasterThread)
  /-- `conn_close` of a connection to a worker. -/
  | closeWorker (th : MasterThread)

/-- The value of `master_fd` when `socket` has failed. -/
def noSocket : HeldConn := ⟨0, none, -1, none⟩

namespace ConnState

/-- A variable gets a value. -/
def put (s : ConnState) (p : Place) (c : Option HeldConn) : ConnState :=
  { s with held := Function.update s.held p c }

/-- A thread goes on. -/
def goOn (s : ConnState) (th : MasterThread) (x : Option (WorkerTask × ConnCall)) : ConnState :=
  { s with next := Function.update s.next th x }

/-- A variable is handed to `conn_close`. -/
def closeAt (s : ConnState) (p : Place) (c : HeldConn) : ConnState :=
  { s.put p (some (connClose s.table c).1) with table := (connClose s.table c).2 }

/-- The result of `socket` is stored in `master_fd`. -/
def openListener (s : ConnState) (ok : Bool) : ConnState :=
  if ok then { s.put .listener (some (.made s.table none)) with table := s.table.opened }
  else s.put .listener (some noSocket)

/-- The start of `main`, over the descriptors that the process has inherited. -/
def start (t : Table) (ok : Bool) : ConnState :=
  openListener ⟨t, .listen, fun _ => none, fun _ => none⟩ ok

/-- The thread may start to talk to a worker: the admin thread pings, and the main thread does the
rest, while it serves a client. -/
def mayConnect (s : ConnState) : MasterThread → WorkerTask → Bool
  | .admin, task => decide (task = .ping)
  | .main, task => decide (task ≠ .ping ∧ s.phase = .serve)

end ConnState

/-- A step, if it can happen. -/
def connStep (s : ConnState) : ConnEvent → Option ConnState
  | .listenFails failure =>
    if s.phase = .listen then
      some { s.put .client (some (.failed failure.message)) with phase := .restart }
    else none
  | .acceptFails =>
    if s.phase = .listen then
      some { s.put .client (some (.failed (lit "Failed accepting client."))) with
        phase := .restart }
    else none
  | .accept =>
    if s.phase = .listen then
      some { s.put .client (some (.made s.table none)) with
        table := s.table.opened, phase := .read }
    else none
  | .readClient delivered =>
    if s.phase = .read then some { s with phase := if delivered then .serve else .restart }
    else none
  | .answerClient =>
    if s.phase = .serve ∧ s.next .main = none then some { s with phase := .restart } else none
  | .handled =>
    if s.phase = .serve ∧ s.next .main = none then some { s with phase := .restart } else none
  | .closeClient =>
    match s.phase, s.held .client with
    | .restart, some c => some { s.closeAt .client c with phase := .closeMaster }
    | _, _ => none
  | .closeMaster =>
    match s.phase, s.held .listener with
    | .closeMaster, some m =>
      some { s.put .listener none with table := s.table.close m.fd, phase := .openMaster }
    | _, _ => none
  | .openMaster ok =>
    if s.phase = .openMaster then some { s.openListener ok with phase := .listen } else none
  | .connect th task outcome =>
    if s.next th = none ∧ s.mayConnect th task = true then
      let (c, t) := clientInit s.table outcome
      some { (s.put (.worker th) (some c)).goOn th (some (task, .write)) with table := t }
    else none
  | .writeWorker th sent =>
    match s.next th with
    | some (task, .write) => some (s.goOn th (task.afterWrite sent))
    | _ => none
  | .readWorker th =>
    match s.next th with
    | some (task, .read) => some (s.goOn th task.afterRead)
    | _ => none
  | .closeWorker th =>
    match s.next th, s.held (.worker th) with
    | some (_, .close), some c => some ((s.closeAt (.worker th) c).goOn th none)
    | _, _ => none

/-- The connection that a step hands to `conn_read`, `conn_write` or `conn_close`. -/
def usedConn (s : ConnState) : ConnEvent → Option HeldConn
  | .readClient _ => s.held .client
  | .answerClient => s.held .client
  | .closeClient => s.held .client
  | .writeWorker th _ => s.held (.worker th)
  | .readWorker th => s.held (.worker th)
  | .closeWorker th => s.held (.worker th)
  | _ => none

/-- The descriptor that a step hands to `read`, `send` or `close` by one of these functions was
opened for that connection and is still open. -/
def UsesOwn (s : ConnState) (e : ConnEvent) : Prop := ∀ c ∈ usedConn s e, c.handle.Live s.table

/-- The `client_init` or `conn_listen` that has made the connection of a step did not fail. -/
def UsesMade (s : ConnState) (e : ConnEvent) : Prop := ∀ c ∈ usedConn s e, c.error = 0

/-! ### What the steps keep -/

/-- The descriptors in the variables. -/
def handles (held : Place → Option HeldConn) (p : Place) : Option Handle :=
  (held p).map HeldConn.handle

theorem handles_update (held : Place → Option HeldConn) (p : Place) (c : Option HeldConn) :
    handles (Function.update held p c) =
      Function.update (handles held) p (c.map HeldConn.handle) := by
  funext q
  by_cases hq : q = p
  · subst hq
    simp [handles]
  · simp [handles, hq]

/-- The variables hold open descriptors of their own, apart from connections that were not made
and from the result of a failed `socket`. -/
structure Owned (t : Table) (held : Place → Option HeldConn) : Prop where
  /-- What comes from an opening is open, and no two variables share an opening. -/
  apart : Apart t (handles held)
  /-- A connection that was made comes from an opening, and one that was not made does not. -/
  made_iff : ∀ p c, held p = some c → p ≠ .listener → (c.error = 0 ↔ c.opening ≠ none)
  /-- A `master_fd` that does not come from an opening is negative. -/
  listener : ∀ m, held .listener = some m → m.opening = none → m.fd < 0

namespace Owned

variable {t : Table} {held : Place → Option HeldConn} {p : Place} {c : HeldConn}

/-- A connection is alive exactly if it was made. -/
theorem live_iff (ho : Owned t held) (hc : held p = some c) (hp : p ≠ .listener) :
    c.handle.Live t ↔ c.error = 0 := by
  have hhandle : handles held p = some c.handle := by rw [handles, hc]; rfl
  rw [ho.apart.live_iff hhandle, ho.made_iff p c hc hp]
  rfl

/-- The facts about the flags after a change of one variable. -/
theorem update_facts (ho : Owned t held) {x : Option HeldConn}
    (hx : ∀ c ∈ x, (p ≠ .listener → (c.error = 0 ↔ c.opening ≠ none)) ∧
      (p = .listener → c.opening = none → c.fd < 0)) :
    (∀ q c, Function.update held p x q = some c → q ≠ .listener →
      (c.error = 0 ↔ c.opening ≠ none)) ∧
    ∀ m, Function.update held p x .listener = some m → m.opening = none → m.fd < 0 := by
  constructor
  · intro q c hq hne
    by_cases hqp : q = p
    · subst hqp
      rw [Function.update_self] at hq
      exact (hx c hq).1 hne
    · rw [Function.update_of_ne hqp] at hq
      exact ho.made_iff q c hq hne
  · intro m hm
    by_cases hp : .listener = p
    · subst hp
      rw [Function.update_self] at hm
      exact (hx m hm).2 rfl
    · rw [Function.update_of_ne hp] at hm
      exact ho.listener m hm

/-- A connection could not be made. -/
theorem fail (ho : Owned t held) (hp : p ≠ .listener) (message : CString) :
    Owned t (Function.update held p (some (.failed message))) := by
  obtain ⟨hmade, hlistener⟩ := ho.update_facts (p := p) (x := some (.failed message)) (by
    rintro c ⟨⟩
    exact ⟨fun _ => by simp [HeldConn.failed, errConn], fun h => absurd h hp⟩)
  refine ⟨?_, hmade, hlistener⟩
  rw [handles_update]
  refine ho.apart.set ?_
  rintro h ⟨⟩
  rfl

/-- A descriptor is opened into a variable. -/
theorem make (ho : Owned t held) (p : Place) (errorMsg : Option CString) :
    Owned t.opened (Function.update held p (some (.made t errorMsg))) := by
  obtain ⟨hmade, hlistener⟩ := ho.update_facts (p := p) (x := some (.made t errorMsg)) (by
    rintro c ⟨⟩
    exact ⟨fun _ => by simp [HeldConn.made], fun _ => by simp [HeldConn.made]⟩)
  refine ⟨?_, hmade, hlistener⟩
  rw [handles_update]
  exact ho.apart.acquire p

/-- A descriptor is opened and its number lost. -/
theorem leak (ho : Owned t held) : Owned t.opened held := ⟨ho.apart.leak, ho.made_iff, ho.listener⟩

/-- `client_init`. -/
theorem clientInit (ho : Owned t held) (hp : p ≠ .listener) (outcome : InitOutcome) :
    Owned (PekarDrive.clientInit t outcome).2
      (Function.update held p (some (PekarDrive.clientInit t outcome).1)) := by
  rw [table_clientInit]
  rcases conn_clientInit t outcome with ⟨hc, rfl⟩ | ⟨⟨message, hc⟩, -⟩
  · rw [hc]
    exact ho.make p _
  · rw [hc]
    split
    · exact ho.fail hp message
    · exact ho.leak.fail hp message

/-- `conn_close` of a connection that is alive. -/
theorem close (ho : Owned t held) (hp : p ≠ .listener) (hc : held p = some c)
    (hlive : c.handle.Live t) :
    Owned (connClose t c).2 (Function.update held p (some (connClose t c).1)) := by
  have hhandle : handles held p = some c.handle := by rw [handles, hc]; rfl
  obtain ⟨-, hmade, hlistener⟩ := ho.fail hp (lit "Connection closed.")
  refine ⟨?_, hmade, hlistener⟩
  rw [handles_update]
  refine ho.apart.close hhandle hlive ?_
  rintro h ⟨⟩
  rfl

/-- `close` of `master_fd`. -/
theorem closeListener (ho : Owned t held) (hm : held .listener = some c) :
    Owned (t.close c.fd) (Function.update held .listener none) := by
  have hhandle : handles held .listener = some c.handle := by rw [handles, hm]; rfl
  obtain ⟨hmade, hlistener⟩ := ho.update_facts (p := .listener) (x := none) (by simp)
  refine ⟨?_, hmade, hlistener⟩
  rw [handles_update]
  cases hopening : c.opening with
  | none =>
    have hneg := ho.listener c hm hopening
    obtain ⟨n, hn⟩ := Int.eq_negSucc_of_lt_zero hneg
    rw [hn]
    exact ho.apart.set (by simp)
  | some k => exact ho.apart.close hhandle ((ho.apart.live_iff hhandle).mpr (by
      simp [HeldConn.handle, hopening])) (by simp)

/-- `socket` for `master_fd`. -/
theorem openListener {s : ConnState} (ho : Owned s.table s.held) (ok : Bool) :
    Owned (s.openListener ok).table (s.openListener ok).held := by
  cases ok with
  | true => exact ho.make .listener none
  | false =>
    obtain ⟨hmade, hlistener⟩ := ho.update_facts (p := .listener) (x := some noSocket) (by
      rintro c ⟨⟩
      exact ⟨fun h => absurd rfl h, fun _ _ => by decide⟩)
    refine ⟨?_, hmade, hlistener⟩
    change Apart s.table (handles (Function.update s.held .listener (some noSocket)))
    rw [handles_update]
    refine ho.apart.set ?_
    rintro h ⟨⟩
    rfl

theorem start (t : Table) (ok : Bool) :
    Owned (ConnState.start t ok).table (ConnState.start t ok).held := by
  refine openListener (s := ⟨t, .listen, fun _ => none, fun _ => none⟩) ⟨⟨?_, ?_⟩, ?_, ?_⟩ ok
  · rintro p h k ⟨⟩
  · rintro p q h h' k - ⟨⟩
  · rintro p c ⟨⟩
  · rintro m ⟨⟩

variable {s s' : ConnState} {e : ConnEvent}

/-- A step that hands on connections that are alive keeps the variables owned. -/
theorem step (ho : Owned s.table s.held) (huse : UsesOwn s e) (hstep : connStep s e = some s') :
    Owned s'.table s'.held := by
  have hclient : Place.client ≠ .listener := by decide
  have hworker : ∀ th, Place.worker th ≠ .listener := fun th h => Place.noConfusion h
  cases e with
  | listenFails failure =>
    simp only [connStep] at hstep
    split at hstep
    · obtain rfl := Option.some.inj hstep
      exact ho.fail hclient failure.message
    · exact absurd hstep (by simp)
  | acceptFails =>
    simp only [connStep] at hstep
    split at hstep
    · obtain rfl := Option.some.inj hstep
      exact ho.fail hclient _
    · exact absurd hstep (by simp)
  | accept =>
    simp only [connStep] at hstep
    split at hstep
    · obtain rfl := Option.some.inj hstep
      exact ho.make .client none
    · exact absurd hstep (by simp)
  | closeClient =>
    simp only [connStep] at hstep
    split at hstep
    · rename_i c _ hc
      obtain rfl := Option.some.inj hstep
      exact ho.close hclient hc (huse c hc)
    · exact absurd hstep (by simp)
  | closeMaster =>
    simp only [connStep] at hstep
    split at hstep
    · rename_i m _ hm
      obtain rfl := Option.some.inj hstep
      exact ho.closeListener hm
    · exact absurd hstep (by simp)
  | openMaster ok =>
    simp only [connStep] at hstep
    split at hstep
    · obtain rfl := Option.some.inj hstep
      exact ho.openListener ok
    · exact absurd hstep (by simp)
  | connect th task outcome =>
    simp only [connStep] at hstep
    split at hstep
    · obtain rfl := Option.some.inj hstep
      exact ho.clientInit (hworker th) outcome
    · exact absurd hstep (by simp)
  | closeWorker th =>
    simp only [connStep] at hstep
    split at hstep
    · rename_i c _ hc
      obtain rfl := Option.some.inj hstep
      exact ho.close (hworker th) hc (huse c hc)
    · exact absurd hstep (by simp)
  | _ =>
    -- the remaining steps open and close nothing
    simp only [connStep] at hstep
    split at hstep
    · obtain rfl := Option.some.inj hstep
      exact ho
    · exact absurd hstep (by simp)

/-- A step hands on connections that are alive exactly if they were made. -/
theorem usesOwn_iff (ho : Owned s.table s.held) : UsesOwn s e ↔ UsesMade s e := by
  have hiff : ∀ p, p ≠ .listener → ((∀ c ∈ s.held p, c.handle.Live s.table) ↔
      ∀ c ∈ s.held p, c.error = 0) := fun p hp =>
    forall₂_congr fun c hc => ho.live_iff hc hp
  have hclient := hiff .client (by decide)
  have hworker := fun th => hiff (.worker th) fun h => Place.noConfusion h
  cases e with
  | readClient delivered => exact hclient
  | answerClient => exact hclient
  | closeClient => exact hclient
  | writeWorker th sent => exact hworker th
  | readWorker th => exact hworker th
  | closeWorker th => exact hworker th
  | _ => exact ⟨fun _ c hc => absurd hc (by simp [usedConn]), fun _ c hc =>
      absurd hc (by simp [usedConn])⟩

end Owned

/-- **Descriptors of their own.** In a run of the master, from any inherited descriptors, every
descriptor that `conn_read`, `conn_write` and `conn_close` get was opened for that very connection
and is still open if and only if none of them gets a connection whose `client_init` or
`conn_listen` has failed. -/
theorem forall_usesOwn_iff {t : Table} {ok : Bool} {trace : List (ConnState × ConnEvent)}
    {s : ConnState} (hr : Run connStep (ConnState.start t ok) trace s) :
    (∀ x ∈ trace, UsesOwn x.1 x.2) ↔ ∀ x ∈ trace, UsesMade x.1 x.2 :=
  hr.forall_trace_iff (I := fun s => Owned s.table s.held)
    (fun _ _ _ ho huse hstep => ho.step huse hstep) (fun _ _ _ ho _ => ho.usesOwn_iff)
    (Owned.start t ok)

/-! ### Small runs -/

/-- The master at its start: `master_fd` is 3. -/
def connStart : ConnState := .start standardTable true

/-- A client has connected and said nothing. -/
def acceptedOnce : ConnState :=
  { connStart.put .client (some (.made connStart.table none)) with
    table := connStart.table.opened
    phase := .restart }

/-- A client that connects is read from and closed. -/
theorem usesOwn_acceptedOnce : UsesOwn connStart .accept ∧
    UsesOwn { acceptedOnce with phase := .read } (.readClient false) ∧
    UsesOwn acceptedOnce .closeClient := by
  suffices hall : ∀ x ∈ [(connStart, ConnEvent.accept),
      ({ acceptedOnce with phase := .read }, .readClient false), (acceptedOnce, .closeClient)],
      UsesOwn x.1 x.2 by
    simp only [List.forall_mem_cons] at hall
    exact ⟨hall.1, hall.2.1, hall.2.2.1⟩
  refine (forall_usesOwn_iff (t := standardTable)
    (.step rfl (.step rfl (.step rfl (.done _))))).mpr ?_
  have hmade : ∀ c ∈ acceptedOnce.held .client, c.error = 0 := by
    rintro c ⟨⟩
    rfl
  simp only [List.forall_mem_cons]
  exact ⟨by rintro c ⟨⟩, hmade, hmade, by simp⟩

/-- The admin thread has tried to connect to a worker that cannot be reached. -/
def failedPing : ConnState :=
  { (connStart.put (.worker .admin) (some (.failed (lit "Connection failed.")))).goOn .admin
      (some (.ping, .write)) with
    table := connStart.table.opened }

/-- The ping of a worker that cannot be reached is sent to descriptor zero. -/
theorem not_forall_usesOwn : ¬ ∀ (t : Table) (ok : Bool) (trace : List (ConnState × ConnEvent))
    (s : ConnState), Run connStep (ConnState.start t ok) trace s →
      ∀ x ∈ trace, UsesOwn x.1 x.2 := by
  intro h
  have huse := h standardTable true [(connStart, .connect .admin .ping .connectFails),
    (failedPing, .writeWorker .admin true)] _ (.step rfl (.step rfl (.done _)))
    (failedPing, .writeWorker .admin true) (by simp)
  obtain ⟨k, hk, -⟩ := huse (.failed (lit "Connection failed.")) rfl
  exact absurd hk (by simp [HeldConn.failed, HeldConn.handle])

end PekarDrive
