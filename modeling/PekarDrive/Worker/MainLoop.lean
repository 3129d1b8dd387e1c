import PekarDrive.Master.MainLoop

/-!
# The main loop of a worker

`main` of `src/server/server.c`, built without `THREADING`, with `conn_listen` of `lib/comm.c`. The
loop calls `conn_listen` again on the socket on which it has accepted a connection. That call binds
the socket once more, which fails; the connection that could not be made, whose descriptor is zero,
is closed, the socket is closed and another one is made. So a socket accepts one connection at
most, and what the operating system has queued behind it is discarded.

## Main definitions

* `PekarDrive.ServerState`, `PekarDrive.ServerEvent`, `PekarDrive.serverStep`.
* `PekarDrive.ServerState.room`: whether the socket may accept.

## Main results

* `PekarDrive.serverEffect_serverStep`: what a step does.
* `PekarDrive.neverServed_of_queued`.
-/

namespace PekarDrive

open CText StepRuns

/-- Where `main` of a worker stands. -/
inductive ServerPhase
  /-- In `conn_listen`, before `listen`. -/
  | listen
  /-- In `accept`. -/
  | accept
  /-- In `handle_client`, which closes the connection in the end. -/
  | serve (client : Conn)
  /-- Before `conn_close`, when the connection could not be made. -/
  | closeClient (client : Conn)
  /-- Before `close`. -/
  | closeServer
  /-- Before `socket`. -/
  | openServer
  deriving DecidableEq

/-- The state of the loop and of its listening socket; `C` are the connections of the master. -/
structure ServerState (C : Type) where
  /-- `server_fd`. -/
  serverFd : Int32
  /-- The socket made for it. -/
  socket : MasterSocket C
  /-- The next statement. -/
  phase : ServerPhase
  /-- The number of calls of `socket` so far. -/
  made : ℕ
  /-- The connections that have been queued so far. -/
  arrived : List C
  /-- The connections that have been handed to `handle_client` so far. -/
  handed : List C

/-- A step of `main`, or of the other side. -/
inductive ServerEvent (C : Type)
  /-- The other side connects. -/
  | connect (c : C)
  /-- `conn_listen` fails before it accepts. -/
  | listenFails (failure : ListenFailure)
  /-- `conn_listen` binds the socket and listens. -/
  | listen
  /-- `accept` returns a connection. -/
  | accept (fd : Int32)
  /-- `accept` fails. -/
  | acceptFails
  /-- `handle_client` closes the connection and returns. -/
  | handled
  /-- `conn_close`, when the connection could not be made. -/
  | closeClient
  /-- `close`. -/
  | closeServer
  /-- `socket`. -/
  | openServer (fd : Int32)

namespace ServerState

variable {C : Type}

/-- The connections queued on the listening socket. -/
def queue (s : ServerState C) : List C :=
  match s.socket with
  | .listening queue => queue
  | _ => []

/-- Closing a descriptor. -/
def closeFd (s : ServerState C) (fd : Int32) : ServerState C :=
  { s with socket := if fd = s.serverFd then .closed else s.socket }

/-- The loop with its first socket. -/
def start (fd : Int32) : ServerState C := ⟨fd, .opened fd, .listen, 1, [], []⟩

/-- The number of connections that the socket may still accept: none once it has accepted one, as
it cannot be bound again. -/
def room (s : ServerState C) : ℕ :=
  match s.socket, s.phase with
  | .unbound, _ => 1
  | .listening _, .accept => 1
  | _, _ => 0

end ServerState

section Step

variable {C : Type} [DecidableEq C]

/-- A step, if it can happen. A socket that has been bound is not bound again. -/
def serverStep (s : ServerState C) : ServerEvent C → Option (ServerState C)
  | .connect c =>
    if c ∈ s.arrived then none
    else
      match s.socket with
      | .listening queue =>
        -- a full queue refuses the connection
        if queue.length < backlog then
          some { s with socket := .listening (queue ++ [c]), arrived := s.arrived ++ [c] }
        else some s
      | _ => some s
  | .listenFails failure =>
    match s.phase with
    | .listen => some { s with phase := .closeClient (errConn failure.message) }
    | _ => none
  | .listen =>
    match s.phase, s.socket with
    | .listen, .unbound => some { s with phase := .accept, socket := .listening [] }
    | _, _ => none
  | .accept fd =>
    match s.phase, s.socket with
    | .accept, .listening (c :: queue) =>
      if 0 ≤ fd ∧ fd ≠ s.serverFd then
        some { s with
          socket := .listening queue
          phase := .serve ⟨0, none, fd, 0⟩
          handed := s.handed ++ [c] }
      else none
    | _, _ => none
  | .acceptFails =>
    match s.phase with
    | .accept => some { s with phase := .closeClient (errConn (lit "Failed accepting client.")) }
    | _ => none
  | .handled =>
    match s.phase with
    | .serve client => some { s.closeFd client.fd with phase := .listen }
    | _ => none
  | .closeClient =>
    match s.phase with
    | .closeClient client => some { s.closeFd client.fd with phase := .closeServer }
    | _ => none
  | .closeServer =>
    match s.phase with
    | .closeServer => some { s.closeFd s.serverFd with phase := .openServer }
    | _ => none
  | .openServer fd =>
    match s.phase with
    | .openServer => some { s with
        serverFd := fd, socket := .opened fd, phase := .listen, made := s.made + 1 }
    | _ => none

end Step

/-! ### What a step does -/

section Effect

variable {C : Type}

/-- The effects of a step. -/
inductive ServerEffect (s s' : ServerState C) : Prop
  | kept (hqueue : s'.queue = s.queue ∨ s'.queue = []) (hroom : s'.room ≤ s.room)
      (hmade : s'.made = s.made) (harrived : s'.arrived = s.arrived)
      (hhanded : s'.handed = s.handed) : ServerEffect s s'
  | queued (c : C) (hc : c ∉ s.arrived) (hqueue : s'.queue = s.queue ++ [c])
      (hroom : s'.room = s.room) (hmade : s'.made = s.made)
      (harrived : s'.arrived = s.arrived ++ [c]) (hhanded : s'.handed = s.handed) :
      ServerEffect s s'
  | accepted (c : C) (hqueue : s.queue = c :: s'.queue) (hroom : s.room = s'.room + 1)
      (hmade : s'.made = s.made) (harrived : s'.arrived = s.arrived)
      (hhanded : s'.handed = s.handed ++ [c]) : ServerEffect s s'
  | opened (hqueue : s'.queue = []) (hroom : s'.room ≤ 1) (hmade : s'.made = s.made + 1)
      (harrived : s'.arrived = s.arrived) (hhanded : s'.handed = s.handed) : ServerEffect s s'

theorem room_le_one (s : ServerState C) : s.room ≤ 1 := by
  unfold ServerState.room
  split
  · exact le_rfl
  · exact le_rfl
  · exact Nat.zero_le 1

/-- Outside `accept` the socket has no more room than before. -/
theorem room_le_of_socket_eq {s s' : ServerState C} (hsocket : s'.socket = s.socket)
    (hphase : s'.phase ≠ .accept) : s'.room ≤ s.room := by
  unfold ServerState.room
  rw [hsocket]
  cases s.socket with
  | closed => exact Nat.zero_le _
  | unbound => exact le_rfl
  | listening queue =>
    cases hs : s'.phase with
    | accept => exact absurd hs hphase
    | _ => exact Nat.zero_le _

theorem serverEffect_of_socket_eq {s s' : ServerState C} (hsocket : s'.socket = s.socket)
    (hphase : s'.phase ≠ .accept) (hmade : s'.made = s.made) (harrived : s'.arrived = s.arrived)
    (hhanded : s'.handed = s.handed) : ServerEffect s s' :=
  .kept (.inl (by rw [ServerState.queue, hsocket]; rfl)) (room_le_of_socket_eq hsocket hphase)
    hmade harrived hhanded

/-- Closing a descriptor. -/
theorem serverEffect_closeFd {s s' : ServerState C} (fd : Int32)
    (hsocket : s'.socket = (s.closeFd fd).socket) (hphase : s'.phase ≠ .accept)
    (hmade : s'.made = s.made) (harrived : s'.arrived = s.arrived)
    (hhanded : s'.handed = s.handed) : ServerEffect s s' := by
  by_cases hfd : fd = s.serverFd
  · rw [ServerState.closeFd, if_pos hfd] at hsocket
    refine .kept (.inr (by rw [ServerState.queue, hsocket])) ?_ hmade harrived hhanded
    rw [ServerState.room, hsocket]
    exact Nat.zero_le _
  · rw [ServerState.closeFd, if_neg hfd] at hsocket
    exact serverEffect_of_socket_eq hsocket hphase hmade harrived hhanded

variable [DecidableEq C] {s s' : ServerState C} {e : ServerEvent C}

theorem serverEffect_connect {c : C} (hstep : serverStep s (.connect c) = some s') :
    ServerEffect s s' := by
  simp only [serverStep] at hstep
  by_cases hc : c ∈ s.arrived
  · rw [if_pos hc] at hstep
    exact absurd hstep (by simp)
  · rw [if_neg hc] at hstep
    split at hstep
    · rename_i queue hsocket
      by_cases hroom : queue.length < backlog
      · rw [if_pos hroom] at hstep
        obtain rfl := Option.some.inj hstep
        refine .queued c hc (by simp [ServerState.queue, hsocket]) ?_ rfl rfl rfl
        simp only [ServerState.room, hsocket]
        cases s.phase <;> rfl
      · rw [if_neg hroom] at hstep
        obtain rfl := Option.some.inj hstep
        exact .kept (.inl rfl) le_rfl rfl rfl rfl
    · obtain rfl := Option.some.inj hstep
      exact .kept (.inl rfl) le_rfl rfl rfl rfl

/-- **One step.** -/
theorem serverEffect_serverStep (hstep : serverStep s e = some s') : ServerEffect s s' := by
  cases e with
  | connect c => exact serverEffect_connect hstep
  | listen =>
    simp only [serverStep] at hstep
    split at hstep
    · rename_i hsocket
      obtain rfl := Option.some.inj hstep
      refine .kept (.inr rfl) ?_ rfl rfl rfl
      rw [ServerState.room, ServerState.room, hsocket]
    · exact absurd hstep (by simp)
  | accept fd =>
    simp only [serverStep] at hstep
    split at hstep
    · rename_i c queue hphase hsocket
      split_ifs at hstep
      obtain rfl := Option.some.inj hstep
      refine .accepted c (by rw [ServerState.queue, hsocket]; rfl) ?_ rfl rfl rfl
      rw [ServerState.room, hsocket, hphase]
      rfl
    · exact absurd hstep (by simp)
  | handled =>
    simp only [serverStep] at hstep
    split at hstep
    · rename_i client hphase
      obtain rfl := Option.some.inj hstep
      exact serverEffect_closeFd client.fd rfl (by simp) rfl rfl rfl
    · exact absurd hstep (by simp)
  | closeClient =>
    simp only [serverStep] at hstep
    split at hstep
    · rename_i client hphase
      obtain rfl := Option.some.inj hstep
      exact serverEffect_closeFd client.fd rfl (by simp) rfl rfl rfl
    · exact absurd hstep (by simp)
  | closeServer =>
    simp only [serverStep] at hstep
    split at hstep
    · obtain rfl := Option.some.inj hstep
      exact serverEffect_closeFd s.serverFd rfl (by simp) rfl rfl rfl
    · exact absurd hstep (by simp)
  | openServer fd =>
    simp only [serverStep] at hstep
    split at hstep
    · obtain rfl := Option.some.inj hstep
      refine .opened ?_ (room_le_one _) rfl rfl rfl
      simp only [ServerState.queue, MasterSocket.opened]
      split_ifs <;> rfl
    · exact absurd hstep (by simp)
  | _ =>
    -- the two failures change the phase only
    simp only [serverStep] at hstep
    split at hstep
    · obtain rfl := Option.some.inj hstep
      exact serverEffect_of_socket_eq rfl (by simp) rfl rfl rfl
    · exact absurd hstep (by simp)

end Effect

/-! ### Runs -/

section Runs

variable {C : Type}

/-- What holds in every state of a run. -/
structure Orderly (s : ServerState C) : Prop where
  /-- No connection arrives twice. -/
  nodup : s.arrived.Nodup
  /-- Those handed on and those in the queue have arrived in this order. -/
  sublist : (s.handed ++ s.queue).Sublist s.arrived
  /-- A socket accepts one connection at most. -/
  handed_le : s.handed.length + s.room ≤ s.made

theorem orderly_start (fd : Int32) : Orderly (ServerState.start fd : ServerState C) := by
  have hqueue : (ServerState.start fd : ServerState C).queue = [] := by
    simp only [ServerState.queue, ServerState.start, MasterSocket.opened]
    split_ifs <;> rfl
  refine ⟨List.nodup_nil, ?_, ?_⟩
  · rw [hqueue]
    exact List.Sublist.refl _
  · have hroom := room_le_one (ServerState.start fd : ServerState C)
    exact (Nat.zero_add _).trans_le hroom

/-- The connection is not handed on, and is not queued where there is room. -/
structure Doomed (c : C) (s : ServerState C) : Prop where
  /-- It has arrived. -/
  arrived : c ∈ s.arrived
  /-- It has not been handed on. -/
  not_handed : c ∉ s.handed
  /-- Where it is queued there is no room. -/
  room_eq : c ∈ s.queue → s.room = 0

/-- A connection in the queue has arrived, and has not been handed on. -/
theorem Orderly.of_mem_queue {s : ServerState C} (hs : Orderly s) {c : C} (hc : c ∈ s.queue) :
    c ∈ s.arrived ∧ c ∉ s.handed := by
  have hnodup := hs.sublist.nodup hs.nodup
  refine ⟨hs.sublist.subset (List.mem_append_right _ hc), fun hhanded => ?_⟩
  exact (List.nodup_append.mp hnodup).2.2 c hhanded c hc rfl

/-- A socket with a connection in its queue is listening. -/
theorem room_eq_zero_of_mem_queue {s : ServerState C} {c : C} (hc : c ∈ s.queue)
    (hphase : s.phase ≠ .accept) : s.room = 0 := by
  unfold ServerState.queue at hc
  unfold ServerState.room
  cases hsocket : s.socket with
  | closed => rfl
  | unbound =>
    rw [hsocket] at hc
    exact absurd hc List.not_mem_nil
  | listening queue =>
    cases hs : s.phase with
    | accept => exact absurd hs hphase
    | _ => rfl

variable [DecidableEq C] {s s' : ServerState C} {e : ServerEvent C}

theorem orderly_serverStep (hs : Orderly s) (hstep : serverStep s e = some s') : Orderly s' := by
  obtain ⟨hnodup, hsublist, hle⟩ := hs
  cases serverEffect_serverStep hstep with
  | kept hqueue hroom hmade harrived hhanded =>
    refine ⟨harrived ▸ hnodup, ?_, ?_⟩
    · rw [harrived, hhanded]
      rcases hqueue with hqueue | hqueue
      · rwa [hqueue]
      · rw [hqueue, List.append_nil]
        exact (List.sublist_append_left _ _).trans hsublist
    · rw [hhanded, hmade]
      omega
  | queued c hc hqueue hroom hmade harrived hhanded =>
    refine ⟨?_, ?_, ?_⟩
    · rw [harrived, ← List.concat_eq_append]
      exact hnodup.concat hc
    · rw [harrived, hhanded, hqueue, ← List.append_assoc]
      exact hsublist.append (List.Sublist.refl _)
    · rw [hhanded, hmade, hroom]
      exact hle
  | accepted c hqueue hroom hmade harrived hhanded =>
    refine ⟨harrived ▸ hnodup, ?_, ?_⟩
    · rw [harrived, hhanded, List.append_assoc, List.singleton_append, ← hqueue]
      exact hsublist
    · rw [hhanded, hmade, List.length_append, List.length_singleton]
      omega
  | opened hqueue hroom hmade harrived hhanded =>
    refine ⟨harrived ▸ hnodup, ?_, ?_⟩
    · rw [harrived, hhanded, hqueue, List.append_nil]
      exact (List.sublist_append_left _ _).trans hsublist
    · rw [hhanded, hmade]
      omega

theorem doomed_serverStep {c : C} (hs : Doomed c s) (hstep : serverStep s e = some s') :
    Doomed c s' := by
  obtain ⟨hmem, hnot, hnoroom⟩ := hs
  cases serverEffect_serverStep hstep with
  | kept hqueue hroom hmade harrived hhanded =>
    refine ⟨harrived ▸ hmem, hhanded ▸ hnot, fun hc => ?_⟩
    rcases hqueue with hqueue | hqueue
    · have hzero := hnoroom (hqueue ▸ hc)
      omega
    · rw [hqueue] at hc
      exact absurd hc List.not_mem_nil
  | queued c' hc' hqueue hroom hmade harrived hhanded =>
    refine ⟨harrived ▸ List.mem_append_left _ hmem, hhanded ▸ hnot, fun hc => ?_⟩
    rw [hqueue, List.mem_append, List.mem_singleton] at hc
    rcases hc with hc | rfl
    · rw [hroom]
      exact hnoroom hc
    · exact absurd hmem hc'
  | accepted c' hqueue hroom hmade harrived hhanded =>
    -- the socket had room, so the connection was not in its queue
    have hout : c ∉ s.queue := fun hc => by
      have hzero := hnoroom hc
      omega
    rw [hqueue, List.mem_cons, not_or] at hout
    refine ⟨harrived ▸ hmem, ?_, fun hc => absurd hc hout.2⟩
    rw [hhanded, List.mem_append, List.mem_singleton, not_or]
    exact ⟨hnot, hout.1⟩
  | opened hqueue hroom hmade harrived hhanded =>
    refine ⟨harrived ▸ hmem, hhanded ▸ hnot, fun hc => ?_⟩
    rw [hqueue] at hc
    exact absurd hc List.not_mem_nil

/-- **The queue of a worker.** In every run, with connections arriving at any time, those handed on
are handed on in the order of their arrival, and no more of them than sockets have been made. What
is in the queue when the loop is not in `accept` is never handed on. -/
theorem neverServed_of_queued {fd : Int32} {trace trace' : List (ServerState C × ServerEvent C)}
    (hr : Run serverStep (.start fd) trace s) (hr' : Run serverStep s trace' s') :
    s.handed.Sublist s.arrived ∧ s.handed.length ≤ s.made ∧
      (s.phase ≠ .accept → ∀ c ∈ s.queue, c ∉ s'.handed) := by
  have horderly : Orderly s :=
    hr.forall_visited (H := fun _ => True)
      (fun _ _ _ hs _ hstep => orderly_serverStep hs hstep) (orderly_start fd)
      (fun _ _ => trivial) s (mem_visited_last trace s)
  refine ⟨(List.sublist_append_left _ _).trans horderly.sublist,
    le_trans (Nat.le_add_right _ _) horderly.handed_le, fun hphase c hc => ?_⟩
  obtain ⟨harrived, hnot⟩ := horderly.of_mem_queue hc
  have hdoomed : Doomed c s := ⟨harrived, hnot, fun _ => room_eq_zero_of_mem_queue hc hphase⟩
  exact (hr'.forall_visited (H := fun _ => True)
    (fun _ _ _ hs _ hstep => doomed_serverStep hs hstep) hdoomed (fun _ _ => trivial) s'
    (mem_visited_last trace' s')).not_handed

/-- The second connection arrives while the first one waits, and is dropped with the socket. -/
theorem neverServed_second : ∃ (trace trace' : List (ServerState ℕ × ServerEvent ℕ)) (s s' : _),
    Run serverStep (.start 3) trace s ∧ Run serverStep s trace' s' ∧ s.queue = [2] ∧
      s'.handed = [1, 3] ∧ 2 ∉ s'.handed := by
  have hr : Run serverStep (.start 3 : ServerState ℕ) _ _ :=
    .step (e := .listen) rfl <| .step (e := .connect 1) rfl <| .step (e := .connect 2) rfl <|
    .step (e := .accept 4) rfl <| .step (e := .handled) rfl <| .done _
  have hr' : Run serverStep (⟨3, .listening [2], .listen, 1, [1, 2], [1]⟩ : ServerState ℕ) _ _ :=
    .step (e := .listenFails .bind) rfl <| .step (e := .closeClient) rfl <|
    .step (e := .closeServer) rfl <| .step (e := .openServer 0) rfl <|
    .step (e := .listen) rfl <| .step (e := .connect 3) rfl <| .step (e := .accept 4) rfl <| .done _
  exact ⟨_, _, _, _, hr, hr', rfl, rfl,
    (neverServed_of_queued hr hr').2.2 (by simp) 2 (List.mem_singleton_self 2)⟩

end Runs

end PekarDrive
