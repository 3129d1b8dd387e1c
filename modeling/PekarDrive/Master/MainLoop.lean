import PekarDrive.Foundation.Runs
import PekarDrive.Packet.Comm
import Mathlib.Data.List.Nodup

/-!
# The main loop of the master

`main` and `server_restart` of `src/master.c`, with `conn_listen` of `lib/comm.c`. The master makes
a socket, listens on it, accepts one client, serves it, closes both sockets and makes a new one.
From `listen` on, the operating system queues connections on the listening socket, also while a
client is served; closing the socket discards them.

A connection that could not be made is the value of `ERR_CONN`, whose descriptor is zero, and it
is closed like any other: by `server_restart` after a failure to listen or accept, and by
`worker_write` and `worker_delete` when the worker cannot be reached. When the listening socket has
descriptor zero, this closes it.

## Main definitions

* `PekarDrive.MainState`, `PekarDrive.MainEvent`, `PekarDrive.mainStep`.
* `PekarDrive.NoneLost`: every connection that was queued is still queued, or has been handed to
  `handle_client`.
* `PekarDrive.Spares`: a step closes the listening socket only with an empty queue.

## Main results

* `PekarDrive.effect_mainStep`: what a step does to the queue.
* `PekarDrive.forall_noneLost_iff`.
-/

namespace PekarDrive

open CText StepRuns

/-- The ways in which `conn_listen` fails before it accepts. -/
inductive ListenFailure
  | setsockopt | bind | listen
  deriving DecidableEq

/-- The message of a failure. -/
def ListenFailure.message : ListenFailure → CString
  | setsockopt => lit "Failed setting socket option."
  | bind => lit "Failed binding."
  | listen => lit "Failed listening."

/-- The second argument of `listen`: the number of connections that can be queued. -/
def backlog : ℕ := 10

/-- The socket that `main` has made last. -/
inductive MasterSocket (C : Type)
  | closed
  | unbound
  | listening (queue : List C)

/-- The result of `socket`: an unbound socket, or none when the call fails. -/
def MasterSocket.opened {C : Type} (fd : Int32) : MasterSocket C :=
  if fd < 0 then .closed else .unbound

/-- Where `main` stands. -/
inductive Phase
  /-- In `conn_listen`, before `listen`. -/
  | listen
  /-- In `accept`. -/
  | accept
  /-- In `handle_client`. -/
  | serve (client : Conn)
  /-- In `server_restart`, before `conn_close`. -/
  | restart (client : Conn)
  /-- In `server_restart`, before `close`. -/
  | closeMaster
  /-- In `server_restart`, before `socket`. -/
  | openMaster
  deriving DecidableEq

/-- The state of the main loop and of its listening socket; `C` are the connections of clients. -/
structure MainState (C : Type) where
  /-- `master_fd`. -/
  masterFd : Int32
  /-- The socket made for it. -/
  socket : MasterSocket C
  /-- The next statement. -/
  phase : Phase
  /-- The connections that have been queued so far. -/
  arrived : List C
  /-- The connections that have been handed to `handle_client` so far. -/
  handed : List C

/-- A step of `main`, or of a client. -/
inductive MainEvent (C : Type)
  /-- A client connects. -/
  | connect (c : C)
  /-- `conn_listen` fails before it accepts. -/
  | listenFails (failure : ListenFailure)
  /-- `conn_listen` binds the socket and listens. -/
  | listen
  /-- `accept` returns a connection. -/
  | accept (fd : Int32)
  /-- `accept` fails. -/
  | acceptFails
  /-- `handle_client` closes a connection to a worker that could not be made. -/
  | closeErrored
  /-- `handle_client` returns. -/
  | handled
  /-- `conn_close` in `server_restart`. -/
  | closeClient
  /-- `close` in `server_restart`. -/
  | closeMaster
  /-- `socket` in `server_restart`. -/
  | openMaster (fd : Int32)

section Step

variable {C : Type} [DecidableEq C]

namespace MainState

/-- The connections queued on the listening socket. -/
def queue (s : MainState C) : List C :=
  match s.socket with
  | .listening queue => queue
  | _ => []

/-- Closing a descriptor. -/
def closeFd (s : MainState C) (fd : Int32) : MainState C :=
  { s with socket := if fd = s.masterFd then .closed else s.socket }

/-- The start of `main`. -/
def start (fd : Int32) : MainState C := ⟨fd, .opened fd, .listen, [], []⟩

end MainState

/-- A step, if it can happen. -/
def mainStep (s : MainState C) : MainEvent C → Option (MainState C)
  | .connect c =>
    if c ∈ s.arrived then none
    else
      match s.socket with
      | .listening queue =>
        -- a full queue refuses the connection
        if queue.length < backlog then
          some { s with socket := .listening (queue ++ [c]), arrived := s.arrived ++ [c] }
        else some s
      | _ => some s
  | .listenFails failure =>
    match s.phase with
    | .listen => some { s with phase := .restart (errConn failure.message) }
    | _ => none
  | .listen =>
    match s.phase, s.socket with
    | .listen, .unbound => some { s with phase := .accept, socket := .listening [] }
    | _, _ => none
  | .accept fd =>
    match s.phase, s.socket with
    | .accept, .listening (c :: queue) =>
      if 0 ≤ fd ∧ fd ≠ s.masterFd then
        some { s with
          socket := .listening queue
          phase := .serve ⟨0, none, fd, 0⟩
          handed := s.handed ++ [c] }
      else none
    | _, _ => none
  | .acceptFails =>
    match s.phase with
    | .accept => some { s with phase := .restart (errConn (lit "Failed accepting client.")) }
    | _ => none
  | .closeErrored =>
    match s.phase with
    | .serve _ => some (s.closeFd 0)
    | _ => none
  | .handled =>
    match s.phase with
    | .serve client => some { s with phase := .restart client }
    | _ => none
  | .closeClient =>
    match s.phase with
    | .restart client => some { s.closeFd client.fd with phase := .closeMaster }
    | _ => none
  | .closeMaster =>
    match s.phase with
    | .closeMaster => some { s.closeFd s.masterFd with phase := .openMaster }
    | _ => none
  | .openMaster fd =>
    match s.phase with
    | .openMaster => some { s with masterFd := fd, socket := .opened fd, phase := .listen }
    | _ => none

end Step

/-! ### What a step does to the queue -/

section Effect

variable {C : Type}

/-- The descriptor that a step closes. -/
def closedFd (s : MainState C) : MainEvent C → Option Int32
  | .closeErrored => some 0
  | .closeClient =>
    match s.phase with
    | .restart client => some client.fd
    | _ => none
  | .closeMaster => some s.masterFd
  | _ => none

/-- The effects of a step on the queue; the flag says that the listening socket is closed. -/
inductive Effect (s s' : MainState C) : Bool → Prop
  | kept (hqueue : s'.queue = s.queue) (harrived : s'.arrived = s.arrived)
      (hhanded : s'.handed = s.handed) : Effect s s' false
  | queued (c : C) (hc : c ∉ s.arrived) (hqueue : s'.queue = s.queue ++ [c])
      (harrived : s'.arrived = s.arrived ++ [c]) (hhanded : s'.handed = s.handed) :
      Effect s s' false
  | accepted (c : C) (hqueue : s.queue = c :: s'.queue) (harrived : s'.arrived = s.arrived)
      (hhanded : s'.handed = s.handed ++ [c]) : Effect s s' false
  | discarded (hqueue : s'.queue = []) (harrived : s'.arrived = s.arrived)
      (hhanded : s'.handed = s.handed) : Effect s s' true

/-- What holds in every state of a run. -/
structure Sound (s : MainState C) : Prop where
  /-- No connection is queued twice. -/
  nodup : s.queue.Nodup
  /-- A connection in the queue has been queued. -/
  arrived_of_queue : ∀ c ∈ s.queue, c ∈ s.arrived
  /-- A connection in the queue has not been handed on. -/
  not_handed : ∀ c ∈ s.queue, c ∉ s.handed
  /-- A connection that was handed on has been queued before. -/
  arrived_of_handed : ∀ c ∈ s.handed, c ∈ s.arrived
  /-- Before the call of `socket` the old socket is closed. -/
  closed : s.phase = .openMaster → s.socket = .closed

theorem sound_start (fd : Int32) : Sound (MainState.start fd : MainState C) := by
  have hqueue : (MainState.start fd : MainState C).queue = [] := by
    simp only [MainState.queue, MainState.start, MasterSocket.opened]
    by_cases hfd : fd < 0
    · rw [if_pos hfd]
    · rw [if_neg hfd]
  refine ⟨by simp [hqueue], by simp [hqueue], by simp [hqueue], ?_, ?_⟩
  · exact fun c hc => absurd hc List.not_mem_nil
  · exact fun hphase => absurd hphase (by simp [MainState.start])

/-- Closing a descriptor empties the queue if it is the one of the listening socket. -/
theorem effect_closeFd (s : MainState C) {s' : MainState C} (fd : Int32)
    (hsocket : s'.socket = (s.closeFd fd).socket) (harrived : s'.arrived = s.arrived)
    (hhanded : s'.handed = s.handed) : Effect s s' (decide (fd = s.masterFd)) := by
  simp only [MainState.closeFd] at hsocket
  by_cases hfd : fd = s.masterFd
  · rw [if_pos hfd] at hsocket
    rw [decide_eq_true hfd]
    exact .discarded (by rw [MainState.queue, hsocket]) harrived hhanded
  · rw [if_neg hfd] at hsocket
    rw [decide_eq_false hfd]
    exact .kept (by rw [MainState.queue, hsocket]; rfl) harrived hhanded

variable [DecidableEq C] {s s' : MainState C} {e : MainEvent C}

/-- A connection is queued, or refused without a trace. -/
theorem effect_connect {c : C} (hs : Sound s) (hstep : mainStep s (.connect c) = some s') :
    Effect s s' false ∧ (s'.phase = .openMaster → s'.socket = .closed) := by
  simp only [mainStep] at hstep
  by_cases hc : c ∈ s.arrived
  · rw [if_pos hc] at hstep
    exact absurd hstep (by simp)
  · rw [if_neg hc] at hstep
    split at hstep
    · rename_i queue hsocket
      by_cases hroom : queue.length < backlog
      · rw [if_pos hroom] at hstep
        obtain rfl := Option.some.inj hstep
        refine ⟨.queued c hc (by simp [MainState.queue, hsocket]) rfl rfl, fun hphase => ?_⟩
        exact absurd (hsocket.symm.trans (hs.closed hphase)) (by simp)
      · rw [if_neg hroom] at hstep
        obtain rfl := Option.some.inj hstep
        exact ⟨.kept rfl rfl rfl, hs.closed⟩
    · obtain rfl := Option.some.inj hstep
      exact ⟨.kept rfl rfl rfl, hs.closed⟩

/-- **A step and the queue.** Besides, the old socket is closed before the call of `socket`. -/
theorem effect_mainStep (hs : Sound s) (hstep : mainStep s e = some s') :
    Effect s s' (decide (closedFd s e = some s.masterFd)) ∧
      (s'.phase = .openMaster → s'.socket = .closed) := by
  cases e with
  | connect c => exact effect_connect hs hstep
  | listen =>
    simp only [mainStep] at hstep
    split at hstep
    · rename_i hsocket
      obtain rfl := Option.some.inj hstep
      exact ⟨.kept (by simp [MainState.queue, hsocket]) rfl rfl,
        fun hphase => absurd hphase (by simp)⟩
    · exact absurd hstep (by simp)
  | accept fd =>
    simp only [mainStep] at hstep
    split at hstep
    · rename_i c queue _ hsocket
      by_cases hfd : 0 ≤ fd ∧ fd ≠ s.masterFd
      · rw [if_pos hfd] at hstep
        obtain rfl := Option.some.inj hstep
        exact ⟨.accepted c (by simp [MainState.queue, hsocket]) rfl rfl,
          fun hphase => absurd hphase (by simp)⟩
      · rw [if_neg hfd] at hstep
        exact absurd hstep (by simp)
    · exact absurd hstep (by simp)
  | closeErrored =>
    simp only [mainStep] at hstep
    split at hstep
    · rename_i client hphase
      obtain rfl := Option.some.inj hstep
      have hflag : decide (closedFd s .closeErrored = some s.masterFd) =
          decide (0 = s.masterFd) := by
        simp only [closedFd, Option.some.injEq]
      rw [hflag]
      exact ⟨effect_closeFd s 0 rfl rfl rfl,
        fun hphase' => absurd (hphase.symm.trans hphase') (by simp)⟩
    · exact absurd hstep (by simp)
  | closeClient =>
    simp only [mainStep] at hstep
    split at hstep
    · rename_i client hphase
      obtain rfl := Option.some.inj hstep
      have hflag : decide (closedFd s .closeClient = some s.masterFd) =
          decide (client.fd = s.masterFd) := by
        simp only [closedFd, hphase, Option.some.injEq]
      rw [hflag]
      exact ⟨effect_closeFd s client.fd rfl rfl rfl, fun hphase' => absurd hphase' (by simp)⟩
    · exact absurd hstep (by simp)
  | closeMaster =>
    simp only [mainStep] at hstep
    split at hstep
    · obtain rfl := Option.some.inj hstep
      have hflag : decide (closedFd s .closeMaster = some s.masterFd) =
          decide (s.masterFd = s.masterFd) := by
        simp only [closedFd]
      rw [hflag]
      exact ⟨effect_closeFd s s.masterFd rfl rfl rfl, fun _ => if_pos rfl⟩
    · exact absurd hstep (by simp)
  | openMaster fd =>
    simp only [mainStep] at hstep
    split at hstep
    · rename_i hphase
      obtain rfl := Option.some.inj hstep
      refine ⟨.kept ?_ rfl rfl, fun hphase' => absurd hphase' (by simp)⟩
      simp only [MainState.queue, hs.closed hphase, MasterSocket.opened]
      by_cases hfd : fd < 0
      · rw [if_pos hfd]
      · rw [if_neg hfd]
    · exact absurd hstep (by simp)
  | _ =>
    -- the remaining steps change the phase only
    simp only [mainStep] at hstep
    split at hstep
    · obtain rfl := Option.some.inj hstep
      exact ⟨.kept rfl rfl rfl, fun hphase => absurd hphase (by simp)⟩
    · exact absurd hstep (by simp)

theorem sound_mainStep (hs : Sound s) (hstep : mainStep s e = some s') : Sound s' := by
  obtain ⟨heffect, hclosed⟩ := effect_mainStep hs hstep
  generalize decide (closedFd s e = some s.masterFd) = flag at heffect
  cases heffect with
  | kept hqueue harrived hhanded =>
    refine ⟨?_, ?_, ?_, ?_, hclosed⟩
    · rw [hqueue]
      exact hs.nodup
    · rw [hqueue, harrived]
      exact hs.arrived_of_queue
    · rw [hqueue, hhanded]
      exact hs.not_handed
    · rw [harrived, hhanded]
      exact hs.arrived_of_handed
  | queued c hc hqueue harrived hhanded =>
    have hnew : c ∉ s.queue := fun hmem => hc (hs.arrived_of_queue c hmem)
    refine ⟨?_, ?_, ?_, ?_, hclosed⟩
    · rw [hqueue]
      exact List.nodup_append.mpr ⟨hs.nodup, List.nodup_singleton c, by
        rintro a ha b hb rfl
        exact hnew (List.mem_singleton.mp hb ▸ ha)⟩
    · intro a ha
      rw [hqueue, List.mem_append] at ha
      rw [harrived, List.mem_append]
      exact ha.imp_left (hs.arrived_of_queue a)
    · intro a ha hhand
      rw [hqueue, List.mem_append] at ha
      rw [hhanded] at hhand
      rcases ha with ha | ha
      · exact hs.not_handed a ha hhand
      · exact hc (List.mem_singleton.mp ha ▸ hs.arrived_of_handed a hhand)
    · intro a ha
      rw [harrived, List.mem_append]
      rw [hhanded] at ha
      exact .inl (hs.arrived_of_handed a ha)
  | accepted c hqueue harrived hhanded =>
    have hnodup := hs.nodup
    rw [hqueue, List.nodup_cons] at hnodup
    have hmem : ∀ a ∈ s'.queue, a ∈ s.queue := fun a ha => by
      rw [hqueue]
      exact List.mem_cons_of_mem c ha
    refine ⟨hnodup.2, ?_, ?_, ?_, hclosed⟩
    · intro a ha
      rw [harrived]
      exact hs.arrived_of_queue a (hmem a ha)
    · intro a ha hhand
      rw [hhanded, List.mem_append] at hhand
      rcases hhand with hhand | hhand
      · exact hs.not_handed a (hmem a ha) hhand
      · exact hnodup.1 (List.mem_singleton.mp hhand ▸ ha)
    · intro a ha
      rw [hhanded, List.mem_append] at ha
      rw [harrived]
      rcases ha with ha | ha
      · exact hs.arrived_of_handed a ha
      · refine hs.arrived_of_queue a ?_
        rw [hqueue, List.mem_singleton.mp ha]
        exact List.mem_cons_self
  | discarded hqueue harrived hhanded =>
    refine ⟨by simp [hqueue], by simp [hqueue], by simp [hqueue], ?_, hclosed⟩
    rw [harrived, hhanded]
    exact hs.arrived_of_handed

end Effect

/-! ### Lost connections -/

section Lost

variable {C : Type} (W : C → Prop)

/-- Every connection of `W` that was queued is still queued, or has been handed to
`handle_client`. -/
def NoneLost (s : MainState C) : Prop := ∀ c ∈ s.arrived, W c → c ∈ s.queue ∨ c ∈ s.handed

/-- If the step closes the listening socket, no connection of `W` is queued on it. -/
def Spares (s : MainState C) (e : MainEvent C) : Prop :=
  closedFd s e = some s.masterFd → ∀ c ∈ s.queue, ¬ W c

instance [DecidablePred W] (s : MainState C) (e : MainEvent C) : Decidable (Spares W s e) :=
  inferInstanceAs (Decidable (_ → _))

variable [DecidableEq C] {W}

/-- **One step.** A step loses a connection exactly when it closes the listening socket with the
connection in the queue. -/
theorem noneLost_mainStep_iff {s s' : MainState C} {e : MainEvent C} (hs : Sound s)
    (hnone : NoneLost W s) (hstep : mainStep s e = some s') : NoneLost W s' ↔ Spares W s e := by
  obtain ⟨heffect, -⟩ := effect_mainStep hs hstep
  rw [Spares]
  generalize hflag : decide (closedFd s e = some s.masterFd) = flag at heffect
  cases heffect with
  | kept hqueue harrived hhanded =>
    refine ⟨fun _ hclose => absurd hclose (of_decide_eq_false hflag), fun _ c hc hw => ?_⟩
    rw [harrived] at hc
    rw [hqueue, hhanded]
    exact hnone c hc hw
  | queued c hc hqueue harrived hhanded =>
    refine ⟨fun _ hclose => absurd hclose (of_decide_eq_false hflag), fun _ a ha hw => ?_⟩
    rw [harrived, List.mem_append] at ha
    rw [hqueue, hhanded, List.mem_append]
    rcases ha with ha | ha
    · exact (hnone a ha hw).imp_left .inl
    · exact .inl (.inr ha)
  | accepted c hqueue harrived hhanded =>
    refine ⟨fun _ hclose => absurd hclose (of_decide_eq_false hflag), fun _ a ha hw => ?_⟩
    rw [harrived] at ha
    rw [hhanded, List.mem_append]
    rcases hnone a ha hw with hmem | hmem
    · rw [hqueue, List.mem_cons] at hmem
      rcases hmem with rfl | hmem
      · exact .inr (.inr (List.mem_singleton_self a))
      · exact .inl hmem
    · exact .inr (.inl hmem)
  | discarded hqueue harrived hhanded =>
    constructor
    · intro hnone' _ c hc hw
      have hlost := hnone' c (harrived ▸ hs.arrived_of_queue c hc) hw
      rw [hqueue, hhanded] at hlost
      exact hlost.elim List.not_mem_nil (hs.not_handed c hc)
    · intro hspares c hc hw
      rw [harrived] at hc
      rw [hhanded]
      have hempty := hspares (of_decide_eq_true hflag)
      exact .inr ((hnone c hc hw).resolve_left fun hmem => hempty c hmem hw)

variable (W) in
/-- **Lost connections.** For every run of the main loop, with clients that connect at any time,
and every set of connections: none of them is lost, in any state of the run, if and only if no
step of the run closes the listening socket while one of them is queued. -/
theorem forall_noneLost_iff {fd : Int32} {trace : List (MainState C × MainEvent C)}
    {s : MainState C} (hr : Run mainStep (.start fd) trace s) :
    (∀ x ∈ visited trace s, NoneLost W x) ↔ ∀ x ∈ trace, Spares W x.1 x.2 :=
  hr.forall_visited_iff (fun _ _ _ => sound_mainStep)
    (fun _ _ _ hs hnone hstep => noneLost_mainStep_iff hs hnone hstep) (sound_start fd)
    fun _ hc => absurd hc List.not_mem_nil

/-- Two clients that are served one after the other: the second one connects when the master
listens again. -/
theorem forall_noneLost_sequential : ∃ (trace : List (MainState ℕ × MainEvent ℕ)) (s : _),
    Run mainStep (.start 3) trace s ∧ s.handed = [1, 2] ∧
      ∀ x ∈ visited trace s, NoneLost (fun _ => True) x := by
  have hr : Run mainStep (.start 3 : MainState ℕ) _ _ :=
    .step (e := .listen) rfl <| .step (e := .connect 1) rfl <| .step (e := .accept 4) rfl <|
    .step (e := .handled) rfl <| .step (e := .closeClient) rfl <| .step (e := .closeMaster) rfl <|
    .step (e := .openMaster 3) rfl <| .step (e := .listen) rfl <| .step (e := .connect 2) rfl <|
    .step (e := .accept 4) rfl <| .done _
  exact ⟨_, _, hr, rfl, (forall_noneLost_iff (fun _ => True) hr).2 (by decide)⟩

/-- A client that connects while another one is served is neither queued nor handed on once the
server has been restarted. -/
theorem exists_lost_connection :
    ¬ ∀ (fd : Int32) (trace : List (MainState ℕ × MainEvent ℕ)) (s : MainState ℕ),
      Run mainStep (.start fd) trace s → ∀ x ∈ visited trace s, NoneLost (fun _ => True) x := by
  intro h
  have hr : Run mainStep (.start 3 : MainState ℕ) _ _ :=
    .step (e := .listen) rfl <| .step (e := .connect 1) rfl <| .step (e := .accept 4) rfl <|
    .step (e := .connect 2) rfl <| .step (e := .handled) rfl <| .step (e := .closeClient) rfl <|
    .step (e := .closeMaster) rfl <| .done _
  have hlost : 2 ∈ ([] : List ℕ) ∨ 2 ∈ [1] :=
    h 3 _ _ hr _ (List.mem_append_right _ (List.mem_singleton_self _)) 2
      (show 2 ∈ [1, 2] by simp) trivial
  simp at hlost

end Lost

end PekarDrive
