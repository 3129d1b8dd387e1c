import PekarDrive.Transmission.Ownership

/-!
# An instance is used once

What is seen of a sequence of calls on an instance that `init_transmission` has made. Of all calls
of `transmit`, at most one returns 1, and of all calls of `receive`; behind a close or an error both
are refused, an error stays, and a refused call neither writes nor reads.

A refusal closes the instance, and closing an instance with an error frees its message. After a
`close_transmission` the message is freed already and keeps its address, so the refusal of the next
call frees it again.

## Main definitions

* `PekarDrive.Executed`, `PekarDrive.executed`.
* `PekarDrive.SingleUse`, `PekarDrive.MessageFreed`.

## Main results

* `PekarDrive.singleUse_iff`.
-/

namespace PekarDrive

open CMemory CText

/-- The call is one of `transmit`. -/
def TransmissionCall.isTransmit : TransmissionCall → Bool
  | .transmit _ => true
  | _ => false

/-- The call is one of `receive`. -/
def TransmissionCall.isReceive : TransmissionCall → Bool
  | .receive _ _ => true
  | _ => false

/-- The call is one of `close_transmission`. -/
def TransmissionCall.isClose : TransmissionCall → Bool
  | .close => true
  | _ => false

/-- The call uses the connection. -/
def TransmissionCall.isUse (c : TransmissionCall) : Bool := c.isTransmit || c.isReceive

/-- The mark that the call leaves, and looks at. -/
def TransmissionCall.used : TransmissionCall → RawTransmission → Int16
  | .transmit _, t => t.writeUsed
  | .receive _ _, t => t.readUsed
  | _, _ => 0

/-- A call that has been made: the state before it, and its outcome if it returns. -/
structure Executed where
  /-- The state before the call. -/
  before : HeapState
  /-- The call. -/
  call : TransmissionCall
  /-- What is seen of it, and the state behind it. -/
  outcome : Option (CallReply × HeapState)

/-- The calls of a sequence that are made: it ends at a call that does not return. -/
def executed (s : HeapState) : List TransmissionCall → List Executed
  | [] => []
  | c :: calls => ⟨s, c, s.call c⟩ ::
    match s.call c with
    | none => []
    | some (_, s') => executed s' calls

/-- What the call returns. -/
def Executed.returned (x : Executed) : Option Returned := x.outcome.map fun outcome =>
  outcome.1.returned

/-- The calls use the instance once. -/
structure SingleUse (xs : List Executed) : Prop where
  /-- At most one `transmit` returns 1. -/
  transmit_le : xs.countP (fun x => x.call.isTransmit && x.returned == some (.flag true)) ≤ 1
  /-- At most one `receive` returns 1. -/
  receive_le : xs.countP (fun x => x.call.isReceive && x.returned == some (.flag true)) ≤ 1
  /-- Behind a close every use returns 0. -/
  after_close : xs.Pairwise fun x y =>
    x.call.isClose → y.call.isUse → y.returned = some (.flag false)
  /-- Behind an error every use returns 0. -/
  after_error : ∀ x ∈ xs, x.before.t.error ≠ 0 → x.call.isUse → x.returned = some (.flag false)
  /-- An error stays. -/
  error_kept : ∀ x ∈ xs, x.before.t.error ≠ 0 → ∀ r s', x.outcome = some (r, s') → s'.t.error ≠ 0
  /-- A refused call neither writes nor reads. -/
  silent : ∀ x ∈ xs, x.before.Refuses x.call → ∀ r s', x.outcome = some (r, s') →
    r.written = [] ∧ r.reads = 0

/-- The error flag is set and the message has been freed. -/
def MessageFreed (s : HeapState) : Prop :=
  s.t.error ≠ 0 ∧ ∃ p, s.t.errMsg = some p ∧ p ∈ s.ledger.released

/-! ### Refused calls -/

section Refused

variable {s s' : HeapState} {c : TransmissionCall}

theorem messageFreed_iff : MessageFreed s ↔
    s.view.error ≠ 0 ∧ s.view.errMsg.any MsgBlock.freed = true := by
  refine and_congr_right fun _ => ?_
  cases hptr : s.t.errMsg with
  | none => simp [HeapState.view, msgBlockAt, hptr]
  | some p =>
    have hview : s.view.errMsg = msgBlockAt s.ledger (some p) := by rw [HeapState.view, hptr]
    rw [hview, HeapState.any_freed_msgBlockAt]
    simp

/-- `close_transmission` returns unless it frees the message twice. -/
theorem HeapState.Owned.isSome_close_iff (h : s.Owned) : s.close.isSome ↔ ¬ MessageFreed s := by
  rw [← Option.isSome_map (f := HeapState.view), HeapState.map_view_close h, messageFreed_iff,
    closeTransmission]
  split_ifs with hfreed <;> simp [hfreed]

/-- An instance that has an error or has been closed is refused. -/
theorem refuses_of_spent (hc : c.isUse) (h : s.t.isOpen = 0 ∨ s.t.error ≠ 0) : s.Refuses c := by
  have hspent : ∀ used, ¬ s.view.Usable used := fun used husable =>
    h.elim husable.isOpen_ne (· husable.error_eq)
  cases c with
  | transmit heap => exact .inl (hspent _)
  | receive fresh reads => exact hspent _
  | transmissionError => exact absurd hc (by decide)
  | close => exact absurd hc (by decide)

/-- A refused call is one of `TRANS_ERR`. -/
theorem exists_transErr_of_refuses (h : s.Refuses c) : ∃ message,
    s.call c = (s.transErr message).map fun s' => (⟨.flag false, [], 0⟩, s') := by
  cases c with
  | transmit heap =>
    rw [HeapState.call, HeapState.transmit]
    cases href : s.view.refusal s.t.writeUsed
      (lit "Transmission instance already used for writing.") with
    | some message => exact ⟨message, Option.map_map _ _ _⟩
    | none =>
      have hdata := h.resolve_left (not_not.mpr (Transmission.refusal_eq_none_iff.mp href))
      rw [hdata]
      exact ⟨_, Option.map_map _ _ _⟩
  | receive fresh reads =>
    rw [HeapState.call, HeapState.receive]
    cases href : s.view.refusal s.t.readUsed
      (lit "Transmission instance already used for reading.") with
    | some message => exact ⟨message, Option.map_map _ _ _⟩
    | none => exact absurd (Transmission.refusal_eq_none_iff.mp href) h
  | transmissionError => exact h.elim
  | close => exact h.elim

/-- A refused call returns 0 unless it frees the message twice. -/
theorem HeapState.Owned.exists_call_iff (h : s.Owned) (hc : s.Refuses c) :
    (∃ s', s.call c = some (⟨.flag false, [], 0⟩, s')) ↔ ¬ MessageFreed s := by
  obtain ⟨message, hcall⟩ := exists_transErr_of_refuses hc
  rw [← h.isSome_close_iff, hcall, HeapState.transErr, Option.map_map]
  cases s.close with
  | none => simp
  | some s₁ => simp

/-- A refused call does not return otherwise. -/
theorem reply_of_refuses {r : CallReply} (hc : s.Refuses c) (hcall : s.call c = some (r, s')) :
    r = ⟨.flag false, [], 0⟩ := by
  obtain ⟨message, heq⟩ := exists_transErr_of_refuses hc
  rw [heq] at hcall
  obtain ⟨s₁, -, hpair⟩ := Option.map_eq_some_iff.mp hcall
  exact (Prod.mk.inj hpair).1.symm

end Refused

/-! ### What the calls leave -/

section Kept

variable {s s' : HeapState} {c : TransmissionCall} {r : CallReply}

/-- The flags of an instance after a call. -/
theorem flags_of_call (h : s.call c = some (r, s')) :
    (s.t.error ≠ 0 → s'.t.error ≠ 0) ∧
    (s.t.isOpen = 0 ∨ s.t.error ≠ 0 → s'.t.isOpen = 0 ∨ s'.t.error ≠ 0) ∧
    (s.t.writeUsed ≠ 0 → s'.t.writeUsed ≠ 0) ∧ (s.t.readUsed ≠ 0 → s'.t.readUsed ≠ 0) := by
  cases call_cases h with
  | refused hc hs =>
    obtain ⟨-, -, ht, -⟩ := HeapState.transErr_cases hs
    rw [ht]
    exact ⟨fun _ => show (1 : UInt8) ≠ 0 by decide, fun _ => .inl rfl, id, id⟩
  | transmitted hc => exact ⟨id, id, fun _ => show (1 : Int16) ≠ 0 by decide, id⟩
  | nothingReceived hc => exact ⟨id, id, id, fun _ => show (1 : Int16) ≠ 0 by decide⟩
  | received hc hl => exact ⟨id, id, id, fun _ => show (1 : Int16) ≠ 0 by decide⟩
  | asked => exact ⟨id, id, id, id⟩
  | closed hs =>
    rw [HeapState.t_of_close hs]
    exact ⟨id, fun _ => .inl rfl, id, id⟩

/-- A call that returns 1 marks the instance. -/
theorem used_of_call (h : s.call c = some (r, s')) (hr : r.returned = .flag true) :
    c.used s'.t ≠ 0 := by
  cases call_cases h with
  | refused hc hs => exact absurd hr (by simp)
  | transmitted hc => exact show (1 : Int16) ≠ 0 by decide
  | nothingReceived hc => exact absurd hr (by simp)
  | received hc hl => exact show (1 : Int16) ≠ 0 by decide
  | asked => exact absurd hr (by simp)
  | closed hs => exact absurd hr (by simp)

theorem isOpen_of_close (hc : c.isClose) (h : s.call c = some (r, s')) : s'.t.isOpen = 0 := by
  cases call_cases h with
  | refused hc hs =>
    obtain ⟨-, -, ht, -⟩ := HeapState.transErr_cases hs
    rw [ht]
  | transmitted hc' => exact absurd hc (by simp [TransmissionCall.isClose])
  | nothingReceived hc' => exact absurd hc (by simp [TransmissionCall.isClose])
  | received hc' hl => exact absurd hc (by simp [TransmissionCall.isClose])
  | asked => exact absurd hc (by decide)
  | closed hs => rw [HeapState.t_of_close hs]

/-- A marked instance is refused. -/
theorem refuses_of_used (h : c.used s.t ≠ 0) : s.Refuses c := by
  cases c with
  | transmit heap => exact .inl fun husable => h husable.used_eq
  | receive fresh reads => exact fun husable => h husable.used_eq
  | transmissionError => exact absurd rfl h
  | close => exact absurd rfl h

theorem used_of_isTransmit (hc : c.isTransmit) (t : RawTransmission) : c.used t = t.writeUsed := by
  cases c with
  | transmit heap => rfl
  | receive fresh reads => exact absurd hc (by simp [TransmissionCall.isTransmit])
  | transmissionError => exact absurd hc (by decide)
  | close => exact absurd hc (by decide)

theorem used_of_isReceive (hc : c.isReceive) (t : RawTransmission) : c.used t = t.readUsed := by
  cases c with
  | transmit heap => exact absurd hc (by simp [TransmissionCall.isReceive])
  | receive fresh reads => rfl
  | transmissionError => exact absurd hc (by decide)
  | close => exact absurd hc (by decide)

end Kept

/-! ### Sequences of calls -/

section Sequences

variable {s : HeapState}

theorem outcome_of_mem_executed {calls : List TransmissionCall} {x : Executed}
    (hx : x ∈ executed s calls) : x.outcome = x.before.call x.call := by
  induction calls generalizing s with
  | nil => exact absurd hx List.not_mem_nil
  | cons c calls ih =>
    rw [executed] at hx
    rcases List.mem_cons.mp hx with rfl | hx
    · rfl
    · cases hcall : s.call c with
      | none => simp [hcall] at hx
      | some outcome => exact ih (by simpa [hcall] using hx)

/-- What every call that returns keeps holds before every call. -/
theorem forall_executed {I : HeapState → Prop}
    (hI : ∀ s c r s', I s → s.call c = some (r, s') → I s') (h : I s)
    (calls : List TransmissionCall) : ∀ x ∈ executed s calls, I x.before := by
  induction calls generalizing s with
  | nil => exact fun x hx => absurd hx List.not_mem_nil
  | cons c calls ih =>
    rw [executed, List.forall_mem_cons]
    refine ⟨h, ?_⟩
    cases hcall : s.call c with
    | none => exact fun x hx => absurd hx List.not_mem_nil
    | some outcome => exact ih (hI s c outcome.1 outcome.2 h hcall)

/-- A use that marks the instance, and is refused on a marked one, returns 1 at most once. -/
theorem countP_executed_le_one {kind : TransmissionCall → Bool} {mark : RawTransmission → Int16}
    (hused : ∀ c, kind c → ∀ t, c.used t = mark t)
    (hkeep : ∀ (s : HeapState) c r s', mark s.t ≠ 0 → s.call c = some (r, s') → mark s'.t ≠ 0)
    (calls : List TransmissionCall) :
    (executed s calls).countP (fun x => kind x.call && x.returned == some (.flag true)) ≤ 1 := by
  induction calls generalizing s with
  | nil => exact Nat.zero_le 1
  | cons c calls ih =>
    rw [executed, List.countP_cons]
    cases hcall : s.call c with
    | none =>
      rw [List.countP_nil]
      split <;> omega
    | some outcome =>
      obtain ⟨r, s'⟩ := outcome
      by_cases hhead : kind c = true ∧ r.returned = .flag true
      · -- the instance is marked, and no later call returns 1
        have hmark : mark s'.t ≠ 0 := by
          rw [← hused c hhead.1]
          exact used_of_call hcall hhead.2
        have hrest : (executed s' calls).countP
            (fun x => kind x.call && x.returned == some (.flag true)) = 0 := by
          rw [List.countP_eq_zero]
          intro x hx hone
          rw [Bool.and_eq_true, beq_iff_eq, Executed.returned, outcome_of_mem_executed hx] at hone
          obtain ⟨hkind, hreturned⟩ := hone
          obtain ⟨⟨r', s''⟩, hx', hr'⟩ := Option.map_eq_some_iff.mp hreturned
          have hrefuses : x.before.Refuses x.call := by
            refine refuses_of_used ?_
            rw [hused x.call hkind]
            exact forall_executed (fun s c r s' => hkeep s c r s') hmark calls x hx
          rw [reply_of_refuses hrefuses hx'] at hr'
          exact absurd hr' (by simp)
        rw [hrest]
        split <;> omega
      · have hnot : (kind c && (some r.returned == some (.flag true))) = false := by
          rw [Bool.eq_false_iff, ne_eq, Bool.and_eq_true, beq_iff_eq, Option.some.injEq]
          exact hhead
        rw [if_neg (by simpa [Executed.returned] using hnot)]
        exact ih

/-- Behind a close or an error every use is refused. -/
theorem returned_of_spent {calls : List TransmissionCall} {x : Executed}
    (hx : x ∈ executed s calls) (howned : x.before.Owned)
    (hspent : x.before.t.isOpen = 0 ∨ x.before.t.error ≠ 0) (huse : x.call.isUse)
    (hok : ¬ MessageFreed x.before) : x.returned = some (.flag false) := by
  have hrefuses := refuses_of_spent huse hspent
  obtain ⟨s', hcall⟩ := (howned.exists_call_iff hrefuses).mpr hok
  rw [Executed.returned, outcome_of_mem_executed hx, hcall]
  rfl

/-- Behind a close every use returns 0, if no message is freed twice. -/
theorem pairwise_after_close (howned : s.Owned) {calls : List TransmissionCall}
    (hok : ∀ x ∈ executed s calls, x.call.isUse → ¬ MessageFreed x.before) :
    (executed s calls).Pairwise fun x y =>
      x.call.isClose → y.call.isUse → y.returned = some (.flag false) := by
  induction calls generalizing s with
  | nil => exact .nil
  | cons c calls ih =>
    rw [executed] at hok ⊢
    obtain ⟨-, hok⟩ := List.forall_mem_cons.mp hok
    cases hcall : s.call c with
    | none => exact List.pairwise_singleton _ _
    | some outcome =>
      obtain ⟨r, s'⟩ := outcome
      simp only [hcall] at hok
      have howned' := howned.call hcall
      refine List.pairwise_cons.mpr ⟨fun y hy hclose huse => ?_, ih howned' hok⟩
      have hspent : s'.t.isOpen = 0 ∨ s'.t.error ≠ 0 := .inl (isOpen_of_close hclose hcall)
      have hspentAll := forall_executed (fun s c r s' h hs => (flags_of_call hs).2.1 h) hspent calls
      have hownedAll := forall_executed (fun s c r s' h hs => h.call hs) howned' calls
      exact returned_of_spent hy (hownedAll y hy) (hspentAll y hy) huse (hok y hy huse)

end Sequences

/-- **An instance is used once**, if and only if no `transmit` and no `receive` is called on an
instance whose message has been freed. -/
theorem singleUse_iff (ledger : Ledger) (chunkSize : UInt16) (connection : Conn)
    (data : Option Mem) (size : UInt64) (calls : List TransmissionCall) :
    SingleUse (executed (.init ledger chunkSize connection data size) calls) ↔
      ∀ x ∈ executed (.init ledger chunkSize connection data size) calls,
        x.call.isUse → ¬ MessageFreed x.before := by
  have howned : ∀ x ∈ executed (.init ledger chunkSize connection data size) calls,
      x.before.Owned := forall_executed (fun s c r s' h hs => h.call hs)
    (HeapState.owned_init ledger chunkSize connection data size) calls
  constructor
  · intro h x hx huse hfreed
    have hreturned := h.after_error x hx hfreed.1 huse
    have hrefuses := refuses_of_spent huse (.inr hfreed.1)
    rw [Executed.returned, outcome_of_mem_executed hx] at hreturned
    obtain ⟨⟨r, s'⟩, hcall, -⟩ := Option.map_eq_some_iff.mp hreturned
    obtain rfl := reply_of_refuses hrefuses hcall
    exact ((howned x hx).exists_call_iff hrefuses).mp ⟨s', hcall⟩ hfreed
  · intro hok
    refine ⟨?_, ?_, ?_, ?_, ?_, ?_⟩
    · exact countP_executed_le_one (fun c hc t => used_of_isTransmit hc t)
        (fun s c r s' h hs => (flags_of_call hs).2.2.1 h) calls
    · exact countP_executed_le_one (fun c hc t => used_of_isReceive hc t)
        (fun s c r s' h hs => (flags_of_call hs).2.2.2 h) calls
    · exact pairwise_after_close (HeapState.owned_init ledger chunkSize connection data size) hok
    · intro x hx herror huse
      exact returned_of_spent hx (howned x hx) (.inr herror) huse (hok x hx huse)
    · intro x hx herror r s' hout
      rw [outcome_of_mem_executed hx] at hout
      exact (flags_of_call hout).1 herror
    · intro x hx hrefuses r s' hout
      rw [outcome_of_mem_executed hx] at hout
      rw [reply_of_refuses hrefuses hout]
      exact ⟨rfl, rfl⟩

/-- A closed instance is used, closed and used again: the second refusal frees the message of the
first one, which the close in between has freed. -/
theorem not_forall_singleUse : ¬ ∀ (ledger : Ledger) (chunkSize : UInt16) (connection : Conn)
    (data : Option Mem) (size : UInt64) (calls : List TransmissionCall),
    SingleUse (executed (.init ledger chunkSize connection data size) calls) := by
  intro h
  have hsingle := h .empty 200 ⟨0, none, 3, 0⟩ none 0
    [.close, .receive (fun _ _ => 0) [], .close, .receive (fun _ _ => 0) []]
  obtain ⟨x, hx, herror, huse, hnone⟩ : ∃ x,
      (executed (.init .empty 200 ⟨0, none, 3, 0⟩ none 0) [.close, .receive (fun _ _ => 0) [],
        .close, .receive (fun _ _ => 0) []])[3]? = some x ∧
      x.before.t.error = 1 ∧ x.call.isUse ∧ x.returned = none := ⟨_, rfl, rfl, rfl, rfl⟩
  have hreturned := hsingle.after_error x (List.mem_of_getElem? hx) (by rw [herror]; decide) huse
  rw [hnone] at hreturned
  exact absurd hreturned (by simp)

end PekarDrive
