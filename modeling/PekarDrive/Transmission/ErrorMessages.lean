import PekarDrive.Foundation.Blocks
import PekarDrive.Foundation.Runs
import PekarDrive.Transmission.Ownership

/-!
# The message that belongs to an error

`transmission_error`, `pp_send` and a further `close_transmission` use the message of an instance
whose error flag is set. The message is written in three places: `init_transmission` leaves `NULL`
for the error of a connection, and a string whose length it does not note for a chunk size that is
too small; `TRANS_ERR` allocates a block without room for the terminator. A close frees the message
and keeps its address. So no instance with an error has a message that can be used, and a run is
sound exactly as long as nothing raises an error.

## Main definitions

* `PekarDrive.TransmissionEvent`, `PekarDrive.HeapState.step`.
* `PekarDrive.HoldsMessage`, `PekarDrive.RaisesError`.

## Main results

* `PekarDrive.not_holdsMessage`: an instance with an error has no message.
* `PekarDrive.forall_holdsMessage_iff`.
-/

namespace PekarDrive

open CMemory CText StepRuns

/-- What can be done with an instance: it is made again, or there is a call. -/
inductive TransmissionEvent
  | init (chunkSize : UInt16) (connection : Conn) (data : Option Mem) (size : UInt64)
  | call (c : TransmissionCall)

/-- A step on an instance. -/
def HeapState.step (s : HeapState) : TransmissionEvent → Option HeapState
  | .init chunkSize connection data size => some (.init s.ledger chunkSize connection data size)
  | .call c => (s.call c).map Prod.snd

/-- The message of the instance lies in a block that is allocated and has not been freed; the block
holds a string with its terminator, and its length has been noted. -/
def HoldsMessage (s : HeapState) : Prop :=
  ∃ p b text, s.t.errMsg = some p ∧ s.ledger.Live p ∧ s.ledger.blocks[p]? = some b ∧
    HoldsString (b.stored.take b.size) text ∧ text.length = s.t.errorLen.toNat

/-- A new instance has an error. -/
def ErroredInit (chunkSize : UInt16) (connection : Conn) : Prop :=
  (connection.error ≠ 0 ∧ connection.errorMsg ≠ none) ∨
    chunkSize.toUInt32 ≤ serializedSizeWithoutData

/-- The step leaves an instance with an error. -/
def RaisesError (s : HeapState) : TransmissionEvent → Prop
  | .init chunkSize connection _ _ => ErroredInit chunkSize connection
  | .call c => s.Refuses c

/-- The message as it is read. -/
theorem HoldsMessage.view {s : HeapState} (h : HoldsMessage s) :
    ∃ message ∈ s.view.errMsg, message.text.strlen = s.t.errorLen.toNat := by
  obtain ⟨p, b, text, hp, -, hb, hholds, hlen⟩ := h
  refine ⟨⟨b.size, CString.ofMemory b.stored, decide (p ∈ s.ledger.released)⟩, ?_, ?_⟩
  · simp [HeapState.view, msgBlockAt, hp, hb]
  · have hread := (@holdsString_iff_forall _ ⟨text, hholds.1⟩).mp hholds (b.stored.drop b.size)
    rw [List.take_append_drop] at hread
    rw [hread, CString.strlen, hlen]

section Init

variable {ledger : Ledger} {chunkSize : UInt16} {connection : Conn} {data : Option Mem}
  {size : UInt64}

theorem error_init_eq_zero_iff :
    (HeapState.init ledger chunkSize connection data size).t.error = 0 ↔
      ¬ ErroredInit chunkSize connection := by
  have hview := congrArg Transmission.error
    (HeapState.view_init ledger chunkSize connection data size)
  constructor
  · intro herror herrored
    have hone : (initTransmission chunkSize connection data size).error = 1 := if_pos herrored
    have hzero : (1 : UInt8) = 0 := by rw [← hone, ← hview, ← herror]; rfl
    exact absurd hzero (by decide)
  · exact fun h => hview.trans (if_neg h)

/-- The length of the message is not noted. -/
theorem not_holdsMessage_init :
    ¬ HoldsMessage (HeapState.init ledger chunkSize connection data size) := by
  intro h
  obtain ⟨message, hmem, hlen⟩ := h.view
  rw [HeapState.view_init, initTransmission] at hmem
  have hzero : (HeapState.init ledger chunkSize connection data size).t.errorLen.toNat = 0 := rfl
  simp only at hmem
  split_ifs at hmem with hsmall
  · obtain rfl := Option.some.inj hmem
    rw [hzero] at hlen
    exact absurd hlen (by decide)
  · exact absurd hmem (by simp)

end Init

section Steps

variable {s s' : HeapState}

/-- A close frees the message. -/
theorem not_holdsMessage_close (herror : s.t.error ≠ 0) (hs : s.close = some s') :
    ¬ HoldsMessage s' := by
  rintro ⟨p, b, text, hp, hlive, -⟩
  obtain ⟨l, -, hl, ht⟩ := HeapState.close_cases hs
  have hptr : s.t.errMsg = some p := by rw [← hp, ht]
  rw [if_pos herror, hptr] at hl
  obtain ⟨hnone, -⟩ | ⟨q, hq, heq, hl⟩ := Ledger.free_cases hl
  · exact absurd hnone (by simp)
  · obtain rfl := Option.some.inj heq
    rw [hl] at hlive
    exact ((Ledger.live_release_iff hq).mp hlive).2 rfl

/-- The block of a refusal ends before the terminator. -/
theorem not_holdsMessage_transErr {err : CString} (hs : s.transErr err = some s') :
    ¬ HoldsMessage s' := by
  rintro ⟨p, b, text, hp, -, hb, hholds, -⟩
  obtain ⟨s₁, hs₁, ht, hl⟩ := HeapState.transErr_cases hs
  have hnext := HeapState.next_of_close hs₁
  rw [ht] at hp
  obtain rfl := Option.some.inj hp
  rw [hl, ← hnext, Ledger.getElem?_malloc_next] at hb
  obtain rfl := Option.some.inj hb
  have hmem : (0 : UInt8) ∈ (err.bytes ++ [0]).take err.strlen :=
    hholds.2.subset (List.mem_append_right _ (List.mem_singleton_self 0))
  rw [CString.strlen, List.take_left] at hmem
  exact err.nulFree hmem

/-- **Instances with an error.** However the error came about, there is no message to be used. -/
theorem not_holdsMessage_step {e : TransmissionEvent}
    (h : s.t.error ≠ 0 → ¬ HoldsMessage s) (hs : s.step e = some s') :
    s'.t.error ≠ 0 → ¬ HoldsMessage s' := by
  intro herror
  cases e with
  | init chunkSize connection data size =>
    obtain rfl := Option.some.inj hs
    exact not_holdsMessage_init
  | call c =>
    obtain ⟨⟨r, s''⟩, hcall, rfl⟩ := Option.map_eq_some_iff.mp hs
    cases call_cases hcall with
    | refused hc hs => exact not_holdsMessage_transErr hs
    | transmitted hc =>
      exact absurd (not_not.mp fun hnot => hc (.inl hnot)).error_eq herror
    | nothingReceived hc => exact absurd (not_not.mp hc).error_eq herror
    | received hc hl => exact absurd (not_not.mp hc).error_eq herror
    | asked => exact h herror
    | closed hs =>
      refine not_holdsMessage_close (fun hzero => herror ?_) hs
      rw [HeapState.t_of_close hs]
      exact hzero

/-- From an instance without an error, the step raises one, or leaves one without an error. -/
theorem error_step_eq_zero_iff {e : TransmissionEvent} (h : s.t.error = 0)
    (hs : s.step e = some s') : s'.t.error = 0 ↔ ¬ RaisesError s e := by
  cases e with
  | init chunkSize connection data size =>
    obtain rfl := Option.some.inj hs
    exact error_init_eq_zero_iff
  | call c =>
    obtain ⟨⟨r, s''⟩, hcall, rfl⟩ := Option.map_eq_some_iff.mp hs
    cases call_cases hcall with
    | refused hc hs =>
      obtain ⟨-, -, ht, -⟩ := HeapState.transErr_cases hs
      refine iff_of_false ?_ (not_not.mpr hc)
      rw [ht]
      exact show ¬ (1 : UInt8) = 0 by decide
    | transmitted hc => exact iff_of_true h hc
    | nothingReceived hc => exact iff_of_true h hc
    | received hc hl => exact iff_of_true h hc
    | asked => exact iff_of_true h not_false
    | closed hs =>
      refine iff_of_true ?_ not_false
      rw [HeapState.t_of_close hs]
      exact h

end Steps

/-- **Runs.** In every state of a run an instance whose error flag is set holds its message, if and
only if the instance has been made without an error and no step raises one. -/
theorem forall_holdsMessage_iff {ledger : Ledger} {chunkSize : UInt16} {connection : Conn}
    {data : Option Mem} {size : UInt64} {trace : List (HeapState × TransmissionEvent)}
    {s' : HeapState}
    (hr : Run HeapState.step (.init ledger chunkSize connection data size) trace s') :
    (∀ x ∈ visited trace s', x.t.error ≠ 0 → HoldsMessage x) ↔
      ¬ ErroredInit chunkSize connection ∧ ∀ x ∈ trace, ¬ RaisesError x.1 x.2 := by
  by_cases herrored : ErroredInit chunkSize connection
  · refine iff_of_false (fun h => ?_) fun h => h.1 herrored
    refine not_holdsMessage_init (h _ hr.mem_visited ?_)
    rw [ne_eq, error_init_eq_zero_iff, not_not]
    exact herrored
  · simp only [herrored, not_false_eq_true, true_and]
    have hstep : ∀ (s : HeapState) (e : TransmissionEvent) (s' : HeapState),
        (s.t.error ≠ 0 → ¬ HoldsMessage s) → (s.t.error ≠ 0 → HoldsMessage s) →
        s.step e = some s' → ((s'.t.error ≠ 0 → HoldsMessage s') ↔ ¬ RaisesError s e) := by
      intro s e s' hI hP hs
      have hzero : s.t.error = 0 := not_not.mp fun herror => hI herror (hP herror)
      rw [← error_step_eq_zero_iff hzero hs]
      exact ⟨fun h => not_not.mp fun herror => not_holdsMessage_step hI hs herror (h herror),
        fun h herror => absurd h herror⟩
    exact hr.forall_visited_iff (fun s e s' h hs => not_holdsMessage_step h hs) hstep
      (fun _ => not_holdsMessage_init) fun h => absurd (error_init_eq_zero_iff.mpr herrored) h

/-- An instance without data over a connection without error. -/
def exampleInstance : HeapState := .init .empty 200 ⟨0, none, 3, 0⟩ none 0

/-- The instance is made and closed. -/
theorem forall_holdsMessage_closed : ¬ ErroredInit 200 ⟨0, none, 3, 0⟩ ∧
    ∀ x ∈ visited [(exampleInstance, TransmissionEvent.call .close)]
      ⟨{ exampleInstance.t with isOpen := 0 }, .empty⟩, x.t.error ≠ 0 → HoldsMessage x := by
  have hmade : ¬ ErroredInit 200 ⟨0, none, 3, 0⟩ := by
    rintro (⟨herror, -⟩ | hsmall)
    · exact herror rfl
    · exact absurd hsmall (by decide)
  have hrun : Run HeapState.step (.init .empty 200 ⟨0, none, 3, 0⟩ none 0)
      [(exampleInstance, .call .close)] ⟨{ exampleInstance.t with isOpen := 0 }, .empty⟩ :=
    .step rfl (.done _)
  refine ⟨hmade, (forall_holdsMessage_iff hrun).mpr ⟨hmade, fun x hx => ?_⟩⟩
  obtain rfl := List.mem_singleton.mp hx
  exact not_false

/-- A connection that could not be made leaves an instance with an error and without a message. -/
theorem not_forall_holdsMessage : ¬ ∀ (ledger : Ledger) (chunkSize : UInt16) (connection : Conn)
    (data : Option Mem) (size : UInt64) (trace : List (HeapState × TransmissionEvent))
    (s' : HeapState),
    Run HeapState.step (.init ledger chunkSize connection data size) trace s' →
      ∀ x ∈ visited trace s', x.t.error ≠ 0 → HoldsMessage x := by
  intro h
  obtain ⟨p, b, text, hp, -⟩ := h .empty 200 (errConn (lit "Failed initialising socket.")) none 0
    [] _ (.done _) _ (List.mem_singleton_self _) (by decide)
  have hnone : (HeapState.init .empty 200 (errConn (lit "Failed initialising socket.")) none
      0).t.errMsg = none := rfl
  rw [hnone] at hp
  exact absurd hp (by simp)

end PekarDrive
