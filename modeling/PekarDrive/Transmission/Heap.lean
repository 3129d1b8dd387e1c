import PekarDrive.Foundation.Ledger
import PekarDrive.Transmission.Status

/-!
# Transmission instances on the heap

The struct `transmission` with its pointers. An instance of `PekarDrive.Transmission` holds the
contents of its blocks; here it holds their addresses in a ledger of allocated and freed blocks
(`PekarDrive.HeapState`), and a second release of a block is the outcome `none`.

The blocks that `transmit` and `receive` allocate for their chunks are freed before they return and
are not entered in the ledger.

## Main definitions

* `PekarDrive.RawTransmission`, `PekarDrive.HeapState`, `PekarDrive.HeapState.view`.
* `PekarDrive.HeapState.init`, `PekarDrive.HeapState.close`, `PekarDrive.HeapState.transErr`,
  `PekarDrive.HeapState.transmit`, `PekarDrive.HeapState.receive`.
* `PekarDrive.TransmissionCall`, `PekarDrive.HeapState.call`.

## Main results

* `PekarDrive.HeapState.close_cases`, `PekarDrive.HeapState.transErr_cases`,
  `PekarDrive.call_cases`: what `close_transmission`, `TRANS_ERR` and a call can do.
-/

namespace PekarDrive

open CMemory CText

/-- The struct `conn` with its pointer. -/
structure RawConn where
  /-- The flag `error`. -/
  error : Int16
  /-- The address of the message, or `NULL`. -/
  errorMsg : Option ℕ
  /-- The descriptor. -/
  fd : Int32
  /-- Set by no function of `comm.c`. -/
  maxBytes : UInt64
  deriving DecidableEq

/-- The struct `transmission` with its pointers. -/
structure RawTransmission where
  /-- The address of the data, or `NULL`. -/
  data : Option ℕ
  /-- The flag `open`. -/
  isOpen : UInt8
  /-- Nonzero after a refusal. -/
  error : UInt8
  /-- The address of the message, or `NULL`. -/
  errMsg : Option ℕ
  /-- The length of the message. -/
  errorLen : UInt64
  /-- `header.bytes`. -/
  bytes : UInt64
  /-- `header.chunk_size`. -/
  chunkSize : UInt32
  /-- The connection. -/
  connection : RawConn
  /-- The instance has been used for reading. -/
  readUsed : Int16
  /-- The instance has been used for writing. -/
  writeUsed : Int16
  deriving DecidableEq

/-- An instance and the heap. -/
@[ext] structure HeapState where
  /-- The instance. -/
  t : RawTransmission
  /-- The blocks of the heap. -/
  ledger : Ledger

/-- A block that has been allocated for a string and its terminator. -/
def stringBlock (size : ℕ) (text : CString) : Block := ⟨size, text.bytes ++ [0]⟩

/-- What `init_transmission` reads of a connection; a message is read if there is an error. -/
def RawConn.load (l : Ledger) (c : RawConn) : Option Conn :=
  if c.error ≠ 0 then
    match c.errorMsg with
    | none => some ⟨c.error, none, c.fd, c.maxBytes⟩
    | some p => (l.string p).map fun text => ⟨c.error, some text, c.fd, c.maxBytes⟩
  else some ⟨c.error, none, c.fd, c.maxBytes⟩

/-- The message that lies at an address. -/
def msgBlockAt (l : Ledger) (pointer : Option ℕ) : Option MsgBlock :=
  pointer.bind fun p => l.blocks[p]?.map fun b =>
    ⟨b.size, CString.ofMemory b.stored, decide (p ∈ l.released)⟩

/-- The connection with its message. -/
def connAt (l : Ledger) (c : RawConn) : Conn where
  error := c.error
  errorMsg := c.errorMsg.bind fun p => l.blocks[p]?.map fun b => CString.ofMemory b.stored
  fd := c.fd
  maxBytes := c.maxBytes

namespace HeapState

/-- The instance with the contents of its blocks. -/
def view (s : HeapState) : Transmission where
  data := s.t.data.bind fun p => s.ledger.blocks[p]?.map Block.stored
  isOpen := s.t.isOpen
  error := s.t.error
  errMsg := msgBlockAt s.ledger s.t.errMsg
  errorLen := s.t.errorLen
  bytes := s.t.bytes
  chunkSize := s.t.chunkSize
  connection := connAt s.ledger s.t.connection
  readUsed := s.t.readUsed
  writeUsed := s.t.writeUsed

/-- `init_transmission`, for `size` bytes at `data`. -/
def init (ledger : Ledger) (chunkSize : UInt16) (connection : Conn) (data : Option Mem)
    (size : UInt64) : HeapState :=
  let (dataAt, ledger) := ledger.place (data.map fun m => ⟨size.toNat, window m 0 size.toNat⟩)
  let message := if connection.error ≠ 0 then connection.errorMsg else none
  let (connAt, ledger) := ledger.place (message.map fun text => stringBlock (text.strlen + 1) text)
  let tooSmall := chunkSize.toUInt32 ≤ serializedSizeWithoutData
  let (errAt, ledger) := ledger.place (if tooSmall then
    some (stringBlock 50 (lit "Chunk size too small for transmission.")) else none)
  { t :=
      { data := dataAt
        isOpen := 1
        error := if message ≠ none ∨ tooSmall then 1 else 0
        errMsg := errAt
        errorLen := 0
        bytes := size
        chunkSize := chunkSize.toUInt32
        connection := ⟨connection.error, connAt, connection.fd, connection.maxBytes⟩
        readUsed := 0
        writeUsed := 0 }
    ledger }

/-- `close_transmission`. The message keeps its address. -/
def close (s : HeapState) : Option HeapState :=
  (s.ledger.free s.t.data).bind fun ledger =>
    (if s.t.error ≠ 0 then ledger.free s.t.errMsg else some ledger).map fun ledger =>
      ⟨{ s.t with data := none, isOpen := 0, bytes := 0 }, ledger⟩

/-- `TRANS_ERR`. The block for the message has no room for its terminator. -/
def transErr (s : HeapState) (err : CString) : Option HeapState :=
  s.close.map fun s =>
    { t := { s.t with
        error := 1
        errorLen := UInt64.ofNat err.strlen
        errMsg := some s.ledger.next }
      ledger := s.ledger.malloc err.strlen (err.bytes ++ [0]) }

/-- `transmission_error`. -/
def transmissionError (s : HeapState) : Option ℕ := if s.t.error = 0 then none else s.t.errMsg

/-- `transmit`: the return value, the state afterwards, and the chunks written. The data is divided
by the size of a chunk buffer, and every chunk gets an instance over the same connection. -/
def transmit (heap : SendHeap) (s : HeapState) : Option (Bool × HeapState × List (List UInt8)) :=
  match s.view.refusal s.t.writeUsed (lit "Transmission instance already used for writing.") with
  | some message => (s.transErr message).map fun s => (false, s, [])
  | none =>
    match s.t.data with
    | none => (s.transErr (lit "Data to transmit is NULL.")).map fun s => (false, s, [])
    | some p =>
      if s.ledger.Live p ∧ s.t.chunkSize ≠ serializedSizeWithoutData ∧
          (s.t.connection.load s.ledger).isSome then
        s.view.data.map fun data =>
          (true, { s with t := { s.t with writeUsed := 1 } }, transmitChunks heap s.view data)
      else none

/-- `receive`, when the reads deliver the given pieces and then nothing: the return value, the state
afterwards, and the number of calls of `conn_read`. -/
def receive (fresh : ℕ → Mem) (reads : List (List UInt8)) (s : HeapState) :
    Option (Bool × HeapState × ℕ) :=
  match s.view.refusal s.t.readUsed (lit "Transmission instance already used for reading.") with
  | some message => (s.transErr message).map fun s => (false, s, 0)
  | none =>
    let t := { s.t with readUsed := 1 }
    match receiveLoop t.chunkSize fresh reads 0 (window (fresh 0) 0 t.chunkSize.toNat) with
    | none => none
    | some (i, more, buffer) =>
      if i = 1 ∧ more = false then some (false, ⟨t, s.ledger⟩, i.toNat)
      else
        match trimPadding buffer (t.chunkSize * (if more then i else i - 1)).toNat with
        | none => none
        | some newSize => (s.ledger.free t.data).map fun ledger =>
          (true, ⟨{ t with data := some ledger.next, bytes := UInt64.ofNat newSize },
            ledger.malloc newSize (buffer.take newSize)⟩, i.toNat)

end HeapState

/-! ### Calls -/

/-- The calls on an instance, with what they find around it. -/
inductive TransmissionCall
  | transmit (heap : SendHeap)
  | receive (fresh : ℕ → Mem) (reads : List (List UInt8))
  | transmissionError
  | close

/-- What a call returns. -/
inductive Returned
  | nothing
  | flag (b : Bool)
  /-- An address, and the block that lies there. -/
  | message (pointer : Option ℕ) (block : Option Block)
  deriving DecidableEq

/-- What is seen of a call. -/
structure CallReply where
  /-- What it returns. -/
  returned : Returned
  /-- The chunks it writes. -/
  written : List (List UInt8)
  /-- The number of its calls of `conn_read`. -/
  reads : ℕ
  deriving DecidableEq

/-- A call. -/
def HeapState.call (s : HeapState) : TransmissionCall → Option (CallReply × HeapState)
  | .transmit heap => (s.transmit heap).map fun (b, s', ws) => (⟨.flag b, ws, 0⟩, s')
  | .receive fresh reads => (s.receive fresh reads).map fun (b, s', n) => (⟨.flag b, [], n⟩, s')
  | .transmissionError =>
    some (⟨.message s.transmissionError (s.transmissionError.bind fun p => s.ledger.blocks[p]?),
      [], 0⟩, s)
  | .close => s.close.map fun s' => (⟨.nothing, [], 0⟩, s')

/-- The tests of a call do not let the instance pass. -/
def HeapState.Refuses (s : HeapState) : TransmissionCall → Prop
  | .transmit _ => ¬ s.view.Usable s.t.writeUsed ∨ s.t.data = none
  | .receive _ _ => ¬ s.view.Usable s.t.readUsed
  | .transmissionError => False
  | .close => False

/-- What a call can do. -/
inductive CallEffect (s : HeapState) : TransmissionCall → CallReply → HeapState → Prop
  | refused {c : TransmissionCall} {message : CString} {s' : HeapState} (hc : s.Refuses c)
      (hs : s.transErr message = some s') : CallEffect s c ⟨.flag false, [], 0⟩ s'
  | transmitted {heap : SendHeap} {ws : List (List UInt8)} (hc : ¬ s.Refuses (.transmit heap)) :
      CallEffect s (.transmit heap) ⟨.flag true, ws, 0⟩ { s with t := { s.t with writeUsed := 1 } }
  | nothingReceived {fresh : ℕ → Mem} {reads : List (List UInt8)} {n : ℕ}
      (hc : ¬ s.Refuses (.receive fresh reads)) :
      CallEffect s (.receive fresh reads) ⟨.flag false, [], n⟩
        { s with t := { s.t with readUsed := 1 } }
  | received {fresh : ℕ → Mem} {reads : List (List UInt8)} {n size : ℕ} {stored : List UInt8}
      {l : Ledger} (hc : ¬ s.Refuses (.receive fresh reads))
      (hl : s.ledger.free s.t.data = some l) :
      CallEffect s (.receive fresh reads) ⟨.flag true, [], n⟩
        ⟨{ s.t with readUsed := 1, data := some l.next, bytes := UInt64.ofNat size },
          l.malloc size stored⟩
  | asked : CallEffect s .transmissionError
      ⟨.message s.transmissionError (s.transmissionError.bind fun p => s.ledger.blocks[p]?),
        [], 0⟩ s
  | closed {s' : HeapState} (hs : s.close = some s') : CallEffect s .close ⟨.nothing, [], 0⟩ s'

section Cases

variable {s s' : HeapState} {r : CallReply} {c : TransmissionCall}

/-- The tests are those on contents. -/
theorem not_usable_of_refusal {used : Int16} {usedMessage message : CString}
    (h : s.view.refusal used usedMessage = some message) : ¬ s.view.Usable used := by
  intro husable
  rw [Transmission.refusal_eq_none_iff.mpr husable] at h
  exact absurd h (by simp)

theorem effect_of_transmit {heap : SendHeap} (h : s.call (.transmit heap) = some (r, s')) :
    CallEffect s (.transmit heap) r s' := by
  simp only [HeapState.call, HeapState.transmit] at h
  split at h
  next message href =>
    obtain ⟨x, hx, heq⟩ := Option.map_eq_some_iff.mp h
    obtain ⟨s'', hs, rfl⟩ := Option.map_eq_some_iff.mp hx
    obtain ⟨rfl, rfl⟩ := Prod.mk.inj heq
    exact .refused (.inl (not_usable_of_refusal href)) hs
  next href =>
    have husable := Transmission.refusal_eq_none_iff.mp href
    split at h
    next hdata =>
      obtain ⟨x, hx, heq⟩ := Option.map_eq_some_iff.mp h
      obtain ⟨s'', hs, rfl⟩ := Option.map_eq_some_iff.mp hx
      obtain ⟨rfl, rfl⟩ := Prod.mk.inj heq
      exact .refused (.inr hdata) hs
    next p hdata =>
      split_ifs at h with hfine
      · obtain ⟨x, hx, heq⟩ := Option.map_eq_some_iff.mp h
        obtain ⟨data, -, rfl⟩ := Option.map_eq_some_iff.mp hx
        obtain ⟨rfl, rfl⟩ := Prod.mk.inj heq
        refine .transmitted ?_
        rintro (hnot | hnone)
        · exact hnot husable
        · rw [hdata] at hnone
          exact absurd hnone (by simp)
      · exact absurd h (by simp)

theorem effect_of_receive {fresh : ℕ → Mem} {reads : List (List UInt8)}
    (h : s.call (.receive fresh reads) = some (r, s')) :
    CallEffect s (.receive fresh reads) r s' := by
  simp only [HeapState.call, HeapState.receive] at h
  split at h
  next message href =>
    obtain ⟨x, hx, heq⟩ := Option.map_eq_some_iff.mp h
    obtain ⟨s'', hs, rfl⟩ := Option.map_eq_some_iff.mp hx
    obtain ⟨rfl, rfl⟩ := Prod.mk.inj heq
    exact .refused (not_usable_of_refusal href) hs
  next href =>
    have hc : ¬ s.Refuses (.receive fresh reads) :=
      not_not.mpr (Transmission.refusal_eq_none_iff.mp href)
    split at h
    next => exact absurd h (by simp)
    next i more buffer hloop =>
      by_cases hfirst : i = 1 ∧ more = false
      · rw [if_pos hfirst] at h
        obtain ⟨rfl, rfl⟩ := Prod.mk.inj (Option.some.inj h)
        exact .nothingReceived hc
      · rw [if_neg hfirst] at h
        split at h
        next => exact absurd h (by simp)
        next newSize htrim =>
          obtain ⟨x, hx, heq⟩ := Option.map_eq_some_iff.mp h
          obtain ⟨l, hl, rfl⟩ := Option.map_eq_some_iff.mp hx
          obtain ⟨rfl, rfl⟩ := Prod.mk.inj heq
          exact .received hc hl

/-- **What a call can do.** -/
theorem call_cases (h : s.call c = some (r, s')) : CallEffect s c r s' := by
  cases c with
  | transmit heap => exact effect_of_transmit h
  | receive fresh reads => exact effect_of_receive h
  | transmissionError =>
    obtain ⟨rfl, rfl⟩ := Prod.mk.inj (Option.some.inj h)
    exact .asked
  | close =>
    obtain ⟨s'', hs, heq⟩ := Option.map_eq_some_iff.mp h
    obtain ⟨rfl, rfl⟩ := Prod.mk.inj heq
    exact .closed hs

end Cases

namespace HeapState

section Close

variable {s s' : HeapState}

/-- What `close_transmission` can do. -/
theorem close_cases (h : s.close = some s') : ∃ l, s.ledger.free s.t.data = some l ∧
    (if s.t.error ≠ 0 then l.free s.t.errMsg else some l) = some s'.ledger ∧
    s'.t = { s.t with data := none, isOpen := 0, bytes := 0 } := by
  obtain ⟨l, hl, h⟩ := Option.bind_eq_some_iff.mp h
  obtain ⟨l', hl', rfl⟩ := Option.map_eq_some_iff.mp h
  exact ⟨l, hl, hl', rfl⟩

theorem t_of_close (h : s.close = some s') :
    s'.t = { s.t with data := none, isOpen := 0, bytes := 0 } := by
  obtain ⟨-, -, -, ht⟩ := close_cases h
  exact ht

theorem blocks_of_close (h : s.close = some s') : s'.ledger.blocks = s.ledger.blocks := by
  obtain ⟨l, hl, hl', -⟩ := close_cases h
  split_ifs at hl' with herror
  · rw [Ledger.blocks_of_free hl', Ledger.blocks_of_free hl]
  · rw [← Option.some.inj hl', Ledger.blocks_of_free hl]

theorem next_of_close (h : s.close = some s') : s'.ledger.next = s.ledger.next :=
  congrArg List.length (blocks_of_close h)

/-- What `TRANS_ERR` can do. -/
theorem transErr_cases {err : CString} (h : s.transErr err = some s') :
    ∃ s₁, s.close = some s₁ ∧ s'.t = { s.t with
        data := none
        isOpen := 0
        bytes := 0
        error := 1
        errorLen := UInt64.ofNat err.strlen
        errMsg := some s.ledger.next } ∧
      s'.ledger = s₁.ledger.malloc err.strlen (err.bytes ++ [0]) := by
  obtain ⟨s₁, hs₁, rfl⟩ := Option.map_eq_some_iff.mp h
  refine ⟨s₁, hs₁, ?_, rfl⟩
  simp only [t_of_close hs₁, next_of_close hs₁]

end Close

end HeapState

end PekarDrive
