import PekarDrive.Packet.Comm

/-!
# Transmission instances

The struct `transmission` of `PP/transmission.h` and the functions of `lib/PP/transmission.c` that
make and close it. An instance can be used once for writing and once for reading; `transmit` and
`receive` refuse by the same three tests (`PekarDrive.Transmission.refusal`), and a refusal closes
the instance and leaves it with an error (`PekarDrive.Transmission.transErr`).

The chunk size is a static variable of the file, an argument here.

## Main definitions

* `PekarDrive.MsgBlock`, `PekarDrive.Transmission`.
* `PekarDrive.serializedSizeWithoutData`.
* `PekarDrive.initTransmission`, `PekarDrive.Transmission.close`,
  `PekarDrive.Transmission.transErr`, `PekarDrive.Transmission.refusal`.

## Main results

* `PekarDrive.refusal_initTransmission`: a new instance over a connection without error is not
  refused.
-/

namespace PekarDrive

open CMemory CText

/-- A block allocated for an error message. -/
structure MsgBlock where
  /-- The allocated size. -/
  size : ℕ
  /-- The message stored from the start of the block on. -/
  text : CString
  /-- The block has been freed. -/
  freed : Bool
  deriving DecidableEq

/-- The struct `transmission`. -/
structure Transmission where
  /-- The block of the data, of `bytes` bytes; `NULL` before a read and after a close. -/
  data : Option (List UInt8)
  /-- The flag `open`. -/
  isOpen : UInt8
  /-- Nonzero after a refusal. -/
  error : UInt8
  /-- The message that belongs to the error. -/
  errMsg : Option MsgBlock
  /-- The length of the message. -/
  errorLen : UInt64
  /-- `header.bytes`. -/
  bytes : UInt64
  /-- `header.chunk_size`. -/
  chunkSize : UInt32
  /-- The connection. -/
  connection : Conn
  /-- The instance has been used for reading. -/
  readUsed : Int16
  /-- The instance has been used for writing. -/
  writeUsed : Int16
  deriving DecidableEq

/-- `SERIALIZED_SIZE_WITHOUT_DATA`: `sizeof(transmission)` is 88, less two pointers. -/
def serializedSizeWithoutData : UInt32 := 72

/-- `init_transmission`, for `size` bytes at `data`. -/
def initTransmission (chunkSize : UInt16) (connection : Conn) (data : Option Mem)
    (size : UInt64) : Transmission :=
  let errored := connection.error ≠ 0 ∧ connection.errorMsg ≠ none
  let tooSmall := chunkSize.toUInt32 ≤ serializedSizeWithoutData
  { data := data.map fun m => window m 0 size.toNat
    isOpen := 1
    error := if errored ∨ tooSmall then 1 else 0
    errMsg := if tooSmall then
        some ⟨50, lit "Chunk size too small for transmission.", false⟩ else none
    errorLen := 0
    bytes := size
    chunkSize := chunkSize.toUInt32
    connection := { connection with
      errorMsg := if errored then connection.errorMsg else none }
    readUsed := 0
    writeUsed := 0 }

namespace Transmission

/-- `close_transmission`. -/
def close (t : Transmission) : Transmission :=
  { t with
    data := none
    isOpen := 0
    bytes := 0
    errMsg := if t.error ≠ 0 then t.errMsg.map fun b => { b with freed := true } else t.errMsg }

/-- `TRANS_ERR`. The block for the message has no room for its terminator. -/
def transErr (t : Transmission) (err : CString) : Transmission :=
  { t.close with
    error := 1
    errorLen := UInt64.ofNat err.strlen
    errMsg := some ⟨err.strlen, err, false⟩ }

/-- The tests at the start of `transmit` and of `receive`: the message of the refusal, if any. -/
def refusal (t : Transmission) (used : Int16) (usedMessage : CString) : Option CString :=
  if used ≠ 0 then some usedMessage
  else if t.error ≠ 0 then some (lit "Erroneous transmission instance used.")
  else if t.isOpen = 0 then some (lit "Transmission instance is closed.")
  else none

/-- The three tests let the instance pass. -/
structure Usable (t : Transmission) (used : Int16) : Prop where
  /-- It has not been used. -/
  used_eq : used = 0
  /-- It has no error. -/
  error_eq : t.error = 0
  /-- It has not been closed. -/
  isOpen_ne : t.isOpen ≠ 0

theorem refusal_eq_none_iff {t : Transmission} {used : Int16} {usedMessage : CString} :
    t.refusal used usedMessage = none ↔ t.Usable used := by
  unfold refusal
  constructor
  · intro h
    split_ifs at h with hused herror hopen
    exact ⟨not_not.mp hused, not_not.mp herror, hopen⟩
  · intro h
    rw [if_neg (not_not.mpr h.used_eq), if_neg (not_not.mpr h.error_eq), if_neg h.isOpen_ne]

end Transmission

/-! ### New instances -/

section Init

variable {chunkSize : UInt16} {connection : Conn} (data : Option Mem) (size : UInt64)

@[simp] theorem chunkSize_initTransmission :
    (initTransmission chunkSize connection data size).chunkSize = chunkSize.toUInt32 := rfl

/-- A new instance without an error is not refused. -/
theorem refusal_of_error_eq_zero
    (herror : (initTransmission chunkSize connection data size).error = 0)
    (usedMessage : CString) :
    (initTransmission chunkSize connection data size).refusal 0 usedMessage = none := by
  rw [Transmission.refusal, if_neg (by decide), herror, if_neg (by decide)]
  exact if_neg (show ¬ (1 : UInt8) = 0 by decide)

/-- A new instance over a connection without error is used without a refusal. -/
theorem refusal_initTransmission (hchunk : serializedSizeWithoutData < chunkSize.toUInt32)
    (hconn : connection.error = 0) (usedMessage : CString) :
    (initTransmission chunkSize connection data size).refusal 0 usedMessage = none := by
  have herror : (initTransmission chunkSize connection data size).error = 0 := by
    simp only [initTransmission, hconn, ne_eq, not_true_eq_false, false_and, false_or]
    exact if_neg (UInt32.not_le.mpr hchunk)
  exact refusal_of_error_eq_zero data size herror usedMessage

end Init

end PekarDrive
