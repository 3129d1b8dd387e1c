import PekarDrive.Packet.Comm

/-!
# The packet format

The functions of `lib/PP/packet.c`. On the wire a packet is a header of 22 bytes followed by
`msg_len` argument bytes: `seq_number`, `msg_len` and `msg_type` of four bytes each, `error` of
two and `token` of eight, all little-endian and without padding. In memory `struct packet` takes
40 bytes (`PekarDrive.sizeofPacket`), the number most senders compute lengths from.

The message type is stored and sent as a 32-bit value that nothing checks, so a packet carries
the number itself; `PekarDrive.MsgType.ofCode` finds the named type, if any.

## Main definitions

* `PekarDrive.MsgType`, `PekarDrive.Packet`, `PekarDrive.Tokens`.
* `PekarDrive.pInit`, `PekarDrive.attachToken`, `PekarDrive.pError`.
* `PekarDrive.pEncode`, `PekarDrive.pDecode`.

## Main results

* `PekarDrive.mem_offsets_pDecode`: the offsets that decoding reads.
* `PekarDrive.pDecode_overlay_pEncode`: decoding gives back what was encoded.
* `PekarDrive.pDecode_congr`: decoding depends on the bytes it announces only.
-/

namespace PekarDrive

open CMemory CText

/-! ### Packets -/

/-- The enumeration `enum type`. -/
inductive MsgType
  | ping | ls | write | read | append | register | delete
  deriving DecidableEq

/-- The value of an enumerator. -/
def MsgType.code : MsgType → UInt32
  | ping => 0
  | ls => 1
  | write => 2
  | read => 3
  | append => 4
  | register => 5
  | delete => 6

/-- The enumerator with a given value. -/
def MsgType.ofCode (code : UInt32) : Option MsgType :=
  if code = 0 then some ping
  else if code = 1 then some ls
  else if code = 2 then some write
  else if code = 3 then some read
  else if code = 4 then some append
  else if code = 5 then some register
  else if code = 6 then some delete
  else none

@[simp] theorem MsgType.ofCode_code (t : MsgType) : ofCode t.code = some t := by
  cases t <;> rfl

theorem MsgType.ofCode_eq_some {code : UInt32} {t : MsgType} :
    ofCode code = some t ↔ code = t.code := by
  refine ⟨fun h => ?_, fun h => h ▸ ofCode_code t⟩
  unfold ofCode at h
  split_ifs at h <;> cases h <;> assumption

/-- The struct `packet`; `arg` is the contents of the block that the pointer refers to. -/
structure Packet where
  /-- The sequence number. -/
  seqNumber : UInt32
  /-- The argument block. -/
  arg : List UInt8
  /-- The length of the argument. -/
  msgLen : UInt32
  /-- The error field. -/
  error : UInt16
  /-- The token of the sender. -/
  token : UInt64
  /-- The message type. -/
  msgType : UInt32
  deriving DecidableEq

/-- `sizeof(struct packet)`. -/
def sizeofPacket : ℕ := 40

/-- The length of the encoded header. -/
def headerSize : ℕ := 22

/-- The two tokens compiled into the components. -/
structure Tokens where
  /-- `MASTER_TKN`. -/
  masterTkn : UInt64
  /-- `WORKER_TKN`. -/
  workerTkn : UInt64

/-- `p_init`: a packet with an argument string and a type. -/
def pInit (seqNumber : UInt32) (arg : CString) (t : UInt32) : Packet where
  seqNumber := seqNumber
  arg := arg.bytes
  msgLen := UInt32.ofNat arg.strlen
  error := 0
  token := 0
  msgType := t

/-- `attach_token`. -/
def attachToken (token : UInt64) (p : Packet) : Packet := { p with token := token }

/-- `p_error`: a packet whose error field is set. -/
def pError (seqNumber : UInt32) (arg : CString) (t : UInt32) (token : UInt64) : Packet where
  seqNumber := seqNumber
  arg := arg.bytes
  msgLen := UInt32.ofNat arg.strlen
  error := 1
  token := token
  msgType := t

/-! ### Encoding and decoding -/

/-- The 22 header bytes. -/
def encodeHeader (p : Packet) : List UInt8 :=
  leBytes 4 p.seqNumber.toNat ++ leBytes 4 p.msgLen.toNat ++ leBytes 4 p.msgType.toNat ++
    leBytes 2 p.error.toNat ++ leBytes 8 p.token.toNat

/-- `p_encode`: the bytes written into the new block. -/
def pEncode (p : Packet) : List UInt8 := encodeHeader p ++ p.arg.take p.msgLen.toNat

/-- `p_decode`: five reads at fixed offsets, and one of the length found in the second. The memory
does not end here; where a caller leaves its buffer is told by the offsets. -/
def pDecode (m : Mem) : Reads Packet := do
  let seqNumber ← memcpy m 0 4
  let msgLen ← memcpy m 4 4
  let msgType ← memcpy m 8 4
  let error ← memcpy m 12 2
  let token ← memcpy m 14 8
  let msgLen := UInt32.ofNat (leNat msgLen)
  let arg ← memcpy m 22 msgLen.toNat
  return {
    seqNumber := UInt32.ofNat (leNat seqNumber)
    arg := arg
    msgLen := msgLen
    error := UInt16.ofNat (leNat error)
    token := UInt64.ofNat (leNat token)
    msgType := UInt32.ofNat (leNat msgType) }

section Fields

variable (m : Mem)

theorem seqNumber_pDecode :
    (pDecode m).val.seqNumber = UInt32.ofNat (leNat (window m 0 4)) := rfl

theorem msgLen_pDecode : (pDecode m).val.msgLen = UInt32.ofNat (leNat (window m 4 4)) := rfl

theorem msgType_pDecode : (pDecode m).val.msgType = UInt32.ofNat (leNat (window m 8 4)) := rfl

theorem error_pDecode : (pDecode m).val.error = UInt16.ofNat (leNat (window m 12 2)) := rfl

theorem token_pDecode : (pDecode m).val.token = UInt64.ofNat (leNat (window m 14 8)) := rfl

theorem arg_pDecode :
    (pDecode m).val.arg = window m 22 (pDecode m).val.msgLen.toNat := rfl

theorem length_arg_pDecode : (pDecode m).val.arg.length = (pDecode m).val.msgLen.toNat := by
  rw [arg_pDecode, length_window]

/-- The announced length is the number in bytes 4 to 7. -/
theorem toNat_msgLen_pDecode : (pDecode m).val.msgLen.toNat = leNat (window m 4 4) := by
  have h : leNat (window m 4 4) < 2 ^ 32 := by simpa using leNat_lt (window m 4 4)
  rw [msgLen_pDecode, toNat_counter h]

/-- The type is the one whose bytes lie at offset 8. -/
theorem msgType_pDecode_eq_iff (t : UInt32) :
    (pDecode m).val.msgType = t ↔ window m 8 4 = leBytes 4 t.toNat := by
  have hlt : leNat (window m 8 4) < 2 ^ 32 := by simpa using leNat_lt (window m 8 4)
  rw [msgType_pDecode, ← UInt32.toNat_inj, toNat_counter hlt]
  constructor
  · intro h
    exact leNat_injective (by simp) (by rw [h, leNat_leBytes_of_lt t.toNat_lt])
  · intro h
    rw [h, leNat_leBytes_of_lt t.toNat_lt]

/-- The token is the one whose bytes lie at offset 14. -/
theorem token_pDecode_eq_iff (token : UInt64) :
    (pDecode m).val.token = token ↔ window m 14 8 = leBytes 8 token.toNat := by
  have hlt : leNat (window m 14 8) < 2 ^ 64 := by simpa using leNat_lt (window m 14 8)
  rw [token_pDecode, ← UInt64.toNat_inj, UInt64.toNat_ofNat', Nat.mod_eq_of_lt hlt]
  constructor
  · intro h
    exact leNat_injective (by simp) (by rw [h, leNat_leBytes_of_lt token.toNat_lt])
  · intro h
    rw [h, leNat_leBytes_of_lt token.toNat_lt]

/-- The offsets that `p_decode` reads: the header and the announced argument. -/
theorem mem_offsets_pDecode {o : ℕ} :
    o ∈ (pDecode m).offsets ↔ o < headerSize + (pDecode m).val.msgLen.toNat := by
  have hlen : (pDecode m).val.msgLen = UInt32.ofNat (leNat (memcpy m 4 4).val) := rfl
  simp only [pDecode, Reads.offsets_bind, Reads.offsets_pure, List.append_nil, List.mem_append,
    mem_offsets_memcpy, ← hlen, headerSize]
  omega

end Fields

/-- Decoding depends on the bytes it reads only. -/
theorem pDecode_congr {m m' : Mem}
    (h : ∀ o < headerSize + (pDecode m).val.msgLen.toNat, m o = m' o) :
    (pDecode m).val = (pDecode m').val := by
  have hfix : ∀ off len, off + len ≤ headerSize → window m off len = window m' off len :=
    fun off len hle => window_congr fun i _ hi => h i (by omega)
  have hlen : (pDecode m).val.msgLen = (pDecode m').val.msgLen := by
    rw [msgLen_pDecode, msgLen_pDecode, hfix 4 4 (by decide)]
  have harg : (pDecode m).val.arg = (pDecode m').val.arg := by
    rw [arg_pDecode, arg_pDecode, ← hlen]
    exact window_congr fun i _ hi => h i hi
  have hseq : (pDecode m).val.seqNumber = (pDecode m').val.seqNumber := by
    rw [seqNumber_pDecode, seqNumber_pDecode, hfix 0 4 (by decide)]
  have htype : (pDecode m).val.msgType = (pDecode m').val.msgType := by
    rw [msgType_pDecode, msgType_pDecode, hfix 8 4 (by decide)]
  have herr : (pDecode m).val.error = (pDecode m').val.error := by
    rw [error_pDecode, error_pDecode, hfix 12 2 (by decide)]
  have htok : (pDecode m).val.token = (pDecode m').val.token := by
    rw [token_pDecode, token_pDecode, hfix 14 8 (by decide)]
  calc (pDecode m).val
      = ⟨(pDecode m).val.seqNumber, (pDecode m).val.arg, (pDecode m).val.msgLen,
          (pDecode m).val.error, (pDecode m).val.token, (pDecode m).val.msgType⟩ := rfl
    _ = ⟨(pDecode m').val.seqNumber, (pDecode m').val.arg, (pDecode m').val.msgLen,
          (pDecode m').val.error, (pDecode m').val.token, (pDecode m').val.msgType⟩ := by
        rw [hseq, harg, hlen, herr, htok, htype]
    _ = (pDecode m').val := rfl

@[simp] theorem length_encodeHeader (p : Packet) : (encodeHeader p).length = headerSize := by
  simp [encodeHeader, headerSize]

theorem length_pEncode {p : Packet} (hp : p.arg.length = p.msgLen.toNat) :
    (pEncode p).length = headerSize + p.msgLen.toNat := by
  rw [pEncode, List.length_append, length_encodeHeader, ← hp, List.take_length]

/-- The header fields read back from a buffer that starts with an encoded header. -/
theorem pDecode_header (p : Packet) (post : List UInt8) (rest : Mem) :
    (pDecode (overlay (encodeHeader p ++ post) rest)).val.seqNumber = p.seqNumber ∧
      (pDecode (overlay (encodeHeader p ++ post) rest)).val.msgLen = p.msgLen ∧
      (pDecode (overlay (encodeHeader p ++ post) rest)).val.msgType = p.msgType ∧
      (pDecode (overlay (encodeHeader p ++ post) rest)).val.error = p.error ∧
      (pDecode (overlay (encodeHeader p ++ post) rest)).val.token = p.token := by
  have field : ∀ (pre xs : List UInt8) (off len : ℕ), pre ++ xs <+: encodeHeader p →
      off = pre.length → len = xs.length →
      window (overlay (encodeHeader p ++ post) rest) off len = xs := by
    rintro pre xs off len ⟨suf, hsplit⟩ hoff hlen
    rw [← hsplit, List.append_assoc (pre ++ xs)]
    exact window_overlay_append pre xs (suf ++ post) rest hoff hlen
  have h32 : ∀ x : UInt32, UInt32.ofNat (leNat (leBytes 4 x.toNat)) = x := fun x => by
    rw [leNat_leBytes_of_lt x.toNat_lt, UInt32.ofNat_toNat]
  have h16 : ∀ x : UInt16, UInt16.ofNat (leNat (leBytes 2 x.toNat)) = x := fun x => by
    rw [leNat_leBytes_of_lt x.toNat_lt, UInt16.ofNat_toNat]
  have h64 : ∀ x : UInt64, UInt64.ofNat (leNat (leBytes 8 x.toNat)) = x := fun x => by
    rw [leNat_leBytes_of_lt x.toNat_lt, UInt64.ofNat_toNat]
  let seq := leBytes 4 p.seqNumber.toNat
  let len := leBytes 4 p.msgLen.toNat
  let type := leBytes 4 p.msgType.toNat
  let err := leBytes 2 p.error.toNat
  let tok := leBytes 8 p.token.toNat
  have hsplit : encodeHeader p = seq ++ len ++ type ++ err ++ tok := rfl
  refine ⟨?_, ?_, ?_, ?_, ?_⟩
  · rw [seqNumber_pDecode, field [] seq 0 4 ⟨len ++ type ++ err ++ tok, by simp [hsplit]⟩ rfl
      (by simp [seq]), h32]
  · rw [msgLen_pDecode, field seq len 4 4 ⟨type ++ err ++ tok, by simp [hsplit]⟩
      (by simp [seq]) (by simp [len]), h32]
  · rw [msgType_pDecode, field (seq ++ len) type 8 4 ⟨err ++ tok, by simp [hsplit]⟩
      (by simp [seq, len]) (by simp [type]), h32]
  · rw [error_pDecode, field (seq ++ len ++ type) err 12 2 ⟨tok, by simp [hsplit]⟩
      (by simp [seq, len, type]) (by simp [err]), h16]
  · rw [token_pDecode, field (seq ++ len ++ type ++ err) tok 14 8 ⟨[], by simp [hsplit]⟩
      (by simp [seq, len, type, err]) (by simp [tok]), h64]

/-- **Decoding an encoded packet.** What was encoded is read back, whatever follows it. -/
theorem pDecode_overlay_pEncode {p : Packet} (hp : p.arg.length = p.msgLen.toNat)
    (post : List UInt8) (rest : Mem) :
    (pDecode (overlay (pEncode p ++ post) rest)).val = p := by
  have henc : pEncode p ++ post = encodeHeader p ++ (p.arg ++ post) := by
    rw [pEncode, ← hp, List.take_length, List.append_assoc]
  obtain ⟨hseq, hlen, htype, herr, htok⟩ := pDecode_header p (p.arg ++ post) rest
  rw [henc]
  have harg : (pDecode (overlay (encodeHeader p ++ (p.arg ++ post)) rest)).val.arg = p.arg := by
    rw [arg_pDecode, hlen, ← List.append_assoc]
    exact window_overlay_append _ _ _ rest (length_encodeHeader p).symm hp.symm
  cases p
  simp only at hseq hlen htype herr htok harg
  calc (pDecode (overlay _ rest)).val
      = ⟨(pDecode (overlay _ rest)).val.seqNumber, (pDecode (overlay _ rest)).val.arg,
          (pDecode (overlay _ rest)).val.msgLen, (pDecode (overlay _ rest)).val.error,
          (pDecode (overlay _ rest)).val.token, (pDecode (overlay _ rest)).val.msgType⟩ := rfl
    _ = _ := by rw [hseq, harg, hlen, herr, htok, htype]

end PekarDrive
