import PekarDrive.Transmission.Received

/-!
# Sending and receiving a message

What `transmit` sends is to come out of `receive` as it went in. It never does so for sure: every
chunk on the wire ends with 72 bytes from behind the chunk buffer, which `receive` takes for data,
and its last byte, the one that `receive` tests for the pad value, is one of these. When they
are not the pad value, the receiver presents all chunks whole, which is more than was sent.

## Main definitions

* `PekarDrive.RoundTrips`.

## Main results

* `PekarDrive.not_roundTrips`.
-/

namespace PekarDrive

open CMemory CText

/-- For the chunk size `c` and the data `d`, over every pair of connections and every memory: when
`transmit` succeeds, `receive` on a fresh instance, reading one chunk at a time, returns 1 and
leaves the data. -/
def RoundTrips (c : UInt16) (d : List UInt8) : Prop :=
  ∀ (sender receiver : Conn) (behind : Mem) (heap : SendHeap) (fresh : ℕ → Mem) (t : Transmission)
    (chunks : List (List UInt8)),
    transmit heap (initTransmission c sender (some (overlay d behind)) (UInt64.ofNat d.length)) =
      (true, t, chunks) →
    receiver.error = 0 →
    ∃ t', receive fresh chunks (initTransmission c receiver none 0) = some (true, t') ∧
      t'.data = some d ∧ t'.bytes = UInt64.ofNat d.length

/-- The chunks hold more bytes than the data. -/
theorem lt_chunks_mul {n c : ℕ} (hc : 72 < c) (hn : n < 2 ^ 32) :
    n < (n / (c - 72) % 2 ^ 32 + 1) * c := by
  have hdiv : n / (c - 72) ≤ n := Nat.div_le_self _ _
  rw [Nat.mod_eq_of_lt (by omega)]
  calc n < (n / (c - 72) + 1) * (c - 72) := by
        rw [Nat.mul_comm]
        exact Nat.lt_mul_div_succ n (by omega)
    _ ≤ (n / (c - 72) + 1) * c := Nat.mul_le_mul_left _ (Nat.sub_le c 72)

section Unpadded

/-- A connection without an error. -/
def openConn : Conn := ⟨0, none, 3, 0⟩

/-- Memory without a pad byte around the blocks of the sender. -/
def unpaddedHeap : SendHeap := ⟨fun _ => 5, fun _ _ => 5⟩

variable {c : UInt16} (d : List UInt8)

/-- The sender's instance. -/
def sending (c : UInt16) (d : List UInt8) : Transmission :=
  initTransmission c openConn (some (overlay d fun _ => 0)) (UInt64.ofNat d.length)

/-- What it writes when no pad byte lies behind its chunk buffers. -/
def unpaddedChunks (c : UInt16) (d : List UInt8) : List (List UInt8) :=
  transmitChunks unpaddedHeap (sending c d)
    (window (overlay d fun _ => 0) 0 (UInt64.ofNat d.length).toNat)

theorem toNat_ofNat_length {d : List UInt8} (hd : d.length < 2 ^ 32) :
    (UInt64.ofNat d.length).toNat = d.length := by
  rw [UInt64.toNat_ofNat', Nat.mod_eq_of_lt (by omega)]

variable {d} (hc : 72 < c.toNat) (hd : d.length < 2 ^ 32)

include hc

theorem serializedSizeWithoutData_lt : serializedSizeWithoutData < c.toUInt32 := by
  rw [UInt32.lt_iff_toNat_lt, UInt16.toNat_toUInt32]
  exact hc

theorem transmit_sending : transmit unpaddedHeap (sending c d) =
    (true, { sending c d with writeUsed := 1 }, unpaddedChunks c d) := by
  have href : ∀ usedMessage, (sending c d).refusal 0 usedMessage = none :=
    refusal_initTransmission _ _ (serializedSizeWithoutData_lt hc) rfl
  have hused : (sending c d).writeUsed = 0 := rfl
  rw [transmit, hused, href]
  rfl

theorem mem_unpaddedChunks {w : List UInt8} (hw : w ∈ unpaddedChunks c d) :
    w.length = c.toUInt32.toNat ∧ endsPadded w = false := by
  obtain ⟨hlen, i, hlast⟩ :=
    getElem?_of_mem_transmitChunks unpaddedHeap _ _ (serializedSizeWithoutData_lt hc) hw
  have hbyte : w.getLast? = some 5 := by
    rw [List.getLast?_eq_getElem?, hlen]
    exact hlast
  rw [endsPadded, hbyte]
  exact ⟨hlen, by decide⟩

include hd

theorem length_unpaddedChunks :
    (unpaddedChunks c d).length = d.length / (c.toNat - 72) % 2 ^ 32 + 1 := by
  have hbytes : (sending c d).bytes.toNat = d.length := toNat_ofNat_length hd
  rw [unpaddedChunks, length_transmitChunks, hbytes, sending, chunkSize_initTransmission,
    UInt32.toNat_sub_of_le _ _ (UInt32.le_of_lt (serializedSizeWithoutData_lt hc)),
    UInt16.toNat_toUInt32]
  rfl

/-- The receiver does not end up with as many bytes as were sent. -/
theorem bytes_ne_of_receive {t' : Transmission}
    (h : receive (fun _ _ => 0) (unpaddedChunks c d) (initTransmission c openConn none 0) =
      some (true, t')) : t'.bytes ≠ UInt64.ofNat d.length := by
  have hne : unpaddedChunks c d ≠ [] :=
    List.ne_nil_of_length_pos (by rw [length_unpaddedChunks hc hd]; exact Nat.succ_pos _)
  have hpos : 0 < (initTransmission c openConn none 0).chunkSize.toNat := by
    rw [chunkSize_initTransmission, UInt16.toNat_toUInt32]
    omega
  rcases receive_of_not_padded
    (refusal_initTransmission none 0 (serializedSizeWithoutData_lt hc) rfl)
    hpos hne (fun w hw => mem_unpaddedChunks hc hw) (fun _ _ => 0) with
    hnone | ⟨t'', hsome, hfits, hbytes⟩
  · exact absurd (hnone.symm.trans h) (by simp)
  · obtain rfl : t' = t'' := (Prod.mk.inj (Option.some.inj (h.symm.trans hsome))).2
    intro heq
    have hcount := congrArg UInt64.toNat (heq.symm.trans hbytes)
    have hlt := lt_chunks_mul hc hd
    rw [chunkSize_initTransmission, UInt16.toNat_toUInt32] at hcount hfits
    rw [toNat_ofNat_length hd, UInt64.toNat_ofNat', Nat.mod_eq_of_lt (by omega),
      length_unpaddedChunks hc hd] at hcount
    omega

end Unpadded

/-- **No message is received for sure.** For every chunk size with room for data and every message
there is a content of the memory around the sender's chunk buffers with which `receive` does not
present the message. -/
theorem not_roundTrips {c : UInt16} {d : List UInt8} (hc : 72 < c.toNat)
    (hd : d.length < 2 ^ 32) : ¬ RoundTrips c d := by
  intro h
  obtain ⟨t', hreceive, -, hbytes⟩ :=
    h openConn openConn _ unpaddedHeap (fun _ _ => 0) _ _ (transmit_sending hc) rfl
  exact bytes_ne_of_receive hc hd hreceive hbytes

/-- With the default chunk size, the message of the tests is not received for sure. -/
theorem not_roundTrips_test : ¬ RoundTrips 200 (ascii "Test") :=
  not_roundTrips (by decide) (by decide)

/-- When the 72 bytes behind its chunk buffer are 5, it is received with 200 bytes. -/
theorem not_forall_roundTrips :
    ¬ ∀ (c : UInt16) (d : List UInt8), 72 < c.toNat → d.length < 2 ^ 32 → RoundTrips c d := by
  intro h
  have hc : 72 < (200 : UInt16).toNat := by decide
  have hd : (ascii "Test").length < 2 ^ 32 := by decide
  obtain ⟨t', hreceive, -, hbytes⟩ := h 200 (ascii "Test") hc hd openConn openConn _ unpaddedHeap
    (fun _ _ => 0) _ _ (transmit_sending hc) rfl
  exact bytes_ne_of_receive hc hd hreceive hbytes

end PekarDrive
