import PekarDrive.Packet.Receive
import Mathlib.Data.Set.Function

/-!
# Encoding and decoding are inverse to each other

`p_encode` and `p_decode` lay out the same six fields with different expressions for the offsets.
A packet whose argument has the announced length is decoded to itself, whatever follows its
encoding; a buffer that holds a whole packet is the encoding of what is decoded from it, followed
by the rest of the buffer.

The size passed to `malloc` in `p_encode` is a sum whose first part, `msg_len + 1`, has 32 bits, so
the block has room for the packet when `msg_len` is not the greatest 32-bit number
(`PekarDrive.Packet.WellFormed`).

## Main definitions

* `PekarDrive.pEncodeSize`: the size of the block of `p_encode`.
* `PekarDrive.Packet.WellFormed`.

## Main results

* `PekarDrive.pEncode_pDecode`: encoding what has been decoded.
* `PekarDrive.pEncode_pDecode_roundTrip`: both round trips, and injectivity.
-/

namespace PekarDrive

open CMemory CText

/-- The size of the block that `p_encode` allocates. -/
def pEncodeSize (p : Packet) : ℕ := (p.msgLen + 1).toNat + headerSize

/-- The argument has the announced length, and `p_encode` allocates room for it. -/
structure Packet.WellFormed (p : Packet) : Prop where
  /-- The argument has `msg_len` bytes. -/
  length_arg : p.arg.length = p.msgLen.toNat
  /-- One more than `msg_len` is a 32-bit number. -/
  msgLen_lt : p.msgLen.toNat < 2 ^ 32 - 1

/-- `p_init` notes the length of its argument, if this is a 32-bit number with room for one more. -/
theorem Packet.wellFormed_of_strlen_lt {p : Packet} {arg : CString} (harg : p.arg = arg.bytes)
    (hmsgLen : p.msgLen = UInt32.ofNat arg.strlen) (hlt : arg.strlen < 2 ^ 32 - 1) :
    p.WellFormed := by
  have hlen : p.msgLen.toNat = arg.strlen := by rw [hmsgLen, toNat_counter (by omega)]
  exact ⟨by rw [harg, hlen]; rfl, by omega⟩

instance (p : Packet) : Decidable p.WellFormed :=
  decidable_of_iff (p.arg.length = p.msgLen.toNat ∧ p.msgLen.toNat < 2 ^ 32 - 1)
    ⟨fun h => ⟨h.1, h.2⟩, fun h => ⟨h.1, h.2⟩⟩

/-! ### Encoding what has been decoded -/

private theorem leBytes_toNat_ofNat_leNat {bs : List UInt8} {w n : ℕ} (hw : bs.length = w)
    (hn : n = leNat bs % 256 ^ w) : leBytes w n = bs := by
  have hlt : leNat bs < 256 ^ w := hw ▸ leNat_lt bs
  rw [hn, Nat.mod_eq_of_lt hlt, ← hw, leBytes_leNat]

/-- The header of what has been decoded consists of the bytes that were read. -/
theorem encodeHeader_pDecode (m : Mem) : encodeHeader (pDecode m).val = window m 0 headerSize := by
  have h32 : ∀ off, leBytes 4 (UInt32.ofNat (leNat (window m off 4))).toNat = window m off 4 :=
    fun off => leBytes_toNat_ofNat_leNat (length_window m off 4) UInt32.toNat_ofNat'
  have h16 : leBytes 2 (UInt16.ofNat (leNat (window m 12 2))).toNat = window m 12 2 :=
    leBytes_toNat_ofNat_leNat (length_window m 12 2) UInt16.toNat_ofNat'
  have h64 : leBytes 8 (UInt64.ofNat (leNat (window m 14 8))).toNat = window m 14 8 :=
    leBytes_toNat_ofNat_leNat (length_window m 14 8) UInt64.toNat_ofNat'
  have hsplit : window m 0 headerSize =
      window m 0 4 ++ window m 4 4 ++ window m 8 4 ++ window m 12 2 ++ window m 14 8 := by
    simp only [← window_add m 0, headerSize]
  rw [hsplit, encodeHeader, seqNumber_pDecode, msgLen_pDecode, msgType_pDecode, error_pDecode,
    token_pDecode, h32, h32, h32, h16, h64]

/-- **Encoding what has been decoded** gives the bytes that were read. -/
theorem pEncode_pDecode (m : Mem) :
    pEncode (pDecode m).val = window m 0 (headerSize + (pDecode m).val.msgLen.toNat) := by
  rw [pEncode, ← length_arg_pDecode, List.take_length, encodeHeader_pDecode, length_arg_pDecode,
    window_add, arg_pDecode, Nat.zero_add]
  rfl

/-- **The packet format.** A packet is read back from its encoding, whatever follows; the bytes of
a buffer that holds a whole packet are the encoding of what is decoded from it; and different
packets have different encodings. -/
theorem pEncode_pDecode_roundTrip :
    (∀ p : Packet, p.WellFormed → ∀ trailing rest,
      (pDecode (overlay (pEncode p ++ trailing) rest)).val = p) ∧
    (∀ bs rest, headerSize + announced bs ≤ bs.length →
      pEncode (pDecode (overlay bs rest)).val = bs.take (headerSize + announced bs)) ∧
    Set.InjOn pEncode {p | p.WellFormed} := by
  have hdecode : ∀ p : Packet, p.WellFormed → ∀ trailing rest,
      (pDecode (overlay (pEncode p ++ trailing) rest)).val = p :=
    fun p hp => pDecode_overlay_pEncode hp.length_arg
  refine ⟨hdecode, fun bs rest hbs => ?_, fun p hp q hq hpq => ?_⟩
  · have h8 : 8 ≤ bs.length := le_trans (by simp [headerSize]; omega) hbs
    rw [pEncode_pDecode, msgLen_pDecode_overlay rest h8, window_overlay_of_le rest (by omega),
      List.drop_zero]
  · calc p = (pDecode (overlay (pEncode p ++ []) fun _ => 0)).val := (hdecode p hp _ _).symm
      _ = (pDecode (overlay (pEncode q ++ []) fun _ => 0)).val := by rw [hpq]
      _ = q := hdecode q hq _ _

/-- A PING packet with a token, followed by three bytes of something else. -/
theorem pEncode_pDecode_roundTrip_ping :
    (pDecode (overlay (pEncode (attachToken 2 (pInit 7 (lit "1") MsgType.ping.code)) ++ [9, 9, 9])
      fun _ => 255)).val = attachToken 2 (pInit 7 (lit "1") MsgType.ping.code) :=
  pEncode_pDecode_roundTrip.1 _ ⟨by decide, by decide⟩ _ _

end PekarDrive
