import PekarDrive.Packet.Codec

/-!
# Where packets are decoded

Five functions read from a connection into a fresh buffer and decode what lies there. They differ
in the size of the buffer and in the return values of `conn_read` on which they give up
(`PekarDrive.DecodeSite`). None of them compares the number of delivered bytes with the length
that the header announces, so decoding stays within the delivered bytes exactly when the peer
delivered everything it announced (`PekarDrive.DecodeSite.forall_offset_lt_iff`), and within the
buffer exactly when a packet of the announced length has room there
(`PekarDrive.DecodeSite.inside_iff`). What is decoded is given by `PekarDrive.DecodeSite.decode` in
either case; the process survives in the second one only.

## Main definitions

* `PekarDrive.DecodeSite`, with `bufferSize`, `refuses`, `decode` and `Inside`.
* `PekarDrive.announced`: the argument length announced by the delivered bytes.

## Main results

* `PekarDrive.DecodeSite.forall_offset_lt_iff`, `PekarDrive.DecodeSite.inside_iff`.
* `PekarDrive.pDecode_delivered_congr`: a packet delivered in full is decoded whatever the rest
  of the buffer holds.
-/

namespace PekarDrive

open CMemory CText

/-- The functions that decode a packet they have read. -/
inductive DecodeSite
  /-- `handle_client` of the master. -/
  | masterClient
  /-- `handle_client` of a worker. -/
  | workerClient
  /-- `handle_ping_response` of the master. -/
  | pingResponse
  /-- `worker_ls_index` of the master. -/
  | lsIndex
  /-- `written_bytes` of the master. -/
  | writtenBytes
  deriving DecidableEq

namespace DecodeSite

/-- The size of the receive buffer, which is also the length passed to `conn_read`. -/
def bufferSize : DecodeSite → ℕ
  | masterClient => 10000
  | workerClient => 10000
  | pingResponse => sizeofPacket + 10
  | lsIndex => 5000 + sizeofPacket
  | writtenBytes => sizeofPacket + 10

/-- The return values of `conn_read` on which the function returns without decoding. The ping
handler notes a failed read but decodes the buffer all the same. -/
def refuses : DecodeSite → ℤ → Bool
  | masterClient, n => decide (n ≤ 0)
  | workerClient, n => decide (n ≤ 0)
  | pingResponse, _ => false
  | lsIndex, n => decide (n ≤ 0)
  | writtenBytes, n => decide (n < 0)

/-- The decoded packet with the offsets read, unless the function gives up. -/
def decode (s : DecodeSite) (r : ReadResult) : Option (Reads Packet) :=
  if s.refuses r.bytes then none else some (pDecode r.buffer)

theorem refuses_of_pos (s : DecodeSite) {n : ℤ} (hn : 0 < n) : s.refuses n = false := by
  cases s <;> simp only [refuses, decide_eq_false_iff_not] <;> omega

theorem decode_of_pos (s : DecodeSite) {r : ReadResult} (hr : 0 < r.bytes) :
    s.decode r = some (pDecode r.buffer) := by
  rw [decode, s.refuses_of_pos hr, if_neg Bool.false_ne_true]

/-- Everything that decoding reads lies in the buffer. -/
def Inside (s : DecodeSite) (r : ReadResult) : Prop :=
  ∀ d ∈ s.decode r, ∀ o ∈ d.offsets, o < s.bufferSize

/-- A packet of the announced length has room in the buffer, unless it is refused. -/
theorem inside_iff {s : DecodeSite} {r : ReadResult} : s.Inside r ↔
    s.refuses r.bytes = true ∨
      headerSize + (pDecode r.buffer).val.msgLen.toNat ≤ s.bufferSize := by
  cases hrefused : s.refuses r.bytes with
  | true =>
    refine iff_of_true (fun d hd => ?_) (.inl rfl)
    rw [decode, if_pos hrefused] at hd
    exact absurd hd (by simp)
  | false =>
    have hdecode : s.decode r = some (pDecode r.buffer) :=
      if_neg (by rw [hrefused]; exact Bool.false_ne_true)
    rw [or_iff_right Bool.false_ne_true]
    simp only [Inside, hdecode, Option.mem_def, Option.some.injEq, forall_eq',
      mem_offsets_pDecode]
    refine ⟨fun h => ?_, fun h o ho => ho.trans_le h⟩
    by_contra hlt
    exact absurd (h s.bufferSize (not_le.mp hlt)) (lt_irrefl _)

instance (s : DecodeSite) : DecidablePred s.Inside := fun _ => decidable_of_iff' _ inside_iff

theorem inside_iff_of_pos (s : DecodeSite) {r : ReadResult} (hr : 0 < r.bytes) : s.Inside r ↔
    headerSize + (pDecode r.buffer).val.msgLen.toNat ≤ s.bufferSize := by
  rw [inside_iff, s.refuses_of_pos hr, or_iff_right Bool.false_ne_true]

end DecodeSite

/-- The argument length announced by the delivered bytes: the number in bytes 4 to 7. -/
def announced (bs : List UInt8) : ℕ := leNat ((bs.drop 4).take 4)

theorem msgLen_pDecode_overlay {bs : List UInt8} (rest : Mem) (h : 8 ≤ bs.length) :
    (pDecode (overlay bs rest)).val.msgLen.toNat = announced bs := by
  rw [toNat_msgLen_pDecode, window_overlay_of_le rest (by omega), announced]

/-- The length that is announced by the first bytes of a block that holds a packet. -/
theorem announced_window (m : Mem) {len : ℕ} (h : 8 ≤ len) :
    announced (window m 0 len) = (pDecode m).val.msgLen.toNat := by
  obtain ⟨n, rfl⟩ := Nat.exists_eq_add_of_le h
  have hsplit : window m 0 (8 + n) = window m 0 4 ++ (window m 4 4 ++ window m 8 n) := by
    rw [window_add m 0 8 n, window_add m 0 4 4, List.append_assoc]
  rw [announced, hsplit, List.drop_left' (length_window m 0 4),
    List.take_left' (length_window m 4 4), toNat_msgLen_pDecode]

/-- A packet delivered in full is decoded whatever the rest of the buffer holds. -/
theorem pDecode_delivered_congr {bs : List UInt8} (rest rest' : Mem)
    (h : headerSize + announced bs ≤ bs.length) :
    (pDecode (overlay bs rest)).val = (pDecode (overlay bs rest')).val := by
  have h8 : 8 ≤ bs.length := le_trans (by simp [headerSize]; omega) h
  refine pDecode_congr fun o ho => ?_
  rw [msgLen_pDecode_overlay rest h8] at ho
  rw [overlay_of_lt rest (lt_of_lt_of_le ho h), overlay_of_lt rest' (lt_of_lt_of_le ho h)]

/-- **Decoding and the delivered bytes.** At each of the five places, and for every delivery of
at least one byte, decoding reads delivered bytes only if and only if the delivered bytes hold a
whole header and the argument bytes it announces. No place refuses the other packets. -/
theorem DecodeSite.forall_offset_lt_iff (s : DecodeSite) (bs : List UInt8) (stale : Mem)
    (hpos : 1 ≤ bs.length) :
    (∀ d, s.decode (.delivered bs stale) = some d → ∀ o ∈ d.offsets, o < bs.length) ↔
      headerSize + announced bs ≤ bs.length := by
  have hdec : s.decode (.delivered bs stale) = some (pDecode (overlay bs stale)) :=
    s.decode_of_pos (by simp only [ReadResult.delivered]; omega)
  simp only [hdec, Option.some.injEq, forall_eq', mem_offsets_pDecode]
  constructor
  · intro h
    have h22 : headerSize ≤ bs.length := by
      have := h 21 (by simp only [headerSize]; omega)
      simp only [headerSize]
      omega
    rw [msgLen_pDecode_overlay stale (le_trans (by decide) h22)] at h
    by_contra hlt
    have := h bs.length (by omega)
    omega
  · intro h o ho
    rw [msgLen_pDecode_overlay stale (by simp only [headerSize] at h; omega)] at ho
    omega

/-- An answer of the form that `p_encode` builds, of 23 bytes, is read within its bytes. -/
theorem DecodeSite.forall_offset_lt_ping :
    (pEncode (pInit 1 (lit "1") 0)).length = 23 ∧
      ∀ d, pingResponse.decode (.delivered (pEncode (pInit 1 (lit "1") 0)) fun _ => 255) = some d →
        ∀ o ∈ d.offsets, o < 23 :=
  ⟨rfl, (forall_offset_lt_iff pingResponse (pEncode (pInit 1 (lit "1") 0)) (fun _ => 255)
    (by decide)).2 (by decide)⟩

/-- A single byte is decoded as a packet: the remaining 21 header bytes are read from the buffer
as it was allocated. -/
theorem DecodeSite.exists_offset_ge :
    ¬ ∀ (s : DecodeSite) (bs : List UInt8) (stale : Mem), 1 ≤ bs.length →
      bs.length ≤ s.bufferSize →
      ∀ d, s.decode (.delivered bs stale) = some d → ∀ o ∈ d.offsets, o < bs.length := by
  intro h
  exact absurd (h masterClient [0] (fun _ => 0) (by decide) (by decide) _ rfl 21 (by decide))
    (by decide)

end PekarDrive
