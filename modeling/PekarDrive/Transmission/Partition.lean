import PekarDrive.Transmission.Chunks
import Mathlib.Data.List.Nodup

/-!
# How `transmit` cuts the data

`transmit` copies the data into buffers of 72 bytes less than a chunk, one behind the other, and
pads the last one. The number of full buffers, their index and the offset of a buffer in the data
are 32-bit numbers, the length of the data has 64 bits. As long as the last byte lies in a buffer
whose offset has 32 bits, every byte is copied once; behind that the offsets go round, and bytes
from the start of the data are copied again, or bytes from the end are not copied at all.

## Main definitions

* `PekarDrive.payloads`, `PekarDrive.copied`: the buffers, and the ranges of the data copied.
* `PekarDrive.Partitions`, `PekarDrive.Addressable`.

## Main results

* `PekarDrive.map_take_transmitChunks`: a chunk on the wire starts with its buffer.
* `PekarDrive.partitions_iff`.
-/

namespace PekarDrive

open CMemory CText

/-! ### The buffers and the ranges -/

section Definitions

variable (heap : SendHeap) (t : Transmission) (data : List UInt8)

/-- The room for data in a chunk. -/
def Transmission.dataSize : UInt32 := t.chunkSize - serializedSizeWithoutData

/-- The number of full buffers. -/
def Transmission.iterations : UInt32 := UInt32.ofNat (t.bytes.toNat / t.dataSize.toNat)

/-- The length of the data in the last buffer. -/
def Transmission.remaining : UInt32 := UInt32.ofNat (t.bytes.toNat % t.dataSize.toNat)

/-- The buffer with the index `i`, as it is handed to `init_transmission`, with `size` bytes of the
data. -/
def payload (i size : UInt32) : List UInt8 :=
  window (fillBuffer (heap.chunk i.toNat) (overlay data heap.behindData) (i * t.dataSize)
    t.dataSize size) 0 t.dataSize.toNat

/-- The buffers, in order. -/
def payloads : List (List UInt8) :=
  (List.range t.iterations.toNat).map (fun i => payload heap t data (UInt32.ofNat i) t.dataSize) ++
    [payload heap t data t.iterations t.remaining]

/-- The ranges of the data that are copied: their offsets and lengths, in order. -/
def copied : List (ℕ × ℕ) :=
  (List.range t.iterations.toNat).map
      (fun i => ((UInt32.ofNat i * t.dataSize).toNat, t.dataSize.toNat)) ++
    [((t.iterations * t.dataSize).toNat, t.remaining.toNat)]

/-- The buffers hold the data, followed by padding, and each byte of the data is copied once. -/
structure Partitions : Prop where
  /-- The buffers one after the other. -/
  flatten_eq : ∃ n, 1 ≤ n ∧ n ≤ t.dataSize.toNat ∧
    (payloads heap t data).flatten = data ++ List.replicate n pad
  /-- Each of them has the room for data in a chunk as its length. -/
  length_eq : ∀ p ∈ payloads heap t data, p.length = t.dataSize.toNat
  /-- What is copied lies inside the data. -/
  inside : ∀ r ∈ copied t, r.1 + r.2 ≤ data.length
  /-- Each byte is in one of the ranges. -/
  once : ∀ j < data.length, (copied t).countP (fun r => decide (r.1 ≤ j ∧ j < r.1 + r.2)) = 1

end Definitions

/-- The number of full buffers of `d` bytes has 32 bits, and so has the offset of the buffer in
which the last of `n` bytes lies. -/
def Addressable (n d : ℕ) : Prop := n / d < 2 ^ 32 ∧ (n = 0 ∨ (n - 1) / d * d < 2 ^ 32)

/-! ### Cutting into blocks -/

section Blocks

variable {n d : ℕ}

/-- Blocks of `d` bytes one after the other. -/
theorem flatten_blocks (data : List UInt8) (q : ℕ) :
    ((List.range q).map fun i => (data.drop (i * d)).take d).flatten = data.take (q * d) := by
  induction q with
  | zero => simp
  | succ q ih =>
    have hmul : (q + 1) * d = q * d + d := Nat.succ_mul q d
    rw [List.range_succ, List.map_append, List.flatten_append, ih, List.map_singleton,
      List.flatten_singleton, hmul, List.take_add]

/-- The byte `j` lies in the block `j / d`. -/
theorem mem_block_iff (hd : 0 < d) {i j : ℕ} : i * d ≤ j ∧ j < i * d + d ↔ i = j / d := by
  rw [eq_comm, Nat.div_eq_iff hd]
  constructor
  · rintro ⟨hle, hlt⟩
    omega
  · rintro ⟨hle, hlt⟩
    omega

/-- Of the first `m` numbers, a predicate that selects one of them selects one. -/
theorem countP_range_eq_one {m k : ℕ} (hk : k < m) {P : ℕ → Bool}
    (hP : ∀ i < m, P i = true ↔ i = k) : (List.range m).countP P = 1 := by
  have hcount : (List.range m).countP P = (List.range m).count k :=
    List.countP_congr fun i hi => by
      rw [hP i (List.mem_range.mp hi), beq_iff_eq]
  rw [hcount, List.count_eq_one_of_mem List.nodup_range (List.mem_range.mpr hk)]

end Blocks

/-! ### The ranges -/

section Ranges

variable {t : Transmission} {n : ℕ} (hbytes : t.bytes.toNat = n) (hd : 0 < t.dataSize.toNat)

include hbytes

theorem toNat_iterations : t.iterations.toNat = n / t.dataSize.toNat % 2 ^ 32 := by
  rw [Transmission.iterations, UInt32.toNat_ofNat', hbytes]

include hd

theorem toNat_remaining : t.remaining.toNat = n % t.dataSize.toNat := by
  have hlt : n % t.dataSize.toNat < 2 ^ 32 := (Nat.mod_lt n hd).trans t.dataSize.toNat_lt
  rw [Transmission.remaining, UInt32.toNat_ofNat', hbytes, Nat.mod_eq_of_lt hlt]

/-- The ranges by the index of the buffer. -/
theorem copied_eq : copied t = (List.range (t.iterations.toNat + 1)).map fun i =>
    (i * t.dataSize.toNat % 2 ^ 32,
      if i < t.iterations.toNat then t.dataSize.toNat else n % t.dataSize.toNat) := by
  have hlast : (t.iterations * t.dataSize).toNat =
      t.iterations.toNat * t.dataSize.toNat % 2 ^ 32 := UInt32.toNat_mul _ _
  rw [copied, List.range_succ, List.map_append, List.map_singleton, if_neg (lt_irrefl _), hlast,
    toNat_remaining hbytes hd]
  congr 1
  refine List.map_congr_left fun i hi => ?_
  rw [toNat_ofNat_mul, if_pos (List.mem_range.mp hi)]

/-- How often a byte is copied. -/
theorem countP_copied (j : ℕ) :
    (copied t).countP (fun r => decide (r.1 ≤ j ∧ j < r.1 + r.2)) =
      (List.range (t.iterations.toNat + 1)).countP fun i =>
        decide (i * t.dataSize.toNat % 2 ^ 32 ≤ j ∧ j < i * t.dataSize.toNat % 2 ^ 32 +
          if i < t.iterations.toNat then t.dataSize.toNat else n % t.dataSize.toNat) := by
  rw [copied_eq hbytes hd, List.countP_map]
  rfl

/-- The offset of a buffer that holds data has 32 bits. -/
theorem mul_lt_of_addressable (h : Addressable n t.dataSize.toNat) {i : ℕ}
    (hi : i * t.dataSize.toNat < n) : i * t.dataSize.toNat < 2 ^ 32 := by
  have hle : i ≤ (n - 1) / t.dataSize.toNat := (Nat.le_div_iff_mul_le hd).mpr (by omega)
  have hmul := Nat.mul_le_mul_right t.dataSize.toNat hle
  have hlast := h.2.resolve_left (by omega)
  omega

/-- **Each byte once.** -/
theorem once_of_addressable (h : Addressable n t.dataSize.toNat) {j : ℕ} (hj : j < n) :
    (copied t).countP (fun r => decide (r.1 ≤ j ∧ j < r.1 + r.2)) = 1 := by
  have hit : t.iterations.toNat = n / t.dataSize.toNat := by
    rw [toNat_iterations hbytes, Nat.mod_eq_of_lt h.1]
  have hsplit : n / t.dataSize.toNat * t.dataSize.toNat + n % t.dataSize.toNat = n :=
    Nat.div_add_mod' n _
  rw [countP_copied hbytes hd, hit]
  refine countP_range_eq_one
    (Nat.lt_succ_of_le (Nat.div_le_div_right (c := t.dataSize.toNat) hj.le)) fun i hi => ?_
  rw [decide_eq_true_iff, ← mem_block_iff hd]
  rcases Nat.lt_or_eq_of_le (Nat.le_of_lt_succ hi) with hlt | rfl
  · -- a full buffer
    have hmul : (i + 1) * t.dataSize.toNat ≤ n / t.dataSize.toNat * t.dataSize.toNat :=
      Nat.mul_le_mul_right _ hlt
    rw [Nat.succ_mul] at hmul
    have hoff := mul_lt_of_addressable hbytes hd h (i := i) (by omega)
    rw [if_pos hlt, Nat.mod_eq_of_lt hoff]
  · -- the last buffer, which may hold no data
    rw [if_neg (lt_irrefl _)]
    rcases Nat.eq_zero_or_pos (n % t.dataSize.toNat) with hzero | hpos
    · have := Nat.mod_le (n / t.dataSize.toNat * t.dataSize.toNat) (2 ^ 32)
      omega
    · have hoff := mul_lt_of_addressable hbytes hd h (i := n / t.dataSize.toNat) (by omega)
      have hlt := Nat.mod_lt n hd
      rw [Nat.mod_eq_of_lt hoff]
      omega

/-- With too many full buffers, the last byte is not copied. -/
theorem countP_copied_eq_zero (h : 2 ^ 32 ≤ n / t.dataSize.toNat) :
    (copied t).countP (fun r => decide (r.1 ≤ n - 1 ∧ n - 1 < r.1 + r.2)) = 0 := by
  have hsplit : n / t.dataSize.toNat * t.dataSize.toNat + n % t.dataSize.toNat = n :=
    Nat.div_add_mod' n _
  have hit : t.iterations.toNat + 2 ^ 32 ≤ n / t.dataSize.toNat := by
    rw [toNat_iterations hbytes]
    omega
  have hmul := Nat.mul_le_mul_right t.dataSize.toNat hit
  rw [Nat.add_mul] at hmul
  rw [countP_copied hbytes hd, List.countP_eq_zero]
  intro i hi
  rw [decide_eq_true_iff]
  rintro ⟨-, hlt⟩
  have hoff := Nat.mod_le (i * t.dataSize.toNat) (2 ^ 32)
  split at hlt
  · have hle : (i + 1) * t.dataSize.toNat ≤ t.iterations.toNat * t.dataSize.toNat :=
      Nat.mul_le_mul_right _ ‹_›
    rw [Nat.succ_mul] at hle
    omega
  · have hle : i * t.dataSize.toNat ≤ t.iterations.toNat * t.dataSize.toNat :=
      Nat.mul_le_mul_right _ (Nat.le_of_lt_succ (List.mem_range.mp hi))
    omega

/-- When an offset goes round, a byte is copied by two buffers. -/
theorem countP_copied_ne_one (hq : n / t.dataSize.toNat < 2 ^ 32) (hn : 0 < n)
    (h : 2 ^ 32 ≤ (n - 1) / t.dataSize.toNat * t.dataSize.toNat) :
    ∃ j < n, (copied t).countP (fun r => decide (r.1 ≤ j ∧ j < r.1 + r.2)) ≠ 1 := by
  -- `k` is the index of the buffer with the last byte, and `j` its offset, gone round
  obtain ⟨k, hk⟩ : ∃ k, k = (n - 1) / t.dataSize.toNat := ⟨_, rfl⟩
  rw [← hk] at h
  have hit : t.iterations.toNat = n / t.dataSize.toNat := by
    rw [toNat_iterations hbytes, Nat.mod_eq_of_lt hq]
  have hsplit : n / t.dataSize.toNat * t.dataSize.toNat + n % t.dataSize.toNat = n :=
    Nat.div_add_mod' n _
  have hlast := (mem_block_iff hd).mpr hk
  have hkq : k ≤ n / t.dataSize.toNat := hk ▸ Nat.div_le_div_right (Nat.sub_le n 1)
  let j := k * t.dataSize.toNat % 2 ^ 32
  have hj : j < 2 ^ 32 := Nat.mod_lt _ (by decide)
  refine ⟨j, by omega, fun hone => ?_⟩
  rw [countP_copied hbytes hd, hit, List.countP_eq_length_filter, List.length_eq_one_iff] at hone
  obtain ⟨i, hi⟩ := hone
  have hmem : ∀ i' ≤ n / t.dataSize.toNat, (i' * t.dataSize.toNat % 2 ^ 32 ≤ j ∧
      j < i' * t.dataSize.toNat % 2 ^ 32 + if i' < n / t.dataSize.toNat then t.dataSize.toNat
        else n % t.dataSize.toNat) → i' = i := by
    intro i' hle hin
    rw [← List.mem_singleton, ← hi, List.mem_filter]
    exact ⟨List.mem_range.mpr (Nat.lt_succ_of_le hle), decide_eq_true hin⟩
  -- the buffer in which `j` lies without going round, and the one with the last byte
  have hown := (mem_block_iff hd (i := j / t.dataSize.toNat)).mpr rfl
  have hlt : j / t.dataSize.toNat < k := by
    refine lt_of_mul_lt_mul_right (a := t.dataSize.toNat) ?_ (Nat.zero_le _)
    omega
  have hfirst := hmem (j / t.dataSize.toNat) (by omega) (by
    rw [if_pos (by omega), Nat.mod_eq_of_lt (by omega)]
    exact hown)
  have hsecond := hmem k hkq ⟨le_rfl, Nat.lt_add_of_pos_right (by
    split
    · exact hd
    · have : k = n / t.dataSize.toNat := by omega
      rw [this] at hlast
      omega)⟩
  omega

/-- Each byte is copied once exactly when the last one can be addressed. -/
theorem once_iff : (∀ j < n, (copied t).countP (fun r => decide (r.1 ≤ j ∧ j < r.1 + r.2)) = 1) ↔
    Addressable n t.dataSize.toNat := by
  refine ⟨fun hall => ?_, fun h j hj => once_of_addressable hbytes hd h hj⟩
  by_contra hnot
  rw [Addressable, not_and_or, not_lt] at hnot
  rcases Nat.lt_or_ge (n / t.dataSize.toNat) (2 ^ 32) with hq | hq
  · have hround := hnot.resolve_left (by omega)
    push Not at hround
    obtain ⟨j, hj, hne⟩ := countP_copied_ne_one hbytes hd hq (Nat.pos_of_ne_zero hround.1) hround.2
    exact hne (hall j hj)
  · have hpos : 0 < n := Nat.pos_of_ne_zero fun hzero => by simp [hzero] at hq
    have hzero := countP_copied_eq_zero hbytes hd hq
    rw [hall (n - 1) (by omega)] at hzero
    exact absurd hzero one_ne_zero

end Ranges

/-! ### The buffers -/

/-- The window of a filled buffer. -/
theorem window_fillBuffer (buffer src : Mem) (off : UInt32) {bufferSize size : UInt32}
    (hle : size ≤ bufferSize) :
    window (fillBuffer buffer src off bufferSize size) 0 bufferSize.toNat =
      window src off.toNat size.toNat ++ List.replicate (bufferSize.toNat - size.toNat) pad := by
  have hsub : (bufferSize - size).toNat = bufferSize.toNat - size.toNat :=
    UInt32.toNat_sub_of_le _ _ hle
  have hlen : (window src off.toNat size.toNat ++
      List.replicate (bufferSize - size).toNat pad).length = bufferSize.toNat := by
    rw [List.length_append, length_window, List.length_replicate, hsub]
    exact Nat.add_sub_cancel' (UInt32.le_iff_toNat_le.mp hle)
  rw [fillBuffer, if_neg (UInt32.not_lt.mpr hle),
    window_overlay_of_le _ (by rw [hlen, Nat.zero_add]),
    List.drop_zero, List.take_of_length_le hlen.le, hsub]

section Buffers

variable (heap : SendHeap) {t : Transmission} (data : List UInt8)

@[simp] theorem length_payload (i size : UInt32) :
    (payload heap t data i size).length = t.dataSize.toNat := length_window _ _ _

/-- A chunk on the wire starts with its buffer. -/
theorem map_take_transmitChunks (h : serializedSizeWithoutData < t.chunkSize) :
    (transmitChunks heap t data).map (List.take t.dataSize.toNat) = payloads heap t data := by
  have hle : t.dataSize.toNat ≤ t.chunkSize.toNat := by
    rw [Transmission.dataSize, UInt32.toNat_sub_of_le _ _ (UInt32.le_of_lt h)]
    exact Nat.sub_le _ _
  have htake : ∀ m : Mem, (connWrite m t.chunkSize.toNat).take t.dataSize.toNat =
      window m 0 t.dataSize.toNat := fun m => by
    rw [connWrite, ← Nat.add_sub_cancel' hle, window_add, List.take_left' (length_window _ _ _)]
  simp only [transmitChunks, List.map_append, List.map_map, List.map_singleton, htake, payloads]
  congr 1
  exact List.map_congr_left fun i _ => htake _

variable {data} (hbytes : t.bytes.toNat = data.length)
  (h : Addressable data.length t.dataSize.toNat)

include hbytes h

theorem toNat_iterations_of_addressable :
    t.iterations.toNat = data.length / t.dataSize.toNat := by
  rw [toNat_iterations hbytes, Nat.mod_eq_of_lt h.1]

variable (hd : 0 < t.dataSize.toNat)

include hd

/-- A full buffer holds its block of the data. -/
theorem payload_dataSize {i : ℕ} (hi : i < data.length / t.dataSize.toNat) :
    payload heap t data (UInt32.ofNat i) t.dataSize =
      (data.drop (i * t.dataSize.toNat)).take t.dataSize.toNat := by
  have hmul : (i + 1) * t.dataSize.toNat ≤ data.length := (Nat.le_div_iff_mul_le hd).mp hi
  rw [Nat.succ_mul] at hmul
  have hoff := mul_lt_of_addressable hbytes hd h (i := i) (by omega)
  rw [payload, window_fillBuffer _ _ _ (UInt32.le_refl _), toNat_ofNat_mul,
    Nat.mod_eq_of_lt hoff, Nat.sub_self,
    List.replicate_zero, List.append_nil, window_overlay_of_le _ hmul]

/-- The last buffer holds the rest of the data, and padding. -/
theorem payload_remaining : payload heap t data t.iterations t.remaining =
    data.drop (data.length / t.dataSize.toNat * t.dataSize.toNat) ++
      List.replicate (t.dataSize.toNat - data.length % t.dataSize.toNat) pad := by
  have hrem := toNat_remaining hbytes hd
  have hsplit : data.length / t.dataSize.toNat * t.dataSize.toNat +
      data.length % t.dataSize.toNat = data.length := Nat.div_add_mod' _ _
  have hle : t.remaining ≤ t.dataSize := by
    rw [UInt32.le_iff_toNat_le, hrem]
    exact (Nat.mod_lt _ hd).le
  rw [payload, window_fillBuffer _ _ _ hle, hrem, UInt32.toNat_mul,
    toNat_iterations_of_addressable hbytes h]
  congr 1
  rcases Nat.eq_zero_or_pos (data.length % t.dataSize.toNat) with hzero | hpos
  · rw [hzero, window_zero, List.drop_eq_nil_of_le (by omega)]
  · have hoff := mul_lt_of_addressable hbytes hd h (i := data.length / t.dataSize.toNat) (by omega)
    rw [Nat.mod_eq_of_lt hoff, window_overlay_of_le _ (by omega), List.take_of_length_le]
    rw [List.length_drop]
    omega

/-- **The buffers one after the other.** -/
theorem flatten_payloads : (payloads heap t data).flatten =
    data ++ List.replicate (t.dataSize.toNat - data.length % t.dataSize.toNat) pad := by
  have hfull : (List.range (data.length / t.dataSize.toNat)).map
        (fun i => payload heap t data (UInt32.ofNat i) t.dataSize) =
      (List.range (data.length / t.dataSize.toNat)).map
        (fun i => (data.drop (i * t.dataSize.toNat)).take t.dataSize.toNat) :=
    List.map_congr_left fun i hi => payload_dataSize heap hbytes h hd (List.mem_range.mp hi)
  rw [payloads, toNat_iterations_of_addressable hbytes h, List.flatten_append, hfull,
    flatten_blocks, List.flatten_singleton, payload_remaining heap hbytes h hd, ← List.append_assoc,
    List.take_append_drop]

/-- The ranges lie inside the data. -/
theorem le_length_of_mem_copied {r : ℕ × ℕ} (hr : r ∈ copied t) : r.1 + r.2 ≤ data.length := by
  have hsplit : data.length / t.dataSize.toNat * t.dataSize.toNat +
      data.length % t.dataSize.toNat = data.length := Nat.div_add_mod' _ _
  rw [copied_eq hbytes hd, toNat_iterations_of_addressable hbytes h] at hr
  obtain ⟨i, hi, rfl⟩ := List.mem_map.mp hr
  have hoff := Nat.mod_le (i * t.dataSize.toNat) (2 ^ 32)
  simp only
  split
  · have hmul : (i + 1) * t.dataSize.toNat ≤ data.length := (Nat.le_div_iff_mul_le hd).mp ‹_›
    rw [Nat.succ_mul] at hmul
    omega
  · have hmul := Nat.mul_le_mul_right t.dataSize.toNat
      (Nat.le_of_lt_succ (List.mem_range.mp hi))
    omega

theorem partitions_of_addressable : Partitions heap t data := by
  have hlt := Nat.mod_lt data.length hd
  refine ⟨⟨_, Nat.sub_pos_of_lt hlt, Nat.sub_le _ _, flatten_payloads heap hbytes h hd⟩,
    fun p hp => ?_, fun r hr => le_length_of_mem_copied hbytes h hd hr,
    fun j hj => once_of_addressable hbytes hd h hj⟩
  rcases List.mem_append.mp hp with hp | hp
  · obtain ⟨i, -, rfl⟩ := List.mem_map.mp hp
    exact length_payload heap data _ _
  · rw [List.mem_singleton.mp hp]
    exact length_payload heap data _ _

end Buffers

/-! ### New instances -/

section Init

variable {c : UInt16} (hc : 72 < c.toNat) (connection : Conn) (behind : Mem) {data : List UInt8}

include hc in
theorem toNat_dataSize_initTransmission (m : Option Mem) (size : UInt64) :
    (initTransmission c connection m size).dataSize.toNat = c.toNat - 72 := by
  have hle : serializedSizeWithoutData ≤ (initTransmission c connection m size).chunkSize := by
    rw [UInt32.le_iff_toNat_le, chunkSize_initTransmission, UInt16.toNat_toUInt32]
    exact hc.le
  rw [Transmission.dataSize, UInt32.toNat_sub_of_le _ _ hle, chunkSize_initTransmission,
    UInt16.toNat_toUInt32]
  rfl

/-- The instance for some data. -/
def sendingFrom (c : UInt16) (connection : Conn) (behind : Mem) (data : List UInt8) :
    Transmission :=
  initTransmission c connection (some (overlay data behind)) (UInt64.ofNat data.length)

theorem toNat_bytes_sendingFrom (hn : data.length < 2 ^ 53) :
    (sendingFrom c connection behind data).bytes.toNat = data.length :=
  UInt64.toNat_ofNat'.trans (Nat.mod_eq_of_lt (by omega))

include hc in
/-- Without a 32-bit offset for the last byte, some byte is not copied once. -/
theorem addressable_of_partitions {heap : SendHeap} (hn : data.length < 2 ^ 53)
    (h : Partitions heap (sendingFrom c connection behind data) data) :
    Addressable data.length (c.toNat - 72) := by
  have hsize : (sendingFrom c connection behind data).dataSize.toNat = c.toNat - 72 :=
    toNat_dataSize_initTransmission hc connection _ _
  rw [← hsize]
  exact (once_iff (toNat_bytes_sendingFrom connection behind hn) (by omega)).mp h.once

end Init

/-- **The partition.** For every length below `2 ^ 53` and every chunk size with room for data, the
buffers of `transmit` hold the data once, followed by padding, if and only if the last byte can be
addressed with 32 bits. -/
theorem partitions_iff {c : UInt16} (hc : 72 < c.toNat) (connection : Conn) (heap : SendHeap)
    (behind : Mem) {data : List UInt8} (hn : data.length < 2 ^ 53) :
    Partitions heap (sendingFrom c connection behind data) data ↔
      Addressable data.length (c.toNat - 72) := by
  have hsize : (sendingFrom c connection behind data).dataSize.toNat = c.toNat - 72 :=
    toNat_dataSize_initTransmission hc connection _ _
  refine ⟨addressable_of_partitions hc connection behind hn, fun h => ?_⟩
  rw [← hsize] at h
  exact partitions_of_addressable heap (toNat_bytes_sendingFrom connection behind hn) h (by omega)

/-- The message of the tests with the default chunk size. -/
theorem partitions_test : Partitions ⟨fun _ => 0, fun _ _ => 0⟩
    (sendingFrom 200 ⟨0, none, 3, 0⟩ (fun _ => 0) (ascii "Test")) (ascii "Test") :=
  (partitions_iff (by decide) _ _ _ (by decide)).2 ⟨by decide, .inr (by decide)⟩

/-- The last one of `2 ^ 32 + 1` bytes is behind the reach of the offsets. -/
theorem not_forall_partitions : ¬ ∀ (c : UInt16) (connection : Conn) (heap : SendHeap)
    (behind : Mem) (data : List UInt8), 72 < c.toNat → data.length < 2 ^ 53 →
      Partitions heap (sendingFrom c connection behind data) data := by
  intro h
  have hc : 72 < (200 : UInt16).toNat := by decide
  have hlength : (List.replicate (2 ^ 32 + 1) (0 : UInt8)).length = 2 ^ 32 + 1 :=
    List.length_replicate
  have hn : (List.replicate (2 ^ 32 + 1) (0 : UInt8)).length < 2 ^ 53 := by
    rw [hlength]
    decide
  have haddr := addressable_of_partitions hc ⟨0, none, 3, 0⟩ (fun _ => 0) hn
    (h 200 ⟨0, none, 3, 0⟩ ⟨fun _ => 0, fun _ _ => 0⟩ (fun _ => 0) _ hc hn)
  rw [hlength] at haddr
  exact absurd haddr.2 (by decide)

end PekarDrive
