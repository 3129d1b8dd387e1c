import PekarDrive.Foundation.Memory
import PekarDrive.Foundation.Text

/-!
# Blocks that are read as strings

A block is what lies in an allocation: the bytes that have been stored from its start on, as far as
it reaches, and fresh memory behind them (`CMemory.filled`). It holds a string when it starts with
the bytes of the string and a terminator; then, and only then, a reader gets the string whatever
lies behind the allocation (`CText.holdsString_iff_forall`).

An allocator may give a block more room than was asked for. What is stored beyond this room lies in
memory that belongs to something else.

## Main definitions

* `CMemory.filled`, `CText.HoldsString`.
* `CMemory.Allocator`.

## Main results

* `CText.holdsString_iff_forall`.
* `CText.holdsString_filled_iff`, `CText.holdsString_strncpy_iff`: blocks that are filled by
  `memcpy` and by `strncpy`.
-/

namespace CMemory

/-- A block of `size` bytes in which some bytes have been stored. -/
def filled (size : ℕ) (stored : List UInt8) (fresh : Mem) : List UInt8 :=
  window (overlay stored fresh) 0 size

theorem filled_eq (size : ℕ) (stored : List UInt8) (fresh : Mem) : filled size stored fresh =
    stored.take size ++ window fresh stored.length (size - stored.length) :=
  window_overlay_zero stored fresh size

@[simp] theorem length_filled (size : ℕ) (stored : List UInt8) (fresh : Mem) :
    (filled size stored fresh).length = size := length_window _ _ _

/-- How much room an allocator gives to a block of a size. -/
structure Allocator where
  /-- The bytes that may be stored from the start of the block on. -/
  usable : ℕ → ℕ
  /-- The block has its size at least. -/
  le_usable : ∀ n, n ≤ usable n

/-- An allocator whose blocks, with 8 bytes for itself, are multiples of 16 and have 32 at least. -/
def roundedAllocator : Allocator where
  usable n := max 24 ((n + 23) / 16 * 16 - 8)
  le_usable n := by omega

end CMemory

namespace CText

open CMemory

/-- The block starts with the bytes of the string and its terminator. -/
def HoldsString (block intended : List UInt8) : Prop := 0 ∉ intended ∧ intended ++ [0] <+: block

instance (block intended : List UInt8) : Decidable (HoldsString block intended) :=
  inferInstanceAs (Decidable (_ ∧ _))

section Holds

variable {block intended : List UInt8}

theorem HoldsString.length_lt (h : HoldsString block intended) :
    intended.length < block.length := by
  have hle := h.2.length_le
  rw [List.length_append, List.length_singleton] at hle
  exact hle

/-- **Reading a block.** The string is read whatever lies behind the block if and only if the block
holds it. -/
theorem holdsString_iff_forall {s : CString} :
    HoldsString block s.bytes ↔ ∀ behind, CString.ofMemory (block ++ behind) = s := by
  constructor
  · rintro ⟨-, post, rfl⟩ behind
    rw [List.append_assoc, List.append_assoc, List.singleton_append,
      CString.ofMemory_append_zero]
  · intro h
    have hzero : 0 ∈ block := by
      -- without a terminator, what lies behind the block shows
      by_contra hnot
      have hnil := congrArg CString.bytes (h [])
      have hone := congrArg CString.bytes (h [1])
      rw [CString.bytes_ofMemory_append hnot, ← hnil, CString.bytes_ofMemory_append hnot] at hone
      exact absurd (List.append_cancel_left hone) (by decide)
    obtain ⟨pre, post, rfl, hpre⟩ := List.eq_append_cons_of_mem hzero
    have hs : (⟨pre, hpre⟩ : CString) = s := by
      rw [← h [], List.append_assoc]
      exact (CString.ofMemory_append_zero ⟨pre, hpre⟩ _).symm
    rw [← hs]
    exact ⟨hpre, post, by simp⟩

/-- A block that is filled by `memcpy`. -/
theorem holdsString_filled_iff {size : ℕ} {fresh : Mem} :
    HoldsString (filled size intended fresh) intended ↔
      0 ∉ intended ∧ intended.length < size ∧ fresh intended.length = 0 := by
  refine and_congr_right fun _ => ?_
  constructor
  · intro h
    have hlt : intended.length < size := by
      have hle := h.length_le
      rw [length_filled, List.length_append, List.length_singleton] at hle
      exact hle
    refine ⟨hlt, ?_⟩
    have hbyte := List.prefix_iff_getElem?.mp h intended.length (by simp)
    rw [filled, getElem?_window hlt, Nat.zero_add, overlay_of_le fresh le_rfl] at hbyte
    simpa using hbyte
  · rintro ⟨hlt, hzero⟩
    obtain ⟨n, rfl⟩ := Nat.exists_eq_add_of_lt hlt
    have hbehind : intended.length + n + 1 - intended.length = n + 1 := by omega
    rw [filled_eq, List.take_of_length_le (by omega), hbehind, window_succ, hzero]
    exact ⟨window fresh (intended.length + 1) n, by simp⟩

theorem strncpy_of_le {m : List UInt8} {n : ℕ} (h : n ≤ (CString.ofMemory m).strlen) :
    strncpy m n = (CString.ofMemory m).bytes.take n := by
  rw [strncpy, List.take_append_of_le_length h]

theorem strncpy_of_lt {m : List UInt8} {n : ℕ} (h : (CString.ofMemory m).strlen < n) :
    strncpy m n = (CString.ofMemory m).bytes ++
      0 :: List.replicate (n - (CString.ofMemory m).strlen - 1) 0 := by
  rw [CString.strlen] at h ⊢
  obtain ⟨k, rfl⟩ := Nat.exists_eq_add_of_lt h
  rw [strncpy, Nat.add_assoc, List.take_length_add_append, List.take_replicate,
    Nat.add_sub_cancel_left, Nat.add_sub_cancel, Nat.min_eq_left (Nat.le_add_left _ _),
    List.replicate_succ]

/-- A block that is filled by `strncpy`: the string is shorter than the count, and its padding
reaches the block, or the count ends it and a fresh byte happens to be zero. -/
theorem holdsString_strncpy_iff {m : List UInt8} {n size : ℕ} {fresh : Mem} :
    HoldsString (filled size (strncpy m n) fresh) ((CString.ofMemory m).bytes.take n) ↔
      ((CString.ofMemory m).strlen < n ∧ (CString.ofMemory m).strlen < size) ∨
      (n ≤ (CString.ofMemory m).strlen ∧ n < size ∧ fresh n = 0) := by
  rcases Nat.lt_or_ge (CString.ofMemory m).strlen n with h | h
  · have htake : (CString.ofMemory m).bytes.take n = (CString.ofMemory m).bytes :=
      List.take_of_length_le (le_of_lt h)
    rw [htake, strncpy_of_lt h]
    simp only [h, true_and, not_le.mpr h, false_and, or_false]
    constructor
    · intro hholds
      have hlt := hholds.length_lt
      rw [length_filled] at hlt
      exact hlt
    intro hsize
    have hstart : (CString.ofMemory m).bytes ++ [0] <+: (CString.ofMemory m).bytes ++
        0 :: List.replicate (n - (CString.ofMemory m).strlen - 1) 0 :=
      ⟨List.replicate (n - (CString.ofMemory m).strlen - 1) 0, by simp⟩
    refine ⟨(CString.ofMemory m).nulFree, ?_⟩
    rw [filled_eq]
    refine (List.prefix_take_iff.mpr ⟨hstart, ?_⟩).trans (List.prefix_append _ _)
    rw [List.length_append, List.length_singleton]
    exact hsize
  · have hlength : ((CString.ofMemory m).bytes.take n).length = n := List.length_take_of_le h
    have hnul : 0 ∉ (CString.ofMemory m).bytes.take n :=
      fun hmem => (CString.ofMemory m).nulFree (List.mem_of_mem_take hmem)
    rw [strncpy_of_le h, holdsString_filled_iff, hlength]
    simp only [hnul, not_false_eq_true, true_and, not_lt.mpr h, false_and, false_or, h]

end Holds

end CText
