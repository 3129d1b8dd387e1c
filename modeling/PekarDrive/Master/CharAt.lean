import PekarDrive.Master.Strings

/-!
# Searching a string

`char_at` of `src/master.c` searches a string for a character. It compares before it tests for the
end, and its length has 32 bits: on the empty string the test comes too late, and of a longer
string it looks at as many characters as the length leaves modulo `2 ^ 32`. `exec_long` calls it
with the argument of every WRITE, which may be empty.

## Main definitions

* `PekarDrive.FindsFirst`.

## Main results

* `PekarDrive.findsFirst_iff`.
-/

namespace PekarDrive

open CMemory CText

/-- On the string `s`, with the bytes `behind` behind its terminator, `char_at` ends, has read
characters of the string only, and returns the index of the first occurrence of `c`, or `-1` when
there is none. -/
def FindsFirst (s : CString) (c : UInt8) (behind : List UInt8) : Prop :=
  ∃ r ∈ charAtReads c (UInt32.ofNat s.strlen) (s.bytes ++ 0 :: behind) 0,
    (∀ o ∈ r.offsets, o < s.strlen) ∧
    r.val = if c ∈ s.bytes then (s.bytes.idxOf c : ℤ) else -1

section Search

variable {s : CString} {c : UInt8} {behind : List UInt8}

/-- What the search reads and finds. -/
theorem charAtReads_text (s : CString) (c : UInt8) (behind : List UInt8) :
    charAtReads c (UInt32.ofNat s.strlen) (s.bytes ++ 0 :: behind) 0 =
      match ((s.bytes ++ 0 :: behind).take (searchLength s.bytes)).findIdx? fun b => b == c with
      | some k => some ⟨(k : ℤ), List.range (k + 1)⟩
      | none => if searchLength s.bytes ≤ (s.bytes ++ 0 :: behind).length then
          some ⟨-1, List.range (searchLength s.bytes)⟩ else none := by
  have hmemory := charAtReads_strlen (s.bytes ++ 0 :: behind) c
  have hlength : searchLength (s.bytes ++ 0 :: behind) = searchLength s.bytes := by
    rw [searchLength, searchLength, CString.ofMemory_append_zero, CString.ofMemory_bytes]
  rwa [CString.ofMemory_append_zero, hlength] at hmemory

/-- Of a string that is not empty, no more characters are searched than it has. -/
theorem searchLength_le_strlen (hne : s.bytes ≠ []) : searchLength s.bytes ≤ s.strlen := by
  have hle := @searchLength_le s.bytes (by rwa [CString.ofMemory_bytes])
  rwa [CString.ofMemory_bytes] at hle

/-- The first character is read, whatever it is. -/
theorem zero_mem_offsets {r : Reads ℤ}
    (hr : r ∈ charAtReads c (UInt32.ofNat s.strlen) (s.bytes ++ 0 :: behind) 0) :
    0 ∈ r.offsets := by
  rw [charAtReads_text, Option.mem_def] at hr
  split at hr
  · obtain rfl := Option.some.inj hr
    exact List.mem_range.mpr (Nat.succ_pos _)
  · split_ifs at hr
    obtain rfl := Option.some.inj hr
    exact List.mem_range.mpr (searchLength_pos _)

/-- In a string that is not empty, the characters that the counter allows are searched. -/
theorem charAtReads_of_ne_nil (hne : s.bytes ≠ []) (c : UInt8) (behind : List UInt8) :
    charAtReads c (UInt32.ofNat s.strlen) (s.bytes ++ 0 :: behind) 0 =
      if c ∈ s.bytes.take (searchLength s.bytes) then
        some ⟨(s.bytes.idxOf c : ℤ), List.range (s.bytes.idxOf c + 1)⟩
      else some ⟨-1, List.range (searchLength s.bytes)⟩ := by
  have hle := searchLength_le_strlen hne
  have htake : (s.bytes ++ 0 :: behind).take (searchLength s.bytes) =
      s.bytes.take (searchLength s.bytes) := List.take_append_of_le_length hle
  rw [charAtReads_text, htake]
  by_cases hc : c ∈ s.bytes.take (searchLength s.bytes)
  · have hfind : (s.bytes.take (searchLength s.bytes)).findIdx? (fun b => b == c) =
        some ((s.bytes.take (searchLength s.bytes)).idxOf c) :=
      List.findIdx?_eq_some_of_exists ⟨c, hc, beq_self_eq_true c⟩
    have hindex : (s.bytes.take (searchLength s.bytes)).idxOf c = s.bytes.idxOf c := by
      conv_rhs => rw [← List.take_append_drop (searchLength s.bytes) s.bytes]
      exact (List.idxOf_append_of_mem hc).symm
    rw [if_pos hc, hfind, hindex]
  · have hfind : (s.bytes.take (searchLength s.bytes)).findIdx? (fun b => b == c) = none := by
      rw [List.findIdx?_eq_none_iff]
      exact fun b hb => beq_eq_false_iff_ne.mpr (ne_of_mem_of_not_mem hb hc)
    have hroom : searchLength s.bytes ≤ (s.bytes ++ 0 :: behind).length := by
      rw [List.length_append]
      exact hle.trans (Nat.le_add_right _ _)
    rw [if_neg hc, hfind]
    exact if_pos hroom

end Search

/-- **Searching a string.** For every string and every character, whatever lies behind the string:
`char_at` ends within the string and finds the first occurrence, if and only if the string is not
empty and the character, if it occurs, is among those that the counter allows. -/
theorem findsFirst_iff (s : CString) (c : UInt8) (behind : List UInt8) :
    FindsFirst s c behind ↔ s.bytes ≠ [] ∧
      (c ∈ s.bytes → c ∈ s.bytes.take (searchLength s.bytes)) := by
  by_cases hnil : s.bytes = []
  · refine iff_of_false ?_ fun h => h.1 hnil
    rintro ⟨r, hr, hoffsets, -⟩
    have hlt := hoffsets 0 (zero_mem_offsets hr)
    rw [CString.strlen, hnil] at hlt
    exact absurd hlt (Nat.not_lt_zero 0)
  · have hle := searchLength_le_strlen hnil
    rw [FindsFirst, charAtReads_of_ne_nil hnil, and_iff_right hnil]
    by_cases hc : c ∈ s.bytes.take (searchLength s.bytes)
    · have hmem : c ∈ s.bytes := List.mem_of_mem_take hc
      have hlt : s.bytes.idxOf c < s.strlen := List.idxOf_lt_length_of_mem hmem
      refine iff_of_true ⟨_, if_pos hc, fun o ho => ?_, (if_pos hmem).symm⟩ fun _ => hc
      exact (Nat.lt_succ_iff.mp (List.mem_range.mp ho)).trans_lt hlt
    · rw [if_neg hc]
      constructor
      · rintro ⟨r, hr, -, hval⟩ hmem
        obtain rfl := Option.some.inj hr
        rw [if_pos hmem] at hval
        exact absurd hval (by simp only; omega)
      · intro hmem
        refine ⟨_, rfl, fun o ho => (List.mem_range.mp ho).trans_le hle, ?_⟩
        exact (if_neg (mt hmem hc)).symm

/-- On the empty string the search goes on behind the terminator. -/
theorem not_forall_findsFirst : ¬ ∀ (s : CString) (c : UInt8) (behind : List UInt8), c ≠ 0 →
    FindsFirst s c behind := by
  intro h
  obtain ⟨r, hr, hoffsets, -⟩ := h (lit "") semicolon [] (by decide)
  exact absurd (hoffsets 0 (zero_mem_offsets hr)) (by decide)

end PekarDrive
