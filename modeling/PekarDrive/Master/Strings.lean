import PekarDrive.Foundation.Memory
import PekarDrive.Foundation.Text

/-!
# The string functions of the master

`char_at`, `parse_ip`, `parse_port` and `long2str` of `src/master.c`. Their arguments point into
the block that `p_decode` has allocated, which carries no terminator, so they are functions of
the memory at the pointer, up to the end of the mapped region.

`char_at` compares before it tests for the end, and its counters are 32-bit numbers: on the empty
string it searches the memory behind the terminator until the counter has gone round.

## Main definitions

* `PekarDrive.charAt`: the index found, `-1`, or nothing when the search leaves the mapped region.
* `PekarDrive.charAtReads`: the same search, with the indices that it reads.
* `PekarDrive.parseIp`, `PekarDrive.parsePort`, `PekarDrive.long2str`.

## Main results

* `PekarDrive.charAt_eq`: what the search finds.
* `PekarDrive.charAt_append`: the first occurrence is found.
* `PekarDrive.exists_charAt_eq_some`: on a nonempty string the search ends inside the string.
* `PekarDrive.pos_of_charAt`: on the empty string it finds nothing in front of the terminator.
-/

namespace PekarDrive

open CMemory CText

/-- The loop of `char_at`, over the memory from `str + index` on. -/
def charAtLoop (c : UInt8) (size : UInt32) : List UInt8 → UInt32 → Option ℤ
  | [], _ => none
  | b :: bs, index =>
    if b = c then some index.toNat
    else if index + 1 = size then some (-1)
    else charAtLoop c size bs (index + 1)

/-- `char_at`. -/
def charAt (str : List UInt8) (c : UInt8) : Option ℤ :=
  charAtLoop c (UInt32.ofNat (CString.ofMemory str).strlen) str 0

/-- The loop of `char_at`, with the indices that it reads. -/
def charAtReads (c : UInt8) (size : UInt32) : List UInt8 → UInt32 → Option (Reads ℤ)
  | [], _ => none
  | b :: bs, index =>
    if b = c then some ⟨index.toNat, [index.toNat]⟩
    else if index + 1 = size then some ⟨-1, [index.toNat]⟩
    else (charAtReads c size bs (index + 1)).map fun r => ⟨r.val, index.toNat :: r.offsets⟩

/-- The separator `';'` of arguments. -/
def semicolon : UInt8 := 59

/-- `parse_ip`: the block that is returned. Without a separator `strncpy` gets the length `-1` as
a `size_t` and fills memory beyond any block. -/
def parseIp (str : List UInt8) : Option (List UInt8) :=
  match charAt str semicolon with
  | none => none
  | some separator => if separator < 0 then none else some (strncpy str separator.toNat)

/-- `parse_port`: the low 16 bits of what `atoi` reads behind the separator. -/
def parsePort (str : List UInt8) : Option UInt16 :=
  match charAt str semicolon with
  | none => none
  | some separator =>
    some (UInt16.ofNat (atoi (CString.ofMemory (str.drop (separator + 1).toNat)) % 2 ^ 16).toNat)

/-- `long2str`. -/
def long2str (val : ℤ) : CString := CString.ofMemory (decimalInt val)

theorem bytes_long2str (val : ℤ) : (long2str val).bytes = decimalInt val :=
  congrArg CString.bytes (CString.ofMemory_bytes ⟨decimalInt val, zero_notMem_decimalInt val⟩)

/-! ### Where the search ends -/

/-- After how many characters the counter of `char_at` meets the length, of which it has 32 bits. -/
def searchLength (str : List UInt8) : ℕ :=
  if (CString.ofMemory str).strlen % 2 ^ 32 = 0 then 2 ^ 32
  else (CString.ofMemory str).strlen % 2 ^ 32

/-- The indices are read for the value of the loop. -/
theorem map_val_charAtReads (c : UInt8) (size : UInt32) (m : List UInt8) (index : UInt32) :
    (charAtReads c size m index).map Reads.val = charAtLoop c size m index := by
  induction m generalizing index with
  | nil => rfl
  | cons b bs ih =>
    rw [charAtReads, charAtLoop]
    split_ifs
    · rfl
    · rfl
    · rw [← ih, Option.map_map]
      rfl

/-- The loop with `n` characters left reads the indices up to the one it stops at. -/
theorem charAtReads_eq (c : UInt8) {size : UInt32} {m : List UInt8} {n i : ℕ} (hn : 0 < n)
    (hle : i + n ≤ 2 ^ 32) (hsize : UInt32.ofNat (i + n) = size) :
    charAtReads c size m (UInt32.ofNat i) =
      match (m.take n).findIdx? fun b => b == c with
      | some k => some ⟨((i + k : ℕ) : ℤ), List.range' i (k + 1)⟩
      | none => if n ≤ m.length then some ⟨-1, List.range' i n⟩ else none := by
  induction m generalizing n i with
  | nil =>
    rw [List.take_nil, charAtReads]
    simp only [List.findIdx?_nil, List.length_nil]
    rw [if_neg (by omega)]
  | cons b bs ih =>
    obtain ⟨n, rfl⟩ := Nat.exists_eq_succ_of_ne_zero hn.ne'
    have hindex : (UInt32.ofNat i).toNat = i := toNat_counter (by omega)
    rw [charAtReads, List.take_succ_cons, List.findIdx?_cons, counter_add_one, hindex]
    by_cases hb : b = c
    · rw [if_pos hb, if_pos (beq_iff_eq.mpr hb)]
      rfl
    · rw [if_neg hb, if_neg fun h => hb (beq_iff_eq.mp h)]
      by_cases hlast : n = 0
      · -- the counter meets the length
        subst hlast
        rw [if_pos hsize, List.take_zero]
        simp
      · have hend : UInt32.ofNat (i + 1) ≠ size := by
          rw [← hsize]
          exact counter_ne i.succ_pos (by omega) hle
        rw [if_neg hend, ih (Nat.pos_of_ne_zero hlast) (by omega)
          (by rw [← hsize, Nat.add_right_comm, Nat.add_assoc])]
        cases (bs.take n).findIdx? fun b => b == c with
        | none =>
          simp only [Option.map_none, List.length_cons, Nat.succ_le_succ_iff]
          split_ifs <;> rfl
        | some k =>
          simp only [Option.map_some, Nat.add_right_comm, Nat.add_assoc]
          rfl

theorem charAtLoop_eq (c : UInt8) {size : UInt32} {m : List UInt8} {n i : ℕ} (hn : 0 < n)
    (hle : i + n ≤ 2 ^ 32) (hsize : UInt32.ofNat (i + n) = size) :
    charAtLoop c size m (UInt32.ofNat i) =
      match (m.take n).findIdx? fun b => b == c with
      | some k => some ((i + k : ℕ) : ℤ)
      | none => if n ≤ m.length then some (-1) else none := by
  rw [← map_val_charAtReads, charAtReads_eq c hn hle hsize]
  cases (m.take n).findIdx? fun b => b == c with
  | none =>
    simp only
    split_ifs <;> rfl
  | some k => rfl

theorem searchLength_pos (str : List UInt8) : 0 < searchLength str := by
  rw [searchLength]
  split_ifs with h
  · decide
  · exact Nat.pos_of_ne_zero h

theorem zero_add_searchLength_le (str : List UInt8) : 0 + searchLength str ≤ 2 ^ 32 := by
  rw [searchLength]
  split_ifs <;> omega

/-- The counter meets the length there. -/
theorem ofNat_searchLength (str : List UInt8) :
    UInt32.ofNat (0 + searchLength str) = UInt32.ofNat (CString.ofMemory str).strlen := by
  rw [← UInt32.toNat_inj, UInt32.toNat_ofNat', UInt32.toNat_ofNat', Nat.zero_add, searchLength]
  split_ifs <;> omega

/-- **`char_at`.** The first occurrence among the characters that the counter allows, or `-1` behind
them. -/
theorem charAt_eq (str : List UInt8) (c : UInt8) : charAt str c =
    match (str.take (searchLength str)).findIdx? fun b => b == c with
    | some k => some (k : ℤ)
    | none => if searchLength str ≤ str.length then some (-1) else none := by
  have hloop := charAtLoop_eq c (m := str) (searchLength_pos str) (zero_add_searchLength_le str)
    (ofNat_searchLength str)
  rw [charAt, show (0 : UInt32) = UInt32.ofNat 0 from rfl, hloop]
  simp only [Nat.zero_add]

/-- The indices up to there are read. -/
theorem charAtReads_strlen (str : List UInt8) (c : UInt8) :
    charAtReads c (UInt32.ofNat (CString.ofMemory str).strlen) str 0 =
      match (str.take (searchLength str)).findIdx? fun b => b == c with
      | some k => some ⟨(k : ℤ), List.range (k + 1)⟩
      | none => if searchLength str ≤ str.length then some ⟨-1, List.range (searchLength str)⟩
        else none := by
  have hloop := charAtReads_eq c (m := str) (searchLength_pos str) (zero_add_searchLength_le str)
    (ofNat_searchLength str)
  rw [show (0 : UInt32) = UInt32.ofNat 0 from rfl, hloop]
  simp only [Nat.zero_add, List.range_eq_range']

/-- In a nonempty string, the search stays in the string. -/
theorem searchLength_le {str : List UInt8} (hne : (CString.ofMemory str).bytes ≠ []) :
    searchLength str ≤ (CString.ofMemory str).strlen := by
  have hpos : 0 < (CString.ofMemory str).strlen := List.length_pos_iff.mpr hne
  rw [searchLength]
  split_ifs <;> omega

theorem strlen_ofMemory_le (str : List UInt8) : (CString.ofMemory str).strlen ≤ str.length :=
  (List.takeWhile_sublist _).length_le

/-- The first occurrence, among the first `n` elements. -/
theorem findIdx?_take_append {c : UInt8} {xs : List UInt8} (hxs : c ∉ xs) (rest : List UInt8)
    {n : ℕ} (hn : xs.length < n) :
    ((xs ++ c :: rest).take n).findIdx? (fun b => b == c) = some xs.length := by
  obtain ⟨k, rfl⟩ := Nat.exists_eq_add_of_lt hn
  have hnone : xs.findIdx? (fun b => b == c) = none := by
    rw [List.findIdx?_eq_none_iff]
    rintro b hb
    exact beq_eq_false_iff_ne.mpr (ne_of_mem_of_not_mem hb hxs)
  rw [Nat.add_assoc, List.take_length_add_append, List.take_succ_cons, List.findIdx?_append, hnone,
    List.findIdx?_cons]
  simp

/-- The first occurrence of the character is found in a string whose length fits its counter. -/
theorem charAt_append {c : UInt8} {xs : List UInt8} (hxs : c ∉ xs) (h0 : 0 ∉ xs) (hc : c ≠ 0)
    {rest : List UInt8} (hlen : xs.length + 1 + (CString.ofMemory rest).strlen ≤ 2 ^ 32) :
    charAt (xs ++ c :: rest) c = some (xs.length : ℤ) := by
  have hstrlen : (CString.ofMemory (xs ++ c :: rest)).strlen =
      xs.length + 1 + (CString.ofMemory rest).strlen := by
    rw [CString.strlen, CString.bytes_ofMemory_append h0, CString.bytes_ofMemory,
      List.takeWhile_cons_of_pos (by simpa using hc), List.length_append, List.length_cons]
    simp only [CString.strlen, CString.bytes_ofMemory]
    omega
  have hlt : xs.length < searchLength (xs ++ c :: rest) := by
    rw [searchLength, hstrlen]
    split_ifs <;> omega
  rw [charAt_eq, findIdx?_take_append hxs rest hlt]

/-- On a nonempty string the search ends, and an index found lies inside the string. -/
theorem exists_charAt_eq_some {str : List UInt8} (c : UInt8)
    (hne : (CString.ofMemory str).bytes ≠ []) :
    ∃ r, charAt str c = some r ∧ (r = -1 ∨ ∃ j : ℕ, r = j ∧ j < (CString.ofMemory str).strlen) := by
  have hle := searchLength_le hne
  rw [charAt_eq]
  cases hfind : (str.take (searchLength str)).findIdx? fun b => b == c with
  | none => exact ⟨-1, if_pos (hle.trans (strlen_ofMemory_le str)), .inl rfl⟩
  | some k =>
    obtain ⟨hlt, -⟩ := List.findIdx?_eq_some_iff_getElem.mp hfind
    rw [List.length_take] at hlt
    exact ⟨k, rfl, .inr ⟨k, rfl, by omega⟩⟩

/-- On the empty string, an index found lies behind the terminator. -/
theorem pos_of_charAt {str : List UInt8} {c : UInt8} (hc : c ≠ 0) {r : ℤ}
    (hnil : (CString.ofMemory str).bytes = []) (h : charAt str c = some r) : r = -1 ∨ 0 < r := by
  rw [charAt_eq] at h
  cases hfind : (str.take (searchLength str)).findIdx? fun b => b == c with
  | none =>
    simp only [hfind] at h
    split_ifs at h
    exact .inl (Option.some.inj h).symm
  | some k =>
    simp only [hfind, Option.some.injEq] at h
    refine .inr (h ▸ Int.natCast_pos.mpr (Nat.pos_of_ne_zero ?_))
    rintro rfl
    -- the string starts with the character
    obtain ⟨hlt, heq, -⟩ := List.findIdx?_eq_some_iff_getElem.mp hfind
    rw [List.getElem_take, beq_iff_eq] at heq
    cases str with
    | nil => simp at hlt
    | cons b bs =>
      obtain rfl : b = c := heq
      rw [CString.bytes_ofMemory, List.takeWhile_cons_of_pos (by simpa using hc)] at hnil
      exact List.cons_ne_nil _ _ hnil

end PekarDrive
