import Mathlib.Data.List.Induction
import Mathlib.Data.List.TakeWhile
import Mathlib.Data.Nat.Basic
import Mathlib.Tactic.IntervalCases
import Mathlib.Tactic.Ring

/-!
# C strings and decimal numbers

A C string is its bytes before the terminator, none of which is zero (`CText.CString`). A pointer
whose block carries no terminator of its own is read as the string that ends at the first zero
byte found behind the pointer (`CText.CString.ofMemory`); the memory is given up to the end of the
mapped region, which is read as ending in a zero byte.

The decimal conversions are those of the C library: `%d` and `%ld` print `CText.decimalInt`, and
`CText.atol`, `CText.atoi` skip blanks, read one sign and then the longest run of digits, clamp to
the range of `long` and, for `atoi`, keep the low 32 bits.

## Main definitions

* `CText.CString`, `CText.CString.ofMemory`, `CText.CString.strlen`.
* `CText.CString.append`, `CText.strncpy`.
* `CText.ascii`, `CText.lit`: the bytes of a string literal.
* `CText.decimal`, `CText.decimalInt`: decimal renderings.
* `CText.atol`, `CText.atoi`.
* `CText.extended`: what a number becomes when digits follow its rendering.

## Main results

* `CText.CString.ofMemory_append_zero`: a terminated block is read back as the string stored there.
* `CText.digitsValue_decimal`: the digits of `n` have the value `n`.
* `CText.length_decimalInt_le_iff`: the numbers that a width holds.
* `CText.leadingInt_digits_append`: a run of digits is read whole.
* `CText.leadingInt_decimalInt_append`: a number is read together with the digits behind it.
* `CText.atoi_decimal_append`: a decimal number followed by no digit is read back.
-/

namespace CText

/-! ### C strings -/

/-- The bytes of a C string before its terminator. -/
@[ext] structure CString where
  /-- The bytes. -/
  bytes : List UInt8
  /-- No byte is the terminator. -/
  nulFree : 0 ∉ bytes
  deriving DecidableEq

namespace CString

/-- The number of bytes before the terminator. -/
def strlen (s : CString) : ℕ := s.bytes.length

/-- The C string that starts at a pointer behind which the bytes `m` lie. -/
def ofMemory (m : List UInt8) : CString where
  bytes := m.takeWhile (· != 0)
  nulFree h := by simpa using List.mem_takeWhile_imp h

@[simp] theorem bytes_ofMemory (m : List UInt8) : (ofMemory m).bytes = m.takeWhile (· != 0) := rfl

/-- A block that holds a string and its terminator is read as that string. -/
theorem ofMemory_append_zero (s : CString) (rest : List UInt8) :
    ofMemory (s.bytes ++ 0 :: rest) = s := by
  have hs : ∀ b ∈ s.bytes, (b != 0) = true := fun b hb => by
    simpa using fun h : b = 0 => s.nulFree (h ▸ hb)
  ext1
  simp only [bytes_ofMemory, List.takeWhile_append_of_pos hs]
  simp

/-- A string at the end of the memory is read as that string. -/
theorem ofMemory_bytes (s : CString) : ofMemory s.bytes = s := by
  ext1
  rw [bytes_ofMemory, List.takeWhile_eq_self_iff]
  exact fun b hb => by simpa using fun h : b = 0 => s.nulFree (h ▸ hb)

/-- Bytes without a zero are read as a string that runs on into the memory behind them. -/
theorem bytes_ofMemory_append {xs : List UInt8} (hxs : 0 ∉ xs) (rest : List UInt8) :
    (ofMemory (xs ++ rest)).bytes = xs ++ (ofMemory rest).bytes := by
  have h : ∀ b ∈ xs, (b != 0) = true := fun b hb => by simpa using fun h : b = 0 => hxs (h ▸ hb)
  simp only [bytes_ofMemory, List.takeWhile_append_of_pos h]

/-- The string `t` printed behind `s`. -/
def append (s t : CString) : CString where
  bytes := s.bytes ++ t.bytes
  nulFree h := (List.mem_append.mp h).elim s.nulFree t.nulFree

@[simp] theorem bytes_append (s t : CString) : (s.append t).bytes = s.bytes ++ t.bytes := rfl

end CString

/-- The bytes that `strncpy` stores: the string at the source, cut to `n` bytes and filled up to
`n` with zeros. No terminator follows them. -/
def strncpy (m : List UInt8) (n : ℕ) : List UInt8 :=
  ((CString.ofMemory m).bytes ++ List.replicate n 0).take n

theorem strncpy_append {xs : List UInt8} (hxs : 0 ∉ xs) (rest : List UInt8) :
    strncpy (xs ++ rest) xs.length = xs := by
  rw [strncpy, CString.bytes_ofMemory_append hxs, List.append_assoc, List.take_left]

/-! ### Literals -/

/-- The bytes of a string literal of ASCII characters. -/
def ascii (s : String) : List UInt8 := s.toList.map fun c => UInt8.ofNat c.toNat

/-- The C string of a string literal. -/
def lit (s : String) : CString := CString.ofMemory (ascii s)

/-! ### Decimal renderings -/

/-- The decimal digits of a natural number, as ASCII bytes. -/
def decimal (n : ℕ) : List UInt8 := (Nat.toDigits 10 n).map fun c => UInt8.ofNat c.toNat

/-- The decimal rendering of an integer, as `%d` and `%ld` print it. -/
def decimalInt : ℤ → List UInt8
  | .ofNat n => decimal n
  | .negSucc n => 45 :: decimal (n + 1)

/-- A byte is an ASCII digit. -/
def isDigit (b : UInt8) : Bool := decide (48 ≤ b.toNat) && decide (b.toNat ≤ 57)

/-- The value of a run of digits. -/
def digitsValue (ds : List UInt8) : ℕ := ds.foldl (fun v d => 10 * v + (d.toNat - 48)) 0

private theorem digitByte_toNat {d : ℕ} (hd : d < 10) :
    (UInt8.ofNat (Nat.digitChar d).toNat).toNat = 48 + d := by
  interval_cases d <;> rfl

/-- The last digit comes off the end. -/
theorem decimal_eq (n : ℕ) : decimal n = (if n < 10 then [] else decimal (n / 10)) ++
    [UInt8.ofNat (Nat.digitChar (n % 10)).toNat] := by
  unfold decimal
  rw [Nat.toDigits_eq_if (by omega)]
  split
  · rw [Nat.mod_eq_of_lt ‹_›]
    rfl
  · rw [List.map_append]
    rfl

theorem decimal_ne_nil (n : ℕ) : decimal n ≠ [] := by
  rw [decimal_eq]
  simp

theorem length_decimal_le_iff {n k : ℕ} (hk : 0 < k) : (decimal n).length ≤ k ↔ n < 10 ^ k := by
  rw [decimal, List.length_map]
  exact Nat.length_toDigits_le_iff (by decide) hk

/-- The sign takes one place. -/
theorem length_decimalInt_le_iff {v : ℤ} {k : ℕ} (hk : 0 < k) :
    (decimalInt v).length ≤ k + 1 ↔ -10 ^ k < v ∧ v < 10 ^ (k + 1) := by
  cases v with
  | ofNat n =>
    rw [decimalInt, length_decimal_le_iff k.succ_pos, Int.ofNat_eq_natCast]
    refine ⟨fun h => ⟨?_, by exact_mod_cast h⟩, fun h => by exact_mod_cast h.2⟩
    exact (neg_lt_zero.mpr (by positivity)).trans_le (Int.natCast_nonneg n)
  | negSucc n =>
    rw [decimalInt, List.length_cons, Nat.add_le_add_iff_right, length_decimal_le_iff hk,
      Int.negSucc_eq, neg_lt_neg_iff]
    refine ⟨fun h => ⟨by exact_mod_cast h, ?_⟩, fun h => by exact_mod_cast h.1⟩
    exact (neg_nonpos.mpr (by positivity)).trans_lt (by positivity)

theorem isDigit_of_mem_decimal (n : ℕ) : ∀ b ∈ decimal n, isDigit b = true := by
  induction n using Nat.strong_induction_on with
  | _ n ih =>
    intro b hb
    rw [decimal_eq, List.mem_append] at hb
    rcases hb with hb | hb
    · split at hb
      · exact absurd hb List.not_mem_nil
      · exact ih (n / 10) (by omega) b hb
    · rw [List.mem_singleton.mp hb, isDigit, digitByte_toNat (Nat.mod_lt n (by decide))]
      have hlt := Nat.mod_lt n (show 0 < 10 by decide)
      simp only [Bool.and_eq_true, decide_eq_true_eq]
      omega

theorem zero_notMem_decimal (n : ℕ) : 0 ∉ decimal n :=
  fun h => absurd (isDigit_of_mem_decimal n 0 h) (by decide)

theorem zero_notMem_decimalInt (v : ℤ) : 0 ∉ decimalInt v := by
  cases v with
  | ofNat n => exact zero_notMem_decimal n
  | negSucc n =>
    rw [decimalInt, List.mem_cons, not_or]
    exact ⟨by decide, zero_notMem_decimal (n + 1)⟩

/-- A rendered number and its terminator. -/
theorem bytes_ofMemory_decimalInt (v : ℤ) (rest : List UInt8) :
    (CString.ofMemory (decimalInt v ++ 0 :: rest)).bytes = decimalInt v :=
  congrArg CString.bytes
    (CString.ofMemory_append_zero ⟨decimalInt v, zero_notMem_decimalInt v⟩ rest)

/-- The digits of `n` have the value `n`. -/
theorem digitsValue_decimal (n : ℕ) : digitsValue (decimal n) = n := by
  induction n using Nat.strong_induction_on with
  | _ n ih =>
    have hd := digitByte_toNat (Nat.mod_lt n (show 0 < 10 by decide))
    rw [decimal_eq]
    by_cases h : n < 10
    · simp only [h, if_true, List.nil_append, digitsValue, List.foldl_cons, List.foldl_nil, hd]
      omega
    · have ih' := ih (n / 10) (by omega)
      rw [digitsValue] at ih' ⊢
      simp only [h, if_false, List.foldl_append, List.foldl_cons, List.foldl_nil, ih', hd]
      omega

/-- Digits behind a run of digits shift its value. -/
theorem digitsValue_append (xs ds : List UInt8) :
    digitsValue (xs ++ ds) = digitsValue xs * 10 ^ ds.length + digitsValue ds := by
  induction ds using List.reverseRecOn with
  | nil => simp [digitsValue]
  | append_singleton ds d ih =>
    have hlast (bs : List UInt8) :
        digitsValue (bs ++ [d]) = 10 * digitsValue bs + (d.toNat - 48) := by
      rw [digitsValue, List.foldl_append]
      rfl
    rw [← List.append_assoc, hlast, hlast, ih, List.length_append, List.length_singleton, pow_succ]
    ring

/-! ### Reading numbers -/

/-- White space in the C locale. -/
def isSpace (b : UInt8) : Bool := b == 32 || (decide (9 ≤ b.toNat) && decide (b.toNat ≤ 13))

/-- The integer at the start of a text, after blanks and a sign; zero when there is no digit. -/
def leadingInt (s : List UInt8) : ℤ :=
  match s.dropWhile isSpace with
  | 45 :: ds => -digitsValue (ds.takeWhile isDigit)
  | 43 :: ds => digitsValue (ds.takeWhile isDigit)
  | ds => digitsValue (ds.takeWhile isDigit)

/-- `atol`: the leading integer, clamped to the range of `long`. -/
def atol (s : CString) : ℤ := max (-2 ^ 63) (min (2 ^ 63 - 1) (leadingInt s.bytes))

/-- `atoi`: the low 32 bits of what `atol` reads. -/
def atoi (s : CString) : ℤ := (atol s).bmod (2 ^ 32)

theorem isDigit_facts {b : UInt8} (h : isDigit b = true) :
    isSpace b = false ∧ b ≠ 45 ∧ b ≠ 43 ∧ b ≠ 0 := by
  simp only [isDigit, Bool.and_eq_true, decide_eq_true_eq] at h
  refine ⟨?_, ?_, ?_, ?_⟩
  · have hb : b ≠ 32 := by rintro rfl; simp at h
    simp only [isSpace, Bool.or_eq_false_iff, beq_eq_false_iff_ne, ne_eq, hb, not_false_iff,
      Bool.and_eq_false_iff, decide_eq_false_iff_not, true_and]
    omega
  all_goals rintro rfl; simp at h

/-- A run of digits is read together with the digits behind it. -/
theorem leadingInt_digits {ds : List UInt8} (hne : ds ≠ []) (hall : ∀ b ∈ ds, isDigit b = true)
    (rest : List UInt8) :
    leadingInt (ds ++ rest) = digitsValue (ds ++ rest.takeWhile isDigit) := by
  rw [← List.takeWhile_append_of_pos hall]
  obtain ⟨b, bs, rfl⟩ := List.exists_cons_of_ne_nil hne
  have hb := isDigit_facts (hall b List.mem_cons_self)
  have hdrop : (b :: bs ++ rest).dropWhile isSpace = b :: (bs ++ rest) := by
    rw [List.cons_append, List.dropWhile_cons_of_neg (by simp [hb.1])]
  unfold leadingInt
  rw [hdrop]
  split
  · rename_i ds heq
    exact absurd (List.cons.inj heq).1 hb.2.1
  · rename_i ds heq
    exact absurd (List.cons.inj heq).1 hb.2.2.1
  · rfl

/-- So is a run of digits with a sign. -/
theorem leadingInt_neg_digits {ds : List UInt8} (hall : ∀ b ∈ ds, isDigit b = true)
    (rest : List UInt8) :
    leadingInt (45 :: (ds ++ rest)) = -digitsValue (ds ++ rest.takeWhile isDigit) := by
  rw [← List.takeWhile_append_of_pos hall, leadingInt,
    List.dropWhile_cons_of_neg (by decide : ¬ isSpace 45 = true)]
  rfl

/-- A run of digits that no digit follows is read whole. -/
theorem leadingInt_digits_append {ds rest : List UInt8} (hne : ds ≠ [])
    (hall : ∀ b ∈ ds, isDigit b = true) (hrest : ∀ b ∈ rest.head?, isDigit b = false) :
    leadingInt (ds ++ rest) = digitsValue ds := by
  have hnone : rest.takeWhile isDigit = [] := by
    cases rest with
    | nil => rfl
    | cons c cs => exact List.takeWhile_cons_of_neg (by simp [hrest c (by simp)])
  rw [leadingInt_digits hne hall, hnone, List.append_nil]

/-- A decimal number that no digit follows is read back. -/
theorem leadingInt_decimal_append (n : ℕ) {rest : List UInt8}
    (hrest : ∀ b ∈ rest.head?, isDigit b = false) : leadingInt (decimal n ++ rest) = n := by
  rw [leadingInt_digits_append (decimal_ne_nil n) (isDigit_of_mem_decimal n) hrest,
    digitsValue_decimal]

/-- What a rendered number becomes when digits follow it. -/
def extended (v : ℤ) (ds : List UInt8) : ℤ :=
  v * 10 ^ ds.length + (if v < 0 then -1 else 1) * digitsValue ds

@[simp] theorem extended_nil (v : ℤ) : extended v [] = v := by
  simp [extended, digitsValue]

/-- A rendered number is read together with the digits behind it. -/
theorem leadingInt_decimalInt_append (v : ℤ) (rest : List UInt8) :
    leadingInt (decimalInt v ++ rest) = extended v (rest.takeWhile isDigit) := by
  cases v with
  | ofNat n =>
    have hsign : ¬ (n : ℤ) < 0 := not_lt.mpr (Int.natCast_nonneg n)
    rw [decimalInt, leadingInt_digits (decimal_ne_nil n) (isDigit_of_mem_decimal n),
      digitsValue_append, digitsValue_decimal, extended, Int.ofNat_eq_natCast, if_neg hsign]
    push_cast
    ring
  | negSucc n =>
    rw [decimalInt, List.cons_append, leadingInt_neg_digits (isDigit_of_mem_decimal (n + 1)),
      digitsValue_append, digitsValue_decimal, extended, if_pos (Int.negSucc_lt_zero n),
      Int.negSucc_eq]
    push_cast
    ring

/-- A number of 64 bits is read back from its rendering. -/
theorem atol_of_bytes {v : ℤ} (hlow : -2 ^ 63 ≤ v) (hhigh : v < 2 ^ 63) {s : CString}
    (hs : s.bytes = decimalInt v) : atol s = v := by
  have hread := leadingInt_decimalInt_append v []
  rw [List.append_nil, List.takeWhile_nil, extended_nil] at hread
  rw [atol, hs, hread]
  omega

/-- A number of 31 bits is read by `atoi`. -/
theorem atoi_of_leadingInt {n : ℕ} (hn : n < 2 ^ 31) {s : CString} (hs : leadingInt s.bytes = n) :
    atoi s = n := by
  have hatol : atol s = n := by
    rw [atol, hs]
    omega
  rw [atoi, hatol]
  exact Int.bmod_eq_of_le (by omega) (by omega)

theorem atoi_decimal_append {n : ℕ} (hn : n < 2 ^ 31) {s : CString} {rest : List UInt8}
    (hs : s.bytes = decimal n ++ rest) (hrest : ∀ b ∈ rest.head?, isDigit b = false) :
    atoi s = n :=
  atoi_of_leadingInt hn (by rw [hs, leadingInt_decimal_append n hrest])

end CText
