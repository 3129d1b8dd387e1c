import PekarDrive.Transmission.Received

/-!
# Trimming the padding

`trim_padding` of `lib/PP/transmission.c` looks for the last byte that is no padding, from the end
of the buffer on. Its index is unsigned, so that the condition of its loop always holds: when every
byte of the buffer is padding, the index goes round below zero and the search is continued behind
the buffer. The buffer that `transmit` fills when there is no data consists of padding.

`PekarDrive.trimPadding` is the same search within a block.

## Main definitions

* `PekarDrive.trimLoop`: the loop, with the indices that it reads.
* `PekarDrive.LongestUnpadded`, `PekarDrive.TrimsPadding`.

## Main results

* `PekarDrive.trimPadding_eq_some_iff`: `PekarDrive.trimPadding` and the loop.
* `PekarDrive.trimsPadding_iff`.
-/

namespace PekarDrive

open CMemory

/-- The loop of `trim_padding` with the index at `size`, for at most `fuel` bytes: the length that
is returned, and the indices that are read. -/
def trimLoop (bytes : Mem) : ℕ → UInt32 → Option (Reads UInt32)
  | 0, _ => none
  | fuel + 1, size =>
    if bytes size.toNat ≠ pad then some ⟨size + 1, [size.toNat]⟩
    else (trimLoop bytes fuel (size - 1)).map fun r => ⟨r.val, size.toNat :: r.offsets⟩

/-- The length of the longest prefix that does not end in padding. -/
def LongestUnpadded (bs : List UInt8) (n : ℕ) : Prop :=
  n ≤ bs.length ∧ (bs.take n).getLast? ≠ some pad ∧
    ∀ m ≤ bs.length, (bs.take m).getLast? ≠ some pad → m ≤ n

/-- On a buffer of `size` bytes, `trim_padding` ends, has looked at bytes of the buffer only, and
returns the length of the longest prefix that does not end in padding. -/
def TrimsPadding (bytes : Mem) (size : UInt32) : Prop :=
  ∃ fuel, ∃ r ∈ trimLoop bytes fuel (size - 1), (∀ o ∈ r.offsets, o < size.toNat) ∧
    LongestUnpadded (window bytes 0 size.toNat) r.val.toNat

/-- What is left without the trailing run of padding is the longest such prefix. -/
theorem longestUnpadded_length_unpadded (bs : List UInt8) :
    LongestUnpadded bs (unpadded bs).length := by
  induction bs using List.reverseRecOn with
  | nil => exact ⟨le_rfl, by simp, fun m hm _ => hm⟩
  | append_singleton bs b ih =>
    obtain ⟨hle, hlast, hlongest⟩ := ih
    rw [LongestUnpadded, List.length_append, List.length_singleton]
    by_cases hb : b = pad
    · have hunpadded : unpadded (bs ++ [b]) = unpadded bs :=
        List.rdropWhile_concat_pos _ _ _ (by simpa using hb)
      rw [hunpadded]
      refine ⟨Nat.le_succ_of_le hle, ?_, fun m hm hend => ?_⟩
      · rwa [List.take_append_of_le_length hle]
      · rcases Nat.le_succ_iff.mp hm with hm | rfl
        · rw [List.take_append_of_le_length hm] at hend
          exact hlongest m hm hend
        · -- the whole buffer ends in padding
          rw [List.take_of_length_le (by simp), List.getLast?_concat, hb] at hend
          exact absurd rfl hend
    · have hunpadded : unpadded (bs ++ [b]) = bs ++ [b] :=
        List.rdropWhile_concat_neg _ _ _ (by simpa using hb)
      rw [hunpadded, List.length_append, List.length_singleton]
      refine ⟨le_rfl, ?_, fun m hm _ => hm⟩
      rw [List.take_of_length_le (by simp), List.getLast?_concat]
      exact fun h => hb (Option.some.inj h)

section Loop

variable {bytes : Mem}

theorem window_zero_succ (n : ℕ) : window bytes 0 (n + 1) = window bytes 0 n ++ [bytes n] := by
  rw [window_add, Nat.zero_add]
  rfl

/-- With a byte that is no padding, the loop ends at the last one. -/
theorem exists_trimLoop {n : ℕ} (hn : n < 2 ^ 32) (hbyte : ∃ i < n, bytes i ≠ pad) :
    ∃ fuel, ∃ r ∈ trimLoop bytes fuel (UInt32.ofNat n - 1), (∀ o ∈ r.offsets, o < n) ∧
      r.val.toNat = (unpadded (window bytes 0 n)).length := by
  induction n with
  | zero =>
    obtain ⟨i, hi, -⟩ := hbyte
    exact absurd hi (Nat.not_lt_zero i)
  | succ n ih =>
    have hindex : (UInt32.ofNat n).toNat = n := toNat_counter (by omega)
    rw [counter_succ_sub_one, window_zero_succ]
    by_cases hpad : bytes n = pad
    · obtain ⟨i, hi, hne⟩ := hbyte
      have hlt : i < n := by
        refine lt_of_le_of_ne (Nat.lt_succ_iff.mp hi) ?_
        rintro rfl
        exact hne hpad
      obtain ⟨fuel, r, hr, hoffsets, hval⟩ := ih (by omega) ⟨i, hlt, hne⟩
      refine ⟨fuel + 1, ⟨r.val, n :: r.offsets⟩, ?_, ?_, ?_⟩
      · rw [trimLoop, hindex, if_neg (not_not.mpr hpad), Option.mem_def.mp hr]
        rfl
      · exact List.forall_mem_cons.mpr ⟨Nat.lt_succ_self n,
          fun o ho => Nat.lt_succ_of_lt (hoffsets o ho)⟩
      · rw [hval, unpadded, unpadded, List.rdropWhile_concat_pos _ _ _ (by simpa using hpad)]
    · refine ⟨1, ⟨UInt32.ofNat n + 1, [n]⟩, ?_, by simp, ?_⟩
      · rw [trimLoop, hindex, if_pos hpad]
        rfl
      · rw [unpadded, List.rdropWhile_concat_neg _ _ _ (by simpa using hpad), List.length_append,
          length_window, List.length_singleton]
        change (UInt32.ofNat n + 1).toNat = n + 1
        rw [counter_add_one, toNat_counter hn]

/-- In a buffer of padding, the index goes round. -/
theorem mem_offsets_of_padding {n : ℕ} (hn : n < 2 ^ 32) (hpad : ∀ i < n, bytes i = pad)
    {fuel : ℕ} {r : Reads UInt32} (hr : r ∈ trimLoop bytes fuel (UInt32.ofNat n - 1)) :
    2 ^ 32 - 1 ∈ r.offsets := by
  induction n generalizing fuel r with
  | zero =>
    cases fuel with
    | zero => exact absurd hr (by simp [trimLoop])
    | succ fuel =>
      rw [trimLoop, Option.mem_def] at hr
      split_ifs at hr
      · obtain rfl := Option.some.inj hr
        exact List.mem_cons_self
      · obtain ⟨r', -, rfl⟩ := Option.map_eq_some_iff.mp hr
        exact List.mem_cons_self
  | succ n ih =>
    have hindex : (UInt32.ofNat n).toNat = n := toNat_counter (by omega)
    rw [counter_succ_sub_one] at hr
    cases fuel with
    | zero => exact absurd hr (by simp [trimLoop])
    | succ fuel =>
      rw [trimLoop, hindex, if_neg (not_not.mpr (hpad n (Nat.lt_succ_self n))),
        Option.mem_def] at hr
      obtain ⟨r', hr', rfl⟩ := Option.map_eq_some_iff.mp hr
      exact List.mem_cons_of_mem _ (ih (by omega) (fun i hi => hpad i (by omega)) hr')

/-- More fuel does not change what the loop does. -/
theorem eq_of_mem_trimLoop {f f' : ℕ} {size : UInt32} {r r' : Reads UInt32}
    (hr : r ∈ trimLoop bytes f size) (hr' : r' ∈ trimLoop bytes f' size) : r = r' := by
  induction f generalizing f' size r r' with
  | zero => exact absurd hr (by simp [trimLoop])
  | succ f ih =>
    cases f' with
    | zero => exact absurd hr' (by simp [trimLoop])
    | succ f' =>
      rw [trimLoop, Option.mem_def] at hr hr'
      split_ifs at hr hr'
      · exact Option.some.inj (hr.symm.trans hr')
      · obtain ⟨q, hq, rfl⟩ := Option.map_eq_some_iff.mp hr
        obtain ⟨q', hq', rfl⟩ := Option.map_eq_some_iff.mp hr'
        rw [ih hq hq']

theorem exists_mem_window_iff {n : ℕ} {P : UInt8 → Prop} :
    (∃ b ∈ window bytes 0 n, P b) ↔ ∃ i < n, P (bytes i) := by
  simp [window]

/-- The search within a block is the loop, where the loop stays within the block. -/
theorem trimPadding_eq_some_iff {n k : ℕ} (hn : n < 2 ^ 32) :
    trimPadding (window bytes 0 n) n = some k ↔
      ∃ fuel, ∃ r ∈ trimLoop bytes fuel (UInt32.ofNat n - 1), (∀ o ∈ r.offsets, o < n) ∧
        r.val.toNat = k := by
  have hblock : (window bytes 0 n).take n = window bytes 0 n :=
    List.take_of_length_le (length_window bytes 0 n).le
  rw [trimPadding_eq (length_window bytes 0 n).ge, hblock]
  by_cases hbyte : ∃ i < n, bytes i ≠ pad
  · obtain ⟨fuel, r, hr, hoffsets, hval⟩ := exists_trimLoop hn hbyte
    rw [if_pos (exists_mem_window_iff.mpr hbyte), ← hval, Option.some_inj]
    constructor
    · rintro rfl
      exact ⟨fuel, r, hr, hoffsets, rfl⟩
    · rintro ⟨fuel', r', hr', -, hval'⟩
      rw [eq_of_mem_trimLoop hr hr', hval']
  · rw [if_neg fun h => hbyte (exists_mem_window_iff.mp h)]
    refine iff_of_false (Option.some_ne_none k).symm ?_
    rintro ⟨fuel, r, hr, hoffsets, -⟩
    have hpad : ∀ i < n, bytes i = pad := fun i hi => by_contra fun hne => hbyte ⟨i, hi, hne⟩
    have hwrapped := hoffsets _ (mem_offsets_of_padding hn hpad hr)
    omega

end Loop

/-- **Trimming the padding.** For every buffer, of every size and every contents: `trim_padding`
ends within the buffer, with the length of the longest prefix that does not end in padding, if and
only if some byte of the buffer is no padding. -/
theorem trimsPadding_iff (bytes : Mem) (size : UInt32) :
    TrimsPadding bytes size ↔ ∃ i < size.toNat, bytes i ≠ pad := by
  have hsize : UInt32.ofNat size.toNat - 1 = size - 1 := by rw [UInt32.ofNat_toNat]
  have hlt : size.toNat < 2 ^ 32 := size.toNat_lt
  constructor
  · rintro ⟨fuel, r, hr, hoffsets, -⟩
    by_contra hbyte
    have hpad : ∀ i < size.toNat, bytes i = pad :=
      fun i hi => by_contra fun hne => hbyte ⟨i, hi, hne⟩
    have hwrapped := hoffsets _ (mem_offsets_of_padding hlt hpad (hsize ▸ hr))
    omega
  · intro hbyte
    obtain ⟨fuel, r, hr, hoffsets, hval⟩ := exists_trimLoop hlt hbyte
    refine ⟨fuel, r, hsize ▸ hr, hoffsets, ?_⟩
    rw [hval]
    exact longestUnpadded_length_unpadded _

/-- In a buffer of one pad byte, the index goes round. -/
theorem not_forall_trimsPadding : ¬ ∀ (bytes : Mem) (size : UInt32), 1 ≤ size.toNat →
    TrimsPadding bytes size := by
  intro h
  obtain ⟨fuel, r, hr, hoffsets, -⟩ := h (fun _ => pad) 1 (by decide)
  have hwrapped : 2 ^ 32 - 1 ∈ r.offsets :=
    @mem_offsets_of_padding (fun _ => pad) 1 (by decide) (fun _ _ => rfl) _ _ hr
  exact absurd (hoffsets _ hwrapped) (by decide)

end PekarDrive
