import Mathlib.Data.List.Basic
import Mathlib.Data.Nat.Basic
import Mathlib.Tactic.Ring

/-!
# Memory behind a pointer

A pointer is given by the memory that can be read through it, a function from offsets to bytes
(`CMemory.Mem`). The function is total: an offset past the end of the block reads whatever lies
there. A function that copies out of memory is written in the monad `CMemory.Reads`, which keeps
the offsets it reads beside the value it computes, so that "reads only the first `n` bytes" is a
statement about the definition itself.

## Main definitions

* `CMemory.overlay`: the memory after some bytes have been stored at its start.
* `CMemory.window`: the bytes of a range of offsets.
* `CMemory.Reads`, `CMemory.memcpy`: computations with the list of offsets they read.
* `CMemory.leBytes`, `CMemory.leNat`: the little-endian bytes of a number of fixed width.

## Main results

* `CMemory.window_overlay_append`: a window over the middle part of stored bytes is that part.
* `CMemory.window_congr`: a window depends on the bytes inside it only.
* `CMemory.leNat_leBytes`, `CMemory.leBytes_leNat`: the little-endian round trips.
* `CMemory.toNat_counter`, `CMemory.counter_ne`: counters before they go round.
-/

namespace CMemory

/-! ### Memory and windows -/

/-- The memory read through a pointer, by offset. -/
abbrev Mem := ℕ → UInt8

/-- The memory whose first bytes are `bs`, followed by the bytes of `rest` at their own
offsets. -/
def overlay (bs : List UInt8) (rest : Mem) : Mem := fun i => bs[i]?.getD (rest i)

/-- The `len` bytes from offset `off`. -/
def window (m : Mem) (off len : ℕ) : List UInt8 := (List.range len).map fun i => m (off + i)

theorem overlay_of_lt {bs : List UInt8} {i : ℕ} (rest : Mem) (h : i < bs.length) :
    overlay bs rest i = bs[i] := by
  simp only [overlay, List.getElem?_eq_getElem h, Option.getD_some]

theorem overlay_of_le {bs : List UInt8} {i : ℕ} (rest : Mem) (h : bs.length ≤ i) :
    overlay bs rest i = rest i := by
  simp only [overlay, List.getElem?_eq_none h, Option.getD_none]

@[simp] theorem length_window (m : Mem) (off len : ℕ) : (window m off len).length = len := by
  simp [window]

@[simp] theorem window_zero (m : Mem) (off : ℕ) : window m off 0 = [] := rfl

theorem getElem?_window {m : Mem} {off len i : ℕ} (h : i < len) :
    (window m off len)[i]? = some (m (off + i)) := by
  simp [window, h]

theorem window_congr {m m' : Mem} {off len : ℕ}
    (h : ∀ i, off ≤ i → i < off + len → m i = m' i) : window m off len = window m' off len := by
  refine List.map_congr_left fun i hi => h _ (Nat.le_add_right _ _) ?_
  exact Nat.add_lt_add_left (List.mem_range.mp hi) off

theorem window_add (m : Mem) (off a b : ℕ) :
    window m off (a + b) = window m off a ++ window m (off + a) b := by
  simp only [window, List.range_add, List.map_append, List.map_map]
  congr 1
  exact List.map_congr_left fun i _ => by simp only [Function.comp_apply, Nat.add_assoc]

theorem window_succ (m : Mem) (off len : ℕ) :
    window m off (len + 1) = m off :: window m (off + 1) len := by
  rw [Nat.add_comm len 1, window_add]
  rfl

theorem window_overlay_of_le {bs : List UInt8} (rest : Mem) {off len : ℕ}
    (h : off + len ≤ bs.length) : window (overlay bs rest) off len = (bs.drop off).take len := by
  refine List.ext_getElem (by simp; omega) fun i hi _ => ?_
  have hi' : i < len := by simpa using hi
  simp only [window, List.getElem_map, List.getElem_range, List.getElem_take, List.getElem_drop,
    overlay_of_lt rest (show off + i < bs.length by omega)]

/-- A window over the middle part of stored bytes is that part. -/
theorem window_overlay_append (pre xs post : List UInt8) (rest : Mem) {off len : ℕ}
    (hoff : off = pre.length) (hlen : len = xs.length) :
    window (overlay (pre ++ xs ++ post) rest) off len = xs := by
  subst hoff hlen
  rw [window_overlay_of_le rest (by simp), List.append_assoc, List.drop_left, List.take_left]

/-- A window inside the stored bytes does not depend on the rest of the memory. -/
theorem window_overlay_congr {bs : List UInt8} (rest rest' : Mem) {off len : ℕ}
    (h : off + len ≤ bs.length) :
    window (overlay bs rest) off len = window (overlay bs rest') off len := by
  rw [window_overlay_of_le rest h, window_overlay_of_le rest' h]

/-- A window from the start of the stored bytes: those that fit, then what lies behind them. -/
theorem window_overlay_zero (bs : List UInt8) (rest : Mem) (n : ℕ) :
    window (overlay bs rest) 0 n = bs.take n ++ window rest bs.length (n - bs.length) := by
  rcases Nat.le_total n bs.length with h | h
  · rw [window_overlay_of_le rest (by omega), Nat.sub_eq_zero_of_le h, window_zero,
      List.append_nil, List.drop_zero]
  · obtain ⟨k, rfl⟩ := Nat.exists_eq_add_of_le h
    rw [window_add, window_overlay_of_le rest (by omega), Nat.zero_add, Nat.add_sub_cancel_left,
      List.drop_zero, List.take_length, List.take_of_length_le h]
    congr 1
    exact window_congr fun i hi _ => overlay_of_le rest hi

theorem take_window (m : Mem) (off len n : ℕ) :
    (window m off len).take n = window m off (min n len) := by
  rw [window, ← List.map_take, List.take_range]
  rfl

/-- Bytes that have been copied to the start of another memory. -/
theorem overlay_window_of_lt {m : Mem} (rest : Mem) {len i : ℕ} (h : i < len) :
    overlay (window m 0 len) rest i = m i := by
  rw [overlay, getElem?_window h, Nat.zero_add, Option.getD_some]

/-- The stored bytes start every window of the memory. -/
theorem take_drop_prefix_window (bs : List UInt8) (rest : Mem) (off len : ℕ) :
    (bs.drop off).take len <+: window (overlay bs rest) off len := by
  rcases Nat.le_total bs.length off with h | h
  · rw [List.drop_eq_nil_of_le h, List.take_nil]
    exact List.nil_prefix
  · obtain ⟨k, hk⟩ : ∃ k, len = min len (bs.length - off) + k :=
      ⟨len - min len (bs.length - off), by omega⟩
    have htake : (bs.drop off).take len = (bs.drop off).take (min len (bs.length - off)) := by
      rw [← List.length_drop, List.take_eq_take_min]
    rw [htake, ← window_overlay_of_le rest (by omega)]
    nth_rewrite 2 [hk]
    rw [window_add]
    exact List.prefix_append _ _

/-- When the stored bytes agree with a field as far as they reach, and what lies behind them
completes it, the field is read. -/
theorem window_overlay_of_prefix {bs field : List UInt8} {rest : Mem} {off w : ℕ}
    (hw : field.length = w) (hbs : (bs.drop off).take w <+: field)
    (hrest : window rest off w = field) : window (overlay bs rest) off w = field := by
  subst hw
  refine List.ext_getElem? fun i => ?_
  rcases Nat.lt_or_ge i field.length with hi | hi
  · rw [getElem?_window hi]
    rcases Nat.lt_or_ge (off + i) bs.length with h | h
    · have hlen : i < ((bs.drop off).take field.length).length := by simp; omega
      rw [overlay_of_lt rest h, List.prefix_iff_getElem?.mp hbs i hlen]
      simp
    · rw [overlay_of_le rest h, ← getElem?_window hi, hrest]
  · rw [List.getElem?_eq_none hi, List.getElem?_eq_none (by simpa using hi)]

/-- Bytes stored over a block that they agree with extend the block. -/
theorem overlay_overlay {bs block : List UInt8} (h : bs.take block.length <+: block) (rest : Mem) :
    overlay bs (overlay block rest) = overlay (block ++ bs.drop block.length) rest := by
  funext i
  rcases Nat.lt_or_ge i block.length with hi | hi
  · rw [overlay_of_lt rest (by simp; omega), List.getElem_append_left hi]
    rcases Nat.lt_or_ge i bs.length with hbs | hbs
    · have hlen : i < (bs.take block.length).length := by simp; omega
      rw [overlay_of_lt _ hbs, ← List.prefix_iff_getElem.mp h |>.2 i hlen, List.getElem_take]
    · rw [overlay_of_le _ hbs, overlay_of_lt rest hi]
  · simp only [overlay, List.getElem?_append_right hi, List.getElem?_eq_none hi,
      List.getElem?_drop, Nat.add_sub_cancel' hi, Option.getD_none]

/-- A window behind a stored block. -/
theorem window_overlay_append_left (block bs : List UInt8) (rest : Mem) (n : ℕ) :
    window (overlay (block ++ bs) rest) block.length n =
      window (overlay bs fun i => rest (block.length + i)) 0 n := by
  refine List.map_congr_left fun i _ => ?_
  simp only [overlay, Nat.zero_add,
    List.getElem?_append_right (Nat.le_add_right block.length i), Nat.add_sub_cancel_left]

theorem window_const (x : UInt8) (off n : ℕ) : window (fun _ => x) off n = List.replicate n x := by
  simp [window]

/-! ### Computations that read memory -/

/-- A value together with the offsets read to compute it, in order. -/
structure Reads (α : Type) where
  /-- The value computed. -/
  val : α
  /-- The offsets read. -/
  offsets : List ℕ

namespace Reads

instance : Monad Reads where
  pure a := ⟨a, []⟩
  bind x f := ⟨(f x.val).val, x.offsets ++ (f x.val).offsets⟩

variable {α β : Type}

@[simp] theorem offsets_pure (a : α) : (pure a : Reads α).offsets = [] := rfl

@[simp] theorem offsets_bind (x : Reads α) (f : α → Reads β) :
    (x >>= f).offsets = x.offsets ++ (f x.val).offsets := rfl

end Reads

/-- Copies `len` bytes from offset `off`. -/
def memcpy (m : Mem) (off len : ℕ) : Reads (List UInt8) where
  val := window m off len
  offsets := (List.range len).map (off + ·)

theorem mem_offsets_memcpy {m : Mem} {off len o : ℕ} :
    o ∈ (memcpy m off len).offsets ↔ off ≤ o ∧ o < off + len := by
  simp only [memcpy, List.mem_map, List.mem_range]
  constructor
  · rintro ⟨i, hi, rfl⟩
    exact ⟨Nat.le_add_right _ _, Nat.add_lt_add_left hi off⟩
  · rintro ⟨hle, hlt⟩
    exact ⟨o - off, by omega, by omega⟩

/-! ### Little-endian numbers -/

/-- The `w` little-endian bytes of `n`; what does not fit is dropped. -/
def leBytes : ℕ → ℕ → List UInt8
  | 0, _ => []
  | w + 1, n => UInt8.ofNat n :: leBytes w (n / 256)

/-- The number with the given little-endian bytes. -/
def leNat : List UInt8 → ℕ
  | [] => 0
  | b :: bs => b.toNat + 256 * leNat bs

@[simp] theorem length_leBytes : (w n : ℕ) → (leBytes w n).length = w
  | 0, _ => rfl
  | w + 1, n => by rw [leBytes, List.length_cons, length_leBytes w]

theorem leNat_lt : (bs : List UInt8) → leNat bs < 256 ^ bs.length
  | [] => by simp [leNat]
  | b :: bs => by
      have hb : b.toNat < 256 := b.toNat_lt
      have ih := leNat_lt bs
      rw [leNat, List.length_cons, pow_succ]
      omega

/-- Reading back the bytes of `n` gives `n` up to the width. -/
theorem leNat_leBytes : (w n : ℕ) → leNat (leBytes w n) = n % 256 ^ w
  | 0, n => by simp [leBytes, leNat, Nat.mod_one]
  | w + 1, n => by
      have hb : (UInt8.ofNat n).toNat = n % 256 := UInt8.toNat_ofNat'
      rw [leBytes, leNat, leNat_leBytes w, hb, pow_succ', Nat.mod_mul]

theorem leNat_leBytes_of_lt {w n : ℕ} (h : n < 256 ^ w) : leNat (leBytes w n) = n := by
  rw [leNat_leBytes, Nat.mod_eq_of_lt h]

theorem leBytes_leNat : (bs : List UInt8) → leBytes bs.length (leNat bs) = bs
  | [] => rfl
  | b :: bs => by
      have hb : b.toNat < 256 := b.toNat_lt
      have hdiv : leNat (b :: bs) / 256 = leNat bs := by
        rw [leNat, Nat.add_mul_div_left _ _ (by decide), Nat.div_eq_of_lt hb, Nat.zero_add]
      have hhead : UInt8.ofNat (leNat (b :: bs)) = b := by
        apply UInt8.toNat_inj.mp
        rw [UInt8.toNat_ofNat', leNat, Nat.add_mul_mod_self_left, Nat.mod_eq_of_lt hb]
      rw [List.length_cons, leBytes, hdiv, hhead, leBytes_leNat bs]

theorem leNat_injective {bs bs' : List UInt8} (hlen : bs.length = bs'.length)
    (h : leNat bs = leNat bs') : bs = bs' := by
  rw [← leBytes_leNat bs, ← leBytes_leNat bs', hlen, h]

/-! ### Counters of 32 bits -/

theorem toNat_counter {n : ℕ} (hn : n < 2 ^ 32) : (UInt32.ofNat n).toNat = n := by
  rw [UInt32.toNat_ofNat', Nat.mod_eq_of_lt hn]

theorem counter_add_one (n : ℕ) : UInt32.ofNat n + 1 = UInt32.ofNat (n + 1) :=
  (UInt32.ofNat_add n 1).symm

theorem counter_succ_sub_one (n : ℕ) : UInt32.ofNat (n + 1) - 1 = UInt32.ofNat n := by
  rw [← counter_add_one]
  exact UInt32.add_sub_cancel _ _

/-- A counter that has left zero does not meet a later value before it goes round. -/
theorem counter_ne {i j : ℕ} (hpos : 0 < i) (hlt : i < j) (hle : j ≤ 2 ^ 32) :
    UInt32.ofNat i ≠ UInt32.ofNat j := by
  intro heq
  have hnat := congrArg UInt32.toNat heq
  rw [UInt32.toNat_ofNat', UInt32.toNat_ofNat'] at hnat
  omega

end CMemory
