import PekarDrive.Foundation.Text
import Mathlib.Data.List.Nodup

/-!
# A ledger of blocks

The blocks of a heap, in the order of their allocation, and the addresses that have been given back,
in the order of their release. An address is the number of a block. `free` gives back a block that
is held; for any other address it is not defined.

## Main definitions

* `CMemory.Block`, `CMemory.Ledger`, `CMemory.Ledger.Live`.
* `CMemory.Ledger.malloc`, `CMemory.Ledger.place`, `CMemory.Ledger.free`, `CMemory.Ledger.string`.

## Main results

* `CMemory.Ledger.free_some`, `CMemory.Ledger.free_cases`: what `free` can do.
-/

namespace CMemory

open CText

/-- A block of the heap. -/
structure Block where
  /-- The allocated size. -/
  size : ℕ
  /-- The bytes that have been stored from its start on; they may reach behind it. -/
  stored : List UInt8
  deriving DecidableEq

/-- The allocated blocks, and the addresses of those that have been freed. -/
@[ext] structure Ledger where
  /-- The blocks, in the order of their allocation. -/
  blocks : List Block
  /-- The addresses that have been freed, in order. -/
  released : List ℕ
  /-- Only blocks are freed. -/
  released_lt : ∀ p ∈ released, p < blocks.length
  /-- No block is freed twice. -/
  nodup : released.Nodup

namespace Ledger

/-- A heap without blocks. -/
def empty : Ledger := ⟨[], [], by simp, List.nodup_nil⟩

/-- The address of the next block. -/
def next (l : Ledger) : ℕ := l.blocks.length

/-- The block is allocated and has not been freed. -/
def Live (l : Ledger) (p : ℕ) : Prop := p < l.next ∧ p ∉ l.released

instance (l : Ledger) (p : ℕ) : Decidable (l.Live p) := inferInstanceAs (Decidable (_ ∧ _))

/-- A block of `size` bytes in which some bytes are stored; its address is `next`. -/
def malloc (l : Ledger) (size : ℕ) (stored : List UInt8) : Ledger where
  blocks := l.blocks ++ [⟨size, stored⟩]
  released := l.released
  released_lt p hp := by
    rw [List.length_append]
    exact Nat.lt_add_right _ (l.released_lt p hp)
  nodup := l.nodup

/-- `malloc`, where a block is wanted; `NULL` where none is. -/
def place (l : Ledger) : Option Block → Option ℕ × Ledger
  | none => (none, l)
  | some b => (some l.next, l.malloc b.size b.stored)

/-- Gives back the block at an address. -/
def release (l : Ledger) (p : ℕ) (h : l.Live p) : Ledger where
  blocks := l.blocks
  released := l.released ++ [p]
  released_lt q hq := by
    rcases List.mem_append.mp hq with hq | hq
    · exact l.released_lt q hq
    · exact List.mem_singleton.mp hq ▸ h.1
  nodup := List.nodup_append.mpr ⟨l.nodup, List.nodup_singleton p, fun q hq r hr hqr =>
    h.2 (List.mem_singleton.mp hr ▸ hqr ▸ hq)⟩

/-- `free`. -/
def free (l : Ledger) : Option ℕ → Option Ledger
  | none => some l
  | some p => if h : l.Live p then some (l.release p h) else none

/-- The string at an address, if there is a block that holds one. -/
def string (l : Ledger) (p : ℕ) : Option CString :=
  if l.Live p then (l.blocks[p]?.filter fun b => decide (0 ∈ b.stored.take b.size)).map fun b =>
    CString.ofMemory b.stored
  else none

section Operations

variable {l l' : Ledger} {p q : ℕ} {size : ℕ} {stored : List UInt8}

@[simp] theorem next_malloc : (l.malloc size stored).next = l.next + 1 := by
  rw [next, malloc, List.length_append]
  rfl

@[simp] theorem released_malloc : (l.malloc size stored).released = l.released := rfl

@[simp] theorem getElem?_malloc_next :
    (l.malloc size stored).blocks[l.next]? = some ⟨size, stored⟩ := List.getElem?_concat_length

theorem getElem?_malloc_of_lt (hp : p < l.next) :
    (l.malloc size stored).blocks[p]? = l.blocks[p]? := List.getElem?_append_left hp

theorem next_notMem_released : l.next ∉ l.released :=
  fun h => absurd (l.released_lt _ h) (lt_irrefl _)

theorem live_malloc_next : (l.malloc size stored).Live l.next :=
  ⟨by rw [next_malloc]; exact Nat.lt_succ_self _, next_notMem_released⟩

theorem Live.malloc (h : l.Live p) : (l.malloc size stored).Live p :=
  ⟨by rw [next_malloc]; exact Nat.lt_succ_of_lt h.1, h.2⟩

theorem Live.place (h : l.Live p) (b : Option Block) : (l.place b).2.Live p := by
  cases b with
  | none => exact h
  | some b => exact h.malloc

/-- A block that has been placed. -/
theorem mem_place {b : Option Block} (h : p ∈ (l.place b).1) :
    p = l.next ∧ (l.place b).2.Live p := by
  cases b with
  | none => exact absurd h (by simp [Ledger.place])
  | some b =>
    obtain rfl := Option.some.inj h
    exact ⟨rfl, live_malloc_next⟩

theorem getElem?_place_of_lt (hp : p < l.next) (b : Option Block) :
    (l.place b).2.blocks[p]? = l.blocks[p]? := by
  cases b with
  | none => rfl
  | some b => exact getElem?_malloc_of_lt hp

theorem lt_next_place (hp : p < l.next) (b : Option Block) : p < (l.place b).2.next := by
  cases b with
  | none => exact hp
  | some b =>
    rw [Ledger.place, next_malloc]
    exact Nat.lt_succ_of_lt hp

/-- What lies at the address of a block that has been placed, however the heap goes on. -/
theorem bind_getElem?_place (b : Option Block) {blocks : List Block}
    (hblocks : ∀ p < (l.place b).2.next, blocks[p]? = (l.place b).2.blocks[p]?) :
    ((l.place b).1.bind fun p => blocks[p]?) = b := by
  cases b with
  | none => rfl
  | some b => exact (hblocks _ live_malloc_next.1).trans getElem?_malloc_next

theorem free_some (h : l.Live p) : l.free (some p) = some (l.release p h) := dif_pos h

theorem free_eq_none_iff : l.free (some p) = none ↔ ¬ l.Live p := by
  by_cases h : l.Live p
  · simp [free_some h, h]
  · simp [free, h]

/-- `free` leaves the ledger, or gives back one live block. -/
theorem free_cases {pointer : Option ℕ} (h : l.free pointer = some l') :
    (pointer = none ∧ l' = l) ∨ ∃ p, ∃ hp : l.Live p, pointer = some p ∧ l' = l.release p hp := by
  cases pointer with
  | none => exact .inl ⟨rfl, (Option.some.inj h).symm⟩
  | some p =>
    by_cases hp : l.Live p
    · rw [free_some hp] at h
      exact .inr ⟨p, hp, rfl, (Option.some.inj h).symm⟩
    · rw [free_eq_none_iff.mpr hp] at h
      exact absurd h (by simp)

@[simp] theorem blocks_release (h : l.Live p) : (l.release p h).blocks = l.blocks := rfl

@[simp] theorem next_release (h : l.Live p) : (l.release p h).next = l.next := rfl

theorem live_release_iff (h : l.Live p) : (l.release p h).Live q ↔ l.Live q ∧ q ≠ p := by
  rw [Live, next_release]
  simp only [release, List.mem_append, List.mem_singleton, not_or, Live, and_assoc, ne_eq]

theorem live_malloc_iff_of_lt (hp : p < l.next) : (l.malloc size stored).Live p ↔ l.Live p := by
  simp only [Live, next_malloc, released_malloc, hp, Nat.lt_succ_of_lt hp]

/-- A string stays where it is when a block is allocated. -/
theorem string_malloc_of_lt (hp : p < l.next) : (l.malloc size stored).string p = l.string p := by
  simp only [string, live_malloc_iff_of_lt hp, getElem?_malloc_of_lt hp]

/-- So it does when another block is freed. -/
theorem string_release_of_ne (hp : l.Live p) (hne : q ≠ p) :
    (l.release p hp).string q = l.string q := by
  simp only [string, live_release_iff hp, hne, ne_eq, not_false_eq_true, and_true, blocks_release]

theorem blocks_of_free {pointer : Option ℕ} (h : l.free pointer = some l') :
    l'.blocks = l.blocks := by
  rcases free_cases h with ⟨-, rfl⟩ | ⟨p, hp, -, rfl⟩ <;> rfl

end Operations

end Ledger

end CMemory
