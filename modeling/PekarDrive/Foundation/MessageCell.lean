import PekarDrive.Foundation.Ledger
import Mathlib.Data.List.ReduceOption

/-!
# A pointer to the last message

A module that reports errors keeps a static pointer to a block with the text of the last one: a new
message frees the old block and is copied into one of its own. Whatever the sequence of calls, with
or without a message, each block is freed at most once, and only that of the last message is left
(`CMemory.MessageCell.Holds.reportAll`).

## Main definitions

* `CMemory.MessageCell`, with `store` and `report`.
* `CMemory.MessageCell.Holds`.

## Main results

* `CMemory.MessageCell.Holds.store`, `CMemory.MessageCell.Holds.reportAll`.
-/

namespace CMemory

open CText

/-- The pointer, and the blocks that have been allocated for it. -/
structure MessageCell where
  /-- The blocks. -/
  heap : Ledger
  /-- The pointer. -/
  pointer : Option ℕ

namespace MessageCell

/-- No message has been stored. -/
def empty : MessageCell := ⟨.empty, none⟩

/-- Frees the block of the old message and copies the new one into a block of its length, with its
terminator. -/
def store (c : MessageCell) (msg : CString) : Option MessageCell :=
  (c.heap.free c.pointer).map fun heap =>
    ⟨heap.malloc (msg.strlen + 1) (msg.bytes ++ [0]), some heap.next⟩

/-- The string at the pointer; none for `NULL`. -/
def message (c : MessageCell) : Option CString := c.pointer.bind c.heap.string

/-- A call that sets a message, or none. -/
def report (c : MessageCell) : Option CString → Option MessageCell
  | none => some c
  | some msg => c.store msg

/-- Calls one after the other. -/
def reportAll (msgs : List (Option CString)) (c : MessageCell) : Option MessageCell :=
  msgs.foldlM report c

/-- The last message, if there was one, is in the only block that has not been freed. -/
structure Holds (c : MessageCell) (last : Option CString) : Prop where
  /-- The pointer is `NULL` as long as there was no message. -/
  isSome_pointer : c.pointer.isSome = last.isSome
  /-- The block holds the message. -/
  message_eq : c.message = last
  /-- The other blocks have been freed. -/
  live_iff : ∀ p, c.heap.Live p ↔ c.pointer = some p

variable {c : MessageCell} {last : Option CString}

theorem holds_empty : empty.Holds none :=
  ⟨rfl, rfl, fun p => iff_of_false (fun h => absurd h.1 (Nat.not_lt_zero p)) (by simp [empty])⟩

/-- A string that has just been stored is found. -/
theorem string_malloc_next (heap : Ledger) (msg : CString) :
    (heap.malloc (msg.strlen + 1) (msg.bytes ++ [0])).string heap.next = some msg := by
  have hlen : (msg.bytes ++ [0]).take (msg.strlen + 1) = msg.bytes ++ [0] :=
    List.take_of_length_le (by rw [List.length_append]; exact le_rfl)
  rw [Ledger.string, if_pos Ledger.live_malloc_next, Ledger.getElem?_malloc_next,
    Option.filter_some, if_pos (by simp [hlen]), Option.map_some, CString.ofMemory_append_zero]

/-- **One message.** -/
theorem Holds.store (h : c.Holds last) (msg : CString) :
    ∃ c', c.store msg = some c' ∧ c'.Holds (some msg) := by
  obtain ⟨heap, hfree, hlive⟩ : ∃ heap, c.heap.free c.pointer = some heap ∧ ∀ p, ¬ heap.Live p := by
    cases hp : c.pointer with
    | none => exact ⟨c.heap, rfl, fun p hlive => absurd ((h.live_iff p).mp hlive) (by simp [hp])⟩
    | some q =>
      have hq : c.heap.Live q := (h.live_iff q).mpr hp
      refine ⟨_, Ledger.free_some hq, fun p hlive => ?_⟩
      obtain ⟨hp', hne⟩ := (Ledger.live_release_iff hq).mp hlive
      exact hne (Option.some.inj (((h.live_iff p).mp hp').symm.trans hp))
  let c' : MessageCell :=
    ⟨heap.malloc (msg.strlen + 1) (msg.bytes ++ [0]), some heap.next⟩
  have hstore : c.store msg = some c' := by rw [MessageCell.store, hfree, Option.map_some]
  refine ⟨c', hstore, rfl, string_malloc_next heap msg, fun p => ⟨fun hp => ?_, fun heq => ?_⟩⟩
  · rcases Nat.lt_or_ge p heap.next with hlt | hge
    · exact absurd ((Ledger.live_malloc_iff_of_lt hlt).mp hp) (hlive p)
    · have hlt := hp.1
      rw [Ledger.next_malloc] at hlt
      exact congrArg some (show heap.next = p by omega)
  · obtain rfl := Option.some.inj heq
    exact Ledger.live_malloc_next

theorem reportAll_cons (msg : Option CString) (msgs : List (Option CString)) (c : MessageCell) :
    reportAll (msg :: msgs) c = (c.report msg).bind (reportAll msgs) := List.foldlM_cons

/-- **All calls.** No block is freed twice, and the last message is in the only block left. -/
theorem Holds.reportAll (h : c.Holds last) (msgs : List (Option CString)) :
    ∃ c', reportAll msgs c = some c' ∧ c'.Holds (msgs.reduceOption.getLast?.or last) := by
  induction msgs generalizing c last with
  | nil => exact ⟨c, rfl, h⟩
  | cons msg msgs ih =>
    cases msg with
    | none => exact ih h
    | some msg =>
      obtain ⟨c₁, hstore, h₁⟩ := h.store msg
      obtain ⟨c', hall, h'⟩ := ih h₁
      have hlast : (some msg :: msgs).reduceOption.getLast?.or last =
          msgs.reduceOption.getLast?.or (some msg) := by
        rw [List.reduceOption_cons_of_some, List.getLast?_cons]
        cases msgs.reduceOption.getLast? <;> rfl
      refine ⟨c', ?_, hlast ▸ h'⟩
      rw [reportAll_cons, report, hstore, Option.bind_some, hall]

end MessageCell

end CMemory
