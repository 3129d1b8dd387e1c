import Mathlib.Data.List.Basic
import Mathlib.Data.List.Infix

/-!
# Texts of several lines

Splitting a list at a separator, and joining lines with one. A text may have gaps, which hold
whatever lies in memory; filled with the separator they add nothing to what the lines hold, and
filled with another element each gap adds one.

## Main definitions

* `CText.fillGaps`.

## Main results

* `CText.infix_of_mem_splitOn`: a line occurs in the text.
* `CText.cons_append_infix_of_mem`: a line stands between separators.
* `CText.infix_intercalate_iff`: what occurs in a text of several lines.
* `CText.splitOn_append_cons`: the lines of two texts joined by a separator.
* `CText.flatten_filter_splitOn`: the elements of the lines.
* `CText.length_filter_fillGaps`: the elements of a text with gaps.
-/

namespace CText

variable {α : Type}

theorem infix_intercalate_of_mem (sep : List α) {l : List α} {ls : List (List α)} (h : l ∈ ls) :
    l <:+: sep.intercalate ls := by
  induction ls with
  | nil => exact absurd h List.not_mem_nil
  | cons l' ls ih =>
    cases ls with
    | nil =>
      obtain rfl := List.mem_singleton.mp h
      rw [List.intercalate_singleton]
    | cons l'' ls =>
      rw [List.intercalate_cons_cons]
      rcases List.mem_cons.mp h with rfl | h
      · exact ⟨[], sep ++ sep.intercalate (l'' :: ls), by simp⟩
      · exact (ih h).trans (List.suffix_append _ _).isInfix

/-- A line has a separator in front of it and behind it. -/
theorem cons_append_infix_of_mem (a : α) {l : List α} {ls : List (List α)} (h : l ∈ ls) :
    a :: (l ++ [a]) <:+: a :: ([a].intercalate ls ++ [a]) := by
  induction ls with
  | nil => exact absurd h List.not_mem_nil
  | cons l' ls ih =>
    cases ls with
    | nil =>
      obtain rfl := List.mem_singleton.mp h
      rw [List.intercalate_singleton]
    | cons l'' ls =>
      rw [List.intercalate_cons_cons]
      rcases List.mem_cons.mp h with rfl | h
      · exact ⟨[], [a].intercalate (l'' :: ls) ++ [a], by simp⟩
      · exact (ih h).trans ⟨a :: l', [], by simp⟩

/-- The text ends with the last line. -/
theorem suffix_intercalate_append (sep : List α) (ls : List (List α)) (l : List α) :
    l <:+ sep.intercalate (ls ++ [l]) := by
  induction ls with
  | nil => rw [List.nil_append, List.intercalate_singleton]
  | cons l' ls ih =>
    rw [List.cons_append, List.intercalate_cons_of_ne_nil (by simp)]
    exact ih.trans (List.suffix_append _ _)

/-- What has no separator and occurs in the text occurs in a line. -/
theorem infix_intercalate_iff {a : α} {l : List α} (ha : a ∉ l) {ls : List (List α)}
    (hne : ls ≠ []) : l <:+: [a].intercalate ls ↔ ∃ x ∈ ls, l <:+: x := by
  refine ⟨fun h => ?_, fun ⟨x, hx, hl⟩ => hl.trans (infix_intercalate_of_mem [a] hx)⟩
  -- a prefix of what starts with the separator
  have hnil : ∀ {l' t : List α}, l' ⊆ l → l' <+: a :: t → l' = [] := by
    intro l' t hsub hpre
    rcases List.prefix_cons_iff.mp hpre with hnil | ⟨t', rfl, -⟩
    · exact hnil
    · exact absurd (hsub List.mem_cons_self) ha
  induction ls with
  | nil => exact absurd rfl hne
  | cons x ls ih =>
    cases ls with
    | nil => exact ⟨x, List.mem_cons_self, by rwa [List.intercalate_singleton] at h⟩
    | cons y ls =>
      rw [List.intercalate_cons_cons, List.append_assoc, List.singleton_append,
        List.infix_append_iff] at h
      rcases h with h | h | ⟨l₁, l₂, rfl, h₁, h₂⟩
      · exact ⟨x, List.mem_cons_self, h⟩
      · rcases List.infix_cons_iff.mp h with h | h
        · rw [hnil (List.Subset.refl l) h]
          exact ⟨x, List.mem_cons_self, List.nil_infix⟩
        · obtain ⟨z, hz, hl⟩ := ih (by simp) h
          exact ⟨z, List.mem_cons_of_mem x hz, hl⟩
      · rw [hnil (List.subset_append_right l₁ l₂) h₂, List.append_nil]
        exact ⟨x, List.mem_cons_self, h₁.isInfix⟩

/-! ### Texts with gaps -/

section Gaps

/-- A text with gaps, filled with one element. -/
def fillGaps (x : α) (t : List (Option α)) : List α := t.map fun c => c.getD x

variable (x : α) (t : List (Option α))

@[simp] theorem fillGaps_cons (c : Option α) :
    fillGaps x (c :: t) = c.getD x :: fillGaps x t := rfl

@[simp] theorem fillGaps_append (t' : List (Option α)) :
    fillGaps x (t ++ t') = fillGaps x t ++ fillGaps x t' := List.map_append

@[simp] theorem fillGaps_map_some (xs : List α) : fillGaps x (xs.map some) = xs := by
  simp [fillGaps, Function.comp_def]

@[simp] theorem fillGaps_replicate (n : ℕ) :
    fillGaps x (List.replicate n none) = List.replicate n x := by
  simp [fillGaps]

@[simp] theorem length_fillGaps : (fillGaps x t).length = t.length := List.length_map _

theorem fillGaps_take (n : ℕ) : fillGaps x (t.take n) = (fillGaps x t).take n := List.map_take

end Gaps

/-! ### Lines -/

variable [DecidableEq α] (a : α)

/-- A line occurs in the text. -/
theorem infix_of_mem_splitOn {l xs : List α} (h : l ∈ xs.splitOn a) : l <:+: xs := by
  have hinfix := infix_intercalate_of_mem [a] h
  rwa [List.intercalate_splitOn] at hinfix

/-- The lines of two texts joined by a separator. -/
theorem splitOn_append_cons (xs ys : List α) :
    (xs ++ a :: ys).splitOn a = xs.splitOn a ++ ys.splitOn a := by
  induction xs with
  | nil => simp [List.splitOn_cons_eq_if_modifyHead]
  | cons x xs ih =>
    rw [List.cons_append, List.splitOn_cons_eq_if_modifyHead, List.splitOn_cons_eq_if_modifyHead,
      ih]
    split
    · rfl
    · obtain ⟨l, ls, hls⟩ := List.exists_cons_of_ne_nil (List.splitOn_ne_nil a xs)
      rw [hls]
      rfl

theorem flatten_splitOn (xs : List α) :
    (xs.splitOn a).flatten = xs.filter fun x => decide (x ≠ a) := by
  induction xs with
  | nil => simp
  | cons x xs ih =>
    rw [List.splitOn_cons_eq_if_modifyHead, List.filter_cons]
    obtain ⟨l, ls, hls⟩ := List.exists_cons_of_ne_nil (List.splitOn_ne_nil a xs)
    rw [hls, List.flatten_cons] at ih
    by_cases hx : x = a
    · rw [if_pos (by simpa using hx), if_neg (by simpa using hx), hls, List.flatten_cons,
        List.nil_append, List.flatten_cons, ih]
    · rw [if_neg (by simpa using hx), if_pos (by simpa using hx), hls, List.modifyHead_cons,
        List.flatten_cons, List.cons_append, ih]

/-- The lines that are not empty hold the elements other than the separator. -/
theorem flatten_filter_splitOn (xs : List α) :
    ((xs.splitOn a).filter fun l => decide (l ≠ [])).flatten =
      xs.filter fun x => decide (x ≠ a) := by
  rw [List.flatten_filter_ne_nil, flatten_splitOn]

variable {a} in
/-- Every gap that is not filled with the separator adds one element. -/
theorem length_filter_fillGaps {x : α} (hx : x ≠ a) (t : List (Option α)) :
    ((fillGaps x t).filter fun y => decide (y ≠ a)).length =
      ((fillGaps a t).filter fun y => decide (y ≠ a)).length + t.count none := by
  induction t with
  | nil => rfl
  | cons c t ih =>
    cases c with
    | none =>
      have hhead : (fillGaps x (none :: t)).filter (fun y => decide (y ≠ a)) =
          x :: (fillGaps x t).filter fun y => decide (y ≠ a) :=
        List.filter_cons_of_pos (by simpa using hx)
      have hgap : (fillGaps a (none :: t)).filter (fun y => decide (y ≠ a)) =
          (fillGaps a t).filter fun y => decide (y ≠ a) :=
        List.filter_cons_of_neg (by simp)
      rw [hhead, hgap, List.length_cons, ih, List.count_cons_self, Nat.add_assoc]
    | some y =>
      have hsame : ∀ z, fillGaps z (some y :: t) = y :: fillGaps z t := fun z => rfl
      rw [hsame, hsame, List.filter_cons, List.filter_cons, List.count_cons_of_ne (by simp)]
      split
      · rw [List.length_cons, List.length_cons, ih, Nat.add_right_comm]
      · exact ih

end CText
