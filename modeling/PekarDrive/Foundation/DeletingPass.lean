import Mathlib.Data.List.Nodup
import Mathlib.Data.List.Perm.Subperm

/-!
# Walking an array while entries are deleted

A loop walks an array by index and visits each entry it meets. When the visited entry fails, it
is deleted by shifting the entries behind it down by one, and the loop goes on with the next
index: the entry that has moved into the freed place is passed over.

`DeletingPass.visited` and `DeletingPass.survivors` describe the whole walk by recursion on the
list. The walk visits every entry exactly when no entry but the last one fails
(`DeletingPass.length_visited_eq_iff`).

## Main definitions

* `DeletingPass.visited`: the entries visited, in order.
* `DeletingPass.survivors`: the entries left at the end.

## Main results

* `DeletingPass.visited_eq_self`, `DeletingPass.survivors_eq_filter`.
* `DeletingPass.length_visited_eq_iff`.
-/

namespace DeletingPass

variable {α : Type} (good : α → Bool)

/-- The entries that the walk visits. -/
def visited : List α → List α
  | [] => []
  | [x] => [x]
  | x :: y :: ys => x :: if good x then visited (y :: ys) else visited ys

/-- The entries that the walk leaves in the array. -/
def survivors : List α → List α
  | [] => []
  | [x] => if good x then [x] else []
  | x :: y :: ys => if good x then x :: survivors (y :: ys) else y :: survivors ys

variable {good}

theorem visited_cons_of_good {x : α} (hx : good x = true) (ys : List α) :
    visited good (x :: ys) = x :: visited good ys := by
  cases ys with
  | nil => rfl
  | cons y ys => rw [visited, if_pos hx]

theorem survivors_cons_of_good {x : α} (hx : good x = true) (ys : List α) :
    survivors good (x :: ys) = x :: survivors good ys := by
  cases ys with
  | nil => simp only [survivors, hx, if_true]
  | cons y ys => rw [survivors, if_pos hx]

theorem visited_cons_of_not_good {x : α} (hx : ¬ good x = true) (y : α) (ys : List α) :
    visited good (x :: y :: ys) = x :: visited good ys := by
  rw [visited, if_neg hx]

theorem survivors_cons_of_not_good {x : α} (hx : ¬ good x = true) (y : α) (ys : List α) :
    survivors good (x :: y :: ys) = y :: survivors good ys := by
  rw [survivors, if_neg hx]

theorem length_visited_le : (l : List α) → (visited good l).length ≤ l.length
  | [] => Nat.le_refl _
  | [_] => Nat.le_refl _
  | x :: y :: ys => by
      by_cases hx : good x = true
      · rw [visited_cons_of_good hx, List.length_cons, List.length_cons (a := x)]
        exact Nat.succ_le_succ (length_visited_le (y :: ys))
      · rw [visited_cons_of_not_good hx]
        have ih := length_visited_le ys
        simp only [List.length_cons]
        omega

/-- The walk visits as many entries as there are exactly when all but the last one are good. -/
theorem length_visited_eq_iff : (l : List α) →
    ((visited good l).length = l.length ↔ ∀ x ∈ l.dropLast, good x = true)
  | [] => by simp [visited]
  | [x] => by simp [visited]
  | x :: y :: ys => by
      rw [List.dropLast_cons_cons, List.forall_mem_cons]
      by_cases hx : good x = true
      · rw [visited_cons_of_good hx, List.length_cons, List.length_cons (a := x),
          Nat.add_right_cancel_iff, length_visited_eq_iff (y :: ys)]
        exact ⟨fun h => ⟨hx, h⟩, fun h => h.2⟩
      · have hle : (visited good ys).length ≤ ys.length := length_visited_le ys
        rw [visited_cons_of_not_good hx]
        simp only [List.length_cons]
        exact ⟨fun heq => by omega, fun h => absurd h.1 hx⟩

/-- When all but the last entry are good, the walk visits every entry once, in order. -/
theorem visited_eq_self : (l : List α) → (∀ x ∈ l.dropLast, good x = true) → visited good l = l
  | [], _ => rfl
  | [_], _ => rfl
  | x :: y :: ys, h => by
      rw [List.dropLast_cons_cons, List.forall_mem_cons] at h
      rw [visited_cons_of_good h.1, visited_eq_self (y :: ys) h.2]

/-- When all but the last entry are good, exactly the good entries are left, in order. -/
theorem survivors_eq_filter : (l : List α) → (∀ x ∈ l.dropLast, good x = true) →
    survivors good l = l.filter good
  | [], _ => rfl
  | [x], _ => by
      rw [survivors, List.filter_singleton]
      cases good x <;> rfl
  | x :: y :: ys, h => by
      rw [List.dropLast_cons_cons, List.forall_mem_cons] at h
      rw [survivors_cons_of_good h.1, survivors_eq_filter (y :: ys) h.2,
        List.filter_cons_of_pos h.1]

/-- A walk over distinct entries that visits all of them has only good entries before the last
one. -/
theorem forall_mem_dropLast_of_subset {l : List α} (hl : l.Nodup) (h : l ⊆ visited good l) :
    ∀ x ∈ l.dropLast, good x = true :=
  (length_visited_eq_iff l).1 (Nat.le_antisymm (length_visited_le l) (hl.subperm h).length_le)

end DeletingPass
