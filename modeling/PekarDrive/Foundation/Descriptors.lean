import Mathlib.Data.Int.Notation
import Mathlib.Data.List.Basic
import Mathlib.Data.Nat.Basic
import Mathlib.Logic.Function.Basic

/-!
# Descriptors of a process

A process has a table of descriptors. Opening one gives the lowest number that is free, closing a
number frees it, and closing a number that is not open does nothing. Each slot remembers by which
opening its descriptor was opened, so that a number kept in a variable can be compared with what
the number stands for now.

## Main definitions

* `Descriptors.Table`, with `owner`, `lowestFree`, `opened` and `close`.
* `Descriptors.Handle`: a number in a variable, and the opening that it comes from.
* `Descriptors.Handle.Live`: the number still stands for what was opened for the variable.
* `Descriptors.Apart`: the variables of a program hold descriptors of their own.

## Main results

* `Descriptors.Table.owner_opened`, `Descriptors.Table.owner_close`.
* `Descriptors.Apart.acquire`, `Descriptors.Apart.close` and their siblings: the operations keep
  the variables apart.
-/

namespace Descriptors

/-- The descriptors of a process. -/
structure Table where
  /-- For each number, the opening that its descriptor comes from, if it is open. -/
  slots : List (Option ℕ)
  /-- The number of openings so far. -/
  opens : ℕ
  /-- An opening is counted. -/
  lt_opens : ∀ k, some k ∈ slots → k < opens

namespace Table

/-- The opening that a descriptor comes from. -/
def owner (t : Table) : ℤ → Option ℕ
  | .ofNat n => (t.slots[n]?).join
  | .negSucc _ => none

/-- The descriptor is open. -/
def IsOpen (t : Table) (fd : ℤ) : Prop := (t.owner fd).isSome

instance (t : Table) (fd : ℤ) : Decidable (t.IsOpen fd) :=
  inferInstanceAs (Decidable ((t.owner fd).isSome = true))

/-- The lowest free number. -/
def lowestFree (t : Table) : ℕ := t.slots.findIdx Option.isNone

/-- The table after an opening. -/
def opened (t : Table) : Table where
  slots :=
    if t.lowestFree < t.slots.length then t.slots.set t.lowestFree (some t.opens)
    else t.slots ++ [some t.opens]
  opens := t.opens + 1
  lt_opens k hk := by
    have hold : ∀ k, some k ∈ t.slots → k < t.opens + 1 :=
      fun k hk => Nat.lt_succ_of_lt (t.lt_opens k hk)
    split at hk
    · rcases List.mem_or_eq_of_mem_set hk with hk | hk
      · exact hold k hk
      · exact Option.some.inj hk ▸ Nat.lt_succ_self _
    · rcases List.mem_append.mp hk with hk | hk
      · exact hold k hk
      · exact Option.some.inj (List.mem_singleton.mp hk) ▸ Nat.lt_succ_self _

/-- The table after closing a number. -/
def close (t : Table) : ℤ → Table
  | .ofNat n => {
      slots := t.slots.set n none
      opens := t.opens
      lt_opens := fun k hk => by
        rcases List.mem_or_eq_of_mem_set hk with hk | hk
        · exact t.lt_opens k hk
        · exact absurd hk (by simp) }
  | .negSucc _ => t

variable (t : Table)

theorem lt_opens_of_owner {fd : ℤ} {k : ℕ} (h : t.owner fd = some k) : k < t.opens := by
  cases fd with
  | ofNat n =>
    refine t.lt_opens k (List.mem_iff_getElem?.mpr ⟨n, ?_⟩)
    simpa [owner, Option.join_eq_some_iff] using h
  | negSucc n => exact absurd h (by simp [owner])

theorem owner_lowestFree : t.owner t.lowestFree = none := by
  change (t.slots[t.lowestFree]?).join = none
  by_cases h : t.lowestFree < t.slots.length
  · have hnone := List.findIdx_getElem (w := h)
    rw [List.getElem?_eq_getElem h]
    exact Option.isNone_iff_eq_none.mp hnone
  · rw [List.getElem?_eq_none (not_lt.mp h)]
    rfl

theorem lowestFree_le {n : ℕ} (h : t.owner n = none) : t.lowestFree ≤ n := by
  change (t.slots[n]?).join = none at h
  by_contra hlt
  have hlen : n < t.slots.length := lt_of_lt_of_le (not_le.mp hlt) List.findIdx_le_length
  have hsome := List.not_of_lt_findIdx (not_le.mp hlt)
  rw [List.getElem?_eq_getElem hlen] at h
  rw [Option.join_some] at h
  simp [h] at hsome

/-- **Opening.** -/
theorem owner_opened (fd : ℤ) :
    t.opened.owner fd = if fd = t.lowestFree then some t.opens else t.owner fd := by
  cases fd with
  | negSucc n => rfl
  | ofNat n =>
    have hcast : (Int.ofNat n = (t.lowestFree : ℤ)) ↔ n = t.lowestFree := Int.ofNat_inj
    have hle : t.lowestFree ≤ t.slots.length := List.findIdx_le_length
    simp only [owner, opened, hcast]
    by_cases hlt : t.lowestFree < t.slots.length
    · rw [if_pos hlt, List.getElem?_set]
      by_cases hn : n = t.lowestFree
      · simp [hn, hlt]
      · simp [hn, Ne.symm hn]
    · have hlen : t.lowestFree = t.slots.length := le_antisymm hle (not_lt.mp hlt)
      rw [if_neg hlt, List.getElem?_append, hlen]
      rcases Nat.lt_trichotomy n t.slots.length with hn | rfl | hn
      · simp [hn, Nat.ne_of_lt hn]
      · simp
      · have hone : [some t.opens].length ≤ n - t.slots.length := Nat.sub_pos_of_lt hn
        simp [Nat.not_lt_of_lt hn, Nat.ne_of_gt hn, List.getElem?_eq_none hone]

/-- **Closing.** -/
theorem owner_close (fd fd' : ℤ) :
    (t.close fd).owner fd' = if fd' = fd then none else t.owner fd' := by
  cases fd with
  | negSucc n =>
    change t.owner fd' = _
    split
    · rename_i h
      rw [h]
      rfl
    · rfl
  | ofNat n =>
    cases fd' with
    | negSucc n' => rfl
    | ofNat n' =>
      have hcast : (Int.ofNat n' = Int.ofNat n) ↔ n = n' := Int.ofNat_inj.trans eq_comm
      simp only [owner, close, List.getElem?_set, hcast]
      by_cases hn : n = n'
      · rw [if_pos hn, if_pos hn]
        split <;> rfl
      · rw [if_neg hn, if_neg hn]

theorem isOpen_opened_iff (fd : ℤ) : t.opened.IsOpen fd ↔ fd = t.lowestFree ∨ t.IsOpen fd := by
  rw [IsOpen, owner_opened]
  split <;> simp [*, IsOpen]

theorem isOpen_close_iff (fd fd' : ℤ) : (t.close fd).IsOpen fd' ↔ fd' ≠ fd ∧ t.IsOpen fd' := by
  rw [IsOpen, owner_close]
  split <;> simp [*, IsOpen]

theorem not_isOpen_lowestFree : ¬ t.IsOpen t.lowestFree := by
  simp [IsOpen, owner_lowestFree]

end Table

/-! ### Variables that hold descriptors -/

/-- A number in a variable; `opening` is the opening that it comes from, if it comes from one. -/
structure Handle where
  /-- The number. -/
  fd : ℤ
  /-- The opening. -/
  opening : Option ℕ

/-- The number stands for the descriptor that was opened for the variable. -/
def Handle.Live (t : Table) (h : Handle) : Prop := ∃ k, h.opening = some k ∧ t.owner h.fd = some k

/-- What comes from an opening is still open, and no two variables share an opening. -/
structure Apart {ι : Type} (t : Table) (held : ι → Option Handle) : Prop where
  /-- What comes from an opening is still open. -/
  live : ∀ p h k, held p = some h → h.opening = some k → t.owner h.fd = some k
  /-- No two variables share an opening. -/
  distinct : ∀ p q h h' k, p ≠ q → held p = some h → held q = some h' → h.opening = some k →
    h'.opening ≠ some k

namespace Apart

variable {ι : Type} {t : Table} {held : ι → Option Handle} {p : ι} {h : Handle}

/-- What comes from an opening is alive, and nothing else is. -/
theorem live_iff (ha : Apart t held) (hp : held p = some h) : h.Live t ↔ h.opening ≠ none := by
  constructor
  · rintro ⟨k, hk, -⟩
    simp [hk]
  · intro hne
    obtain ⟨k, hk⟩ := Option.ne_none_iff_exists'.mp hne
    exact ⟨k, hk, ha.live p h k hp hk⟩

/-- A descriptor that no variable holds is opened. -/
theorem leak (ha : Apart t held) : Apart t.opened held := by
  refine ⟨fun q h k hq hk => ?_, ha.distinct⟩
  have howner := ha.live q h k hq hk
  rw [Table.owner_opened, if_neg]
  · exact howner
  · intro hfd
    rw [hfd, Table.owner_lowestFree] at howner
    exact absurd howner (by simp)

variable [DecidableEq ι]

/-- A variable that holds nothing from an opening is in nobody's way. -/
theorem set (ha : Apart t held) {x : Option Handle} (hx : ∀ h ∈ x, h.opening = none) :
    Apart t (Function.update held p x) := by
  have hold : ∀ q h k, Function.update held p x q = some h → h.opening = some k →
      q ≠ p ∧ held q = some h := by
    intro q h k hq hk
    by_cases hqp : q = p
    · subst hqp
      rw [Function.update_self] at hq
      exact absurd (hx h hq) (by simp [hk])
    · rw [Function.update_of_ne hqp] at hq
      exact ⟨hqp, hq⟩
  refine ⟨fun q h k hq hk => ha.live q h k (hold q h k hq hk).2 hk, ?_⟩
  intro q q' h h' k hne hq hq' hk hk'
  exact ha.distinct q q' h h' k hne (hold q h k hq hk).2 (hold q' h' k hq' hk').2 hk hk'

/-- A descriptor is opened into a variable. -/
theorem acquire (ha : Apart t held) (p : ι) :
    Apart t.opened (Function.update held p (some ⟨t.lowestFree, some t.opens⟩)) := by
  have hcases : ∀ q h k, Function.update held p (some ⟨t.lowestFree, some t.opens⟩) q = some h →
      h.opening = some k → (q = p ∧ h.fd = t.lowestFree ∧ k = t.opens) ∨
        (q ≠ p ∧ held q = some h ∧ k < t.opens) := by
    intro q h k hq hk
    by_cases hqp : q = p
    · subst hqp
      rw [Function.update_self] at hq
      obtain rfl := Option.some.inj hq
      exact .inl ⟨rfl, rfl, (Option.some.inj hk).symm⟩
    · rw [Function.update_of_ne hqp] at hq
      exact .inr ⟨hqp, hq, t.lt_opens_of_owner (ha.live q h k hq hk)⟩
  refine ⟨fun q h k hq hk => ?_, ?_⟩
  · rcases hcases q h k hq hk with ⟨-, hfd, rfl⟩ | ⟨-, hq, -⟩
    · rw [Table.owner_opened, if_pos hfd]
    · exact ha.leak.live q h k hq hk
  · intro q q' h h' k hne hq hq' hk hk'
    rcases hcases q h k hq hk with ⟨hqp, -, hnew⟩ | ⟨-, hq, hlt⟩
    · rcases hcases q' h' k hq' hk' with ⟨hqp', -, -⟩ | ⟨-, -, hlt⟩
      · exact hne (hqp.trans hqp'.symm)
      · omega
    · rcases hcases q' h' k hq' hk' with ⟨-, -, hnew⟩ | ⟨-, hq', -⟩
      · omega
      · exact ha.distinct q q' h h' k hne hq hq' hk hk'

/-- A variable closes what it holds. -/
theorem close (ha : Apart t held) (hp : held p = some h) (hlive : h.Live t) {x : Option Handle}
    (hx : ∀ h ∈ x, h.opening = none) : Apart (t.close h.fd) (Function.update held p x) := by
  have hset := ha.set (p := p) hx
  refine ⟨fun q h' k' hq hk' => ?_, hset.distinct⟩
  have howner := hset.live q h' k' hq hk'
  rw [Table.owner_close, if_neg]
  · exact howner
  · -- the variable would hold the descriptor that is closed
    intro hfd
    obtain ⟨k, hk, hown⟩ := hlive
    rw [hfd, hown] at howner
    obtain rfl := Option.some.inj howner
    by_cases hqp : q = p
    · subst hqp
      rw [Function.update_self] at hq
      exact absurd (hx h' hq) (by simp [hk'])
    · rw [Function.update_of_ne hqp] at hq
      exact ha.distinct p q h h' k (Ne.symm hqp) hp hq hk hk'

end Apart

end Descriptors
