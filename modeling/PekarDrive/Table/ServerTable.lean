import PekarDrive.Foundation.Text
import Mathlib.Data.List.Basic

/-!
# The server table

The data of `src/server_table.c`: the array of registered workers with its count, and what the
functions do to it between taking and giving back the mutex. The count is an `unsigned short`, so
adding the 65536th entry makes it zero: `realloc` then frees the array and the store goes to
index `-1`. `PekarDrive.ServerTable.add` has no result in that case. As long as it has one, the
array holds exactly the counted entries, which the type records.

## Main definitions

* `PekarDrive.FileServer`, `PekarDrive.ServerTable`.
* `PekarDrive.ServerTable.add`: the body of `add_server`.
* `PekarDrive.ServerTable.indexof`, `PekarDrive.ServerTable.remove`: the search and the shifting
  loop of `remove_server`.

## Main results

* `PekarDrive.ServerTable.serverTable_remove`: removing an id erases its first entry and keeps the
  order of the others.
-/

namespace PekarDrive

open CText

/-- Where a worker listens. -/
structure Location where
  /-- The address as text. -/
  ip : CString
  /-- The port. -/
  port : UInt16
  deriving DecidableEq

/-- The struct `file_server`. -/
structure FileServer where
  /-- The id, a `ftid_t`. -/
  id : UInt64
  /-- Set by no function of the master. -/
  size : Int64
  /-- Where the worker listens. -/
  location : Location
  deriving DecidableEq

/-- The static variables `server_table` and `server_count`. -/
@[ext] structure ServerTable where
  /-- The entries of the allocated array. -/
  serverTable : List FileServer
  /-- The number of entries. -/
  serverCount : UInt16
  /-- The array has been resized to the count. -/
  count_eq : serverTable.length = serverCount.toNat

namespace ServerTable

/-- The table at the start of the program. -/
def empty : ServerTable := ⟨[], 0, rfl⟩

/-- The body of `add_server`: the count is incremented, the array resized to it and the entry
stored at index `server_count - 1`. -/
def add (t : ServerTable) (server : FileServer) : Option ServerTable :=
  if h : t.serverCount + 1 = 0 then none
  else some {
    serverTable := t.serverTable ++ [server]
    serverCount := t.serverCount + 1
    count_eq := by
      have hlt : t.serverCount.toNat + 1 < 2 ^ 16 := by
        have := t.serverCount.toNat_lt
        have hne : (t.serverCount + 1).toNat ≠ 0 := fun h0 => h (UInt16.toNat_inj.mp h0)
        rw [UInt16.toNat_add] at hne
        simp only [UInt16.reduceToNat] at hne
        omega
      rw [List.length_append, t.count_eq, UInt16.toNat_add]
      simp only [List.length_singleton, UInt16.reduceToNat, Nat.mod_eq_of_lt hlt] }

/-- The loop of `indexof` from index `i`, over the entries from there on. -/
def indexofLoop (id : UInt64) : List FileServer → ℕ → ℤ
  | [], _ => -1
  | w :: ws, i => if w.id = id then i else indexofLoop id ws (i + 1)

/-- `indexof`: the index of the first entry with the id, or `-1`. -/
def indexof (t : ServerTable) (id : UInt64) : ℤ := indexofLoop id t.serverTable 0

/-- The loop of `remove_server` with `n` iterations left: each entry is overwritten by the next. -/
def shiftLoop (a : List FileServer) (idx : ℕ) : ℕ → List FileServer
  | 0 => a
  | n + 1 =>
    match a[idx + 1]? with
    | some w => shiftLoop (a.set idx w) (idx + 1) n
    | none => a

@[simp] theorem length_shiftLoop (a : List FileServer) (idx n : ℕ) :
    (shiftLoop a idx n).length = a.length := by
  induction n generalizing a idx with
  | zero => rfl
  | succ n ih =>
    unfold shiftLoop
    split
    · rw [ih, List.length_set]
    · rfl

/-- The entries behind `idx` shifted down by one, and the array shortened by one. -/
def removeAt (t : ServerTable) (idx : ℕ) (h : idx < t.serverTable.length) : ServerTable where
  serverTable := (shiftLoop t.serverTable idx (t.serverTable.length - (idx + 1))).take
    (t.serverTable.length - 1)
  serverCount := t.serverCount - 1
  count_eq := by
    have hpos : 1 ≤ t.serverCount := by
      rw [UInt16.le_iff_toNat_le, ← t.count_eq]
      exact Nat.one_le_iff_ne_zero.mpr (Nat.ne_zero_of_lt h)
    rw [List.length_take, length_shiftLoop, UInt16.toNat_sub_of_le _ _ hpos, ← t.count_eq]
    exact Nat.min_eq_left (Nat.sub_le _ _)

theorem indexofLoop_lt (id : UInt64) (ws : List FileServer) (i : ℕ)
    (h : ¬ indexofLoop id ws i < 0) : (indexofLoop id ws i).toNat < i + ws.length := by
  induction ws generalizing i with
  | nil => exact absurd (by decide : (-1 : ℤ) < 0) h
  | cons w ws ih =>
    unfold indexofLoop at h ⊢
    split_ifs at h ⊢ with hw
    · simp
    · have := ih (i + 1) h
      rw [List.length_cons]
      omega

/-- The body of `remove_server`. -/
def remove (t : ServerTable) (id : UInt64) : ServerTable :=
  if h : t.indexof id < 0 then t
  else t.removeAt (t.indexof id).toNat (by
    have := indexofLoop_lt id t.serverTable 0 h
    rwa [Nat.zero_add] at this)

/-! ### Removing erases the first entry -/

theorem indexofLoop_of_forall_ne {id : UInt64} {ws : List FileServer} (h : ∀ w ∈ ws, w.id ≠ id)
    (i : ℕ) : indexofLoop id ws i = -1 := by
  induction ws generalizing i with
  | nil => rfl
  | cons w ws ih =>
    rw [indexofLoop, if_neg (h w List.mem_cons_self)]
    exact ih (fun v hv => h v (List.mem_cons_of_mem w hv)) (i + 1)

theorem indexofLoop_append {id : UInt64} {pre : List FileServer} (hpre : ∀ w ∈ pre, w.id ≠ id)
    {w : FileServer} (hw : w.id = id) (post : List FileServer) (i : ℕ) :
    indexofLoop id (pre ++ w :: post) i = (i + pre.length : ℕ) := by
  induction pre generalizing i with
  | nil => rw [List.nil_append, indexofLoop, if_pos hw]; rfl
  | cons v pre ih =>
    rw [List.cons_append, indexofLoop, if_neg (hpre v List.mem_cons_self),
      ih (fun u hu => hpre u (List.mem_cons_of_mem v hu)), List.length_cons]
    congr 1
    omega

/-- Shifting over `x` and shortening the array drops `x`. -/
theorem take_shiftLoop (pre : List FileServer) (x : FileServer) (post : List FileServer) :
    (shiftLoop (pre ++ x :: post) pre.length post.length).take (pre.length + post.length) =
      pre ++ post := by
  induction post generalizing pre x with
  | nil => simp [shiftLoop]
  | cons y ys ih =>
    have hget : (pre ++ x :: y :: ys)[pre.length + 1]? = some y := by simp
    have hset : (pre ++ x :: y :: ys).set pre.length y = (pre ++ [y]) ++ y :: ys := by simp
    have hlen : (pre ++ [y]).length = pre.length + 1 := by simp
    have htail := ih (pre ++ [y]) y
    rw [hlen] at htail
    rw [List.length_cons, shiftLoop, hget]
    simp only
    rw [hset, show pre.length + (ys.length + 1) = pre.length + 1 + ys.length by omega, htail,
      List.append_assoc, List.singleton_append]

theorem remove_of_forall_ne {t : ServerTable} {id : UInt64} (h : ∀ w ∈ t.serverTable, w.id ≠ id) :
    t.remove id = t := by
  have hidx : t.indexof id = -1 := indexofLoop_of_forall_ne h 0
  rw [remove, dif_pos (by rw [hidx]; decide)]

theorem serverTable_remove_append {t : ServerTable} {id : UInt64} {pre post : List FileServer}
    {w : FileServer} (ht : t.serverTable = pre ++ w :: post) (hpre : ∀ v ∈ pre, v.id ≠ id)
    (hw : w.id = id) : (t.remove id).serverTable = pre ++ post := by
  have hidx : t.indexof id = (pre.length : ℕ) := by
    rw [indexof, ht, indexofLoop_append hpre hw, Nat.zero_add]
  have hneg : ¬ t.indexof id < 0 := by rw [hidx]; exact Int.not_lt.mpr (Int.natCast_nonneg _)
  have hlen : t.serverTable.length = pre.length + (post.length + 1) := by
    rw [ht, List.length_append, List.length_cons]
  rw [remove, dif_neg hneg]
  simp only [removeAt, hidx, Int.toNat_natCast, hlen]
  rw [ht, show pre.length + (post.length + 1) - (pre.length + 1) = post.length by omega,
    show pre.length + (post.length + 1) - 1 = pre.length + post.length by omega, take_shiftLoop]

/-- **Removal.** `remove_server` erases the first entry with the id and keeps the order of the
others; an absent id changes nothing. -/
theorem serverTable_remove (t : ServerTable) (id : UInt64) :
    (t.remove id).serverTable = t.serverTable.eraseP fun w => decide (w.id = id) := by
  by_cases h : ∃ w ∈ t.serverTable, w.id = id
  · obtain ⟨w, hmem, hw⟩ := h
    obtain ⟨v, pre, post, hpre, hv, ht, herase⟩ :=
      List.exists_of_eraseP (p := fun w => decide (w.id = id)) hmem (decide_eq_true hw)
    rw [herase]
    exact serverTable_remove_append ht (fun u hu => by simpa using hpre u hu) (by simpa using hv)
  · have hne : ∀ w ∈ t.serverTable, w.id ≠ id := fun w hw hid => h ⟨w, hw, hid⟩
    rw [remove_of_forall_ne hne, List.eraseP_of_forall_not fun w hw => by simpa using hne w hw]

/-- The count is zero exactly for the empty table. -/
theorem serverCount_eq_zero_iff {t : ServerTable} : t.serverCount = 0 ↔ t.serverTable = [] := by
  rw [← UInt16.toNat_inj, ← t.count_eq]
  exact List.length_eq_zero_iff

theorem serverTable_add {t t' : ServerTable} {w : FileServer} (h : t.add w = some t') :
    t'.serverTable = t.serverTable ++ [w] := by
  unfold add at h
  split_ifs at h
  rw [← Option.some.inj h]

theorem add_isSome {t : ServerTable} (w : FileServer) (h : t.serverCount.toNat < 65535) :
    ∃ t', t.add w = some t' := by
  have hne : ¬ t.serverCount + 1 = 0 := fun h0 => by
    have := congrArg UInt16.toNat h0
    rw [UInt16.toNat_add] at this
    simp only [UInt16.reduceToNat] at this
    omega
  exact ⟨_, dif_neg hne⟩

end ServerTable

end PekarDrive
