import PekarDrive.Table.Operations
import Mathlib.Data.List.Infix

/-!
# The server table as a list

Seen from outside, the server table is a list: `add_server` appends, `remove_server` erases the
first entry with the id, and the other functions look at the list. The array, its 16-bit count and
the shifting loop do not show as long as the list has at most 65535 entries.

## Main definitions

* `PekarDrive.TableChange`, with `prog` and `applyTo`: the calls that change the table, and what
  they do to a list.
* `PekarDrive.PointsTo`: a pointer into the array, and the entry that it stands for.
* `PekarDrive.inTurn`: a callback on the entries of a list, one after the other.
* `PekarDrive.ServerTable.Refines`: what all functions of the table say agrees with a list.

## Main results

* `PekarDrive.eval_change`: one call.
* `PekarDrive.eval_forEachServer_of_readOnly`: a callback that leaves the table alone.
* `PekarDrive.changes_refines`: every sequence of calls, after every prefix.
-/

namespace PekarDrive

open CText LockedThreads

/-- A call that changes the table. -/
inductive TableChange
  /-- `add_server`. -/
  | add (server : FileServer)
  /-- `remove_server`. -/
  | remove (id : UInt64)
  deriving DecidableEq

/-- What a call does to a list. -/
def TableChange.applyTo (l : List FileServer) : TableChange → List FileServer
  | add server => l ++ [server]
  | remove id => l.eraseP fun w => decide (w.id = id)

/-- The list after a sequence of calls. -/
def listAfter (cs : List TableChange) : List FileServer := cs.foldl TableChange.applyTo []

section Programs

variable {Q R : Type}

/-- The program of a call. -/
def TableChange.prog : TableChange → TableProg Q R Unit
  | add server => addServer server
  | remove id => removeServer id

/-- The program of a sequence of calls. -/
def changes : List TableChange → TableProg Q R Unit
  | [] => return ()
  | c :: cs => do
    c.prog
    changes cs

/-- A callback on the entries of a list, one after the other. -/
def inTurn (apply : FileServer → TableProg Q R Unit) : List FileServer → TableProg Q R Unit
  | [] => return ()
  | w :: ws => do
    apply w
    inTurn apply ws

end Programs

/-- The pointer refers to the entry in the array; for no entry it is `NULL`. -/
def PointsTo (t : ServerTable) : Option ℕ → Option FileServer → Prop
  | none, none => True
  | some i, some w => t.serverTable[i]? = some w
  | _, _ => False

/-- What the functions of the table return, and the entries that `for_each_server` visits, are
those of the list `l`. -/
structure ServerTable.Refines {Q R : Type} (env : List Q → Q → R) (t : ServerTable)
    (l : List FileServer) : Prop where
  /-- `table_count` is the length. -/
  tableCount : ∀ h, ∃ n, tableCount.eval env h t = (h, some (n, t)) ∧ n.toNat = l.length
  /-- `getfs_index` gives the entry at the index. -/
  getfsIndex : ∀ i h, ∃ p, (getfsIndex i).eval env h t = (h, some (p, t)) ∧ PointsTo t p l[i]?
  /-- `getfs_id` gives the first entry with the id. -/
  getfsId : ∀ id h, ∃ p, (getfsId id).eval env h t = (h, some (p, t)) ∧
    PointsTo t p (l.find? fun w => w.id == id)
  /-- `getfs_pred` gives the first entry that satisfies the predicate. -/
  getfsPred : ∀ pred h, ∃ p, (getfsPred pred).eval env h t = (h, some (p, t)) ∧
    PointsTo t p (l.find? pred)
  /-- `for_each_server` runs a callback that leaves the table alone on each entry once, in order. -/
  forEachServer : ∀ apply, (∀ w, (apply w).ReadOnly) → ∀ h,
    (forEachServer apply).eval env h t = (inTurn apply l).eval env h t

/-! ### The functions that look at the table -/

section Queries

variable {Q R : Type} (env : List Q → Q → R) (t : ServerTable)

theorem pointsTo_findIdx? (pred : FileServer → Bool) :
    PointsTo t (t.serverTable.findIdx? pred) (t.serverTable.find? pred) := by
  cases hfind : t.serverTable.findIdx? pred with
  | none =>
    rw [List.findIdx?_eq_none_iff] at hfind
    rw [List.find?_eq_none.mpr fun w hw => by simp [hfind w hw]]
    exact trivial
  | some i =>
    obtain ⟨hi, hpred, hfirst⟩ := List.findIdx?_eq_some_iff_getElem.mp hfind
    have hfind' : t.serverTable.find? pred = some t.serverTable[i] :=
      List.find?_eq_some_iff_getElem.mpr ⟨hpred, i, hi, rfl, fun j hj => by simpa using hfirst j hj⟩
    rw [hfind']
    exact List.getElem?_eq_getElem hi

theorem eval_getfsPred (pred : FileServer → Bool) (h : List Q) :
    (getfsPred pred).eval env h t = (h, some (t.serverTable.findIdx? pred, t)) := by
  simp only [getfsPred, Prog.acquire_bind, Prog.read_bind, Prog.eval_lock, Prog.eval_get]
  cases t.serverTable.findIdx? pred <;> rfl

theorem eval_getfsId (id : UInt64) (h : List Q) :
    (getfsId id).eval env h t = (h, some (t.serverTable.findIdx? fun w => w.id == id, t)) :=
  eval_getfsPred env t (fun w => w.id == id) h

theorem eval_getfsIndex_of_le {i : ℕ} (hi : t.serverTable.length ≤ i) (h : List Q) :
    (getfsIndex i).eval env h t = (h, some (none, t)) := by
  simp only [getfsIndex, Prog.read_bind, Prog.eval_get]
  rw [if_pos (by rw [← t.count_eq]; exact hi)]
  rfl

variable {apply : FileServer → TableProg Q R Unit} (happly : ∀ w, (apply w).ReadOnly)

include happly

/-- From index `i` on, the loop runs the callback on the entries from there on. -/
theorem eval_forEachLoop_of_readOnly (n i : ℕ) (h : List Q) (hn : t.serverTable.length ≤ i + n) :
    (forEachLoop apply n i).eval env h t =
      (inTurn apply (t.serverTable.drop i)).eval env h t := by
  induction n generalizing i h with
  | zero => rw [List.drop_eq_nil_of_le (by omega)]; rfl
  | succ n ih =>
    by_cases hi : i < t.serverTable.length
    · rw [eval_forEachLoop_succ env h apply (List.getElem?_eq_getElem hi),
        List.drop_eq_getElem_cons hi, inTurn, Prog.eval_bind, Prog.eval_bind]
      split
      · rfl
      · rename_i h' u t' heval
        -- the callback has left the table as it was
        obtain rfl : t' = t := (happly _).eq_of_eval heval
        exact ih (i + 1) h' (by omega)
    · rw [eval_forEachLoop_of_le env h apply (n + 1) (not_lt.mp hi),
        List.drop_eq_nil_of_le (not_lt.mp hi)]
      rfl

/-- **Visiting the entries.** -/
theorem eval_forEachServer_of_readOnly (h : List Q) :
    (forEachServer apply).eval env h t = (inTurn apply t.serverTable).eval env h t := by
  have hlen : t.serverTable.length ≤ 0 + ushrtMax := by
    rw [t.count_eq, Nat.zero_add]
    exact Nat.le_of_lt_succ t.serverCount.toNat_lt
  have hloop := eval_forEachLoop_of_readOnly env t happly ushrtMax 0 h hlen
  rw [List.drop_zero] at hloop
  rw [forEachServer, Prog.acquire_bind, Prog.eval_lock, Prog.eval_bind, hloop]
  cases heval : (inTurn apply t.serverTable).eval env h t with
  | mk h' result => cases result <;> rfl

end Queries

/-- All functions agree with the list of the entries in the array. -/
theorem ServerTable.refines {Q R : Type} (env : List Q → Q → R) (t : ServerTable) :
    t.Refines env t.serverTable where
  tableCount h := ⟨t.serverCount, eval_tableCount env h t, t.count_eq.symm⟩
  getfsIndex i h := by
    by_cases hi : i < t.serverTable.length
    · refine ⟨some i, eval_getfsIndex env h t hi, ?_⟩
      rw [List.getElem?_eq_getElem hi]
      exact List.getElem?_eq_getElem hi
    · refine ⟨none, eval_getfsIndex_of_le env t (not_lt.mp hi) h, ?_⟩
      rw [List.getElem?_eq_none (not_lt.mp hi)]
      exact trivial
  getfsId id h := ⟨_, eval_getfsId env t id h, pointsTo_findIdx? t _⟩
  getfsPred pred h := ⟨_, eval_getfsPred env t pred h, pointsTo_findIdx? t pred⟩
  forEachServer _ happly h := eval_forEachServer_of_readOnly env t happly h

/-! ### Sequences of calls -/

section Changes

variable {Q R : Type} (env : List Q → Q → R) (h : List Q)

/-- **One call.** As long as the count does not overflow, a call does to the entries what it does to
a list. -/
theorem eval_change (t : ServerTable) (c : TableChange)
    (hc : (c.applyTo t.serverTable).length ≤ 65535) : ∃ t',
    c.prog.eval env h t = (h, some ((), t')) ∧ t'.serverTable = c.applyTo t.serverTable := by
  cases c with
  | add server =>
    have hlt : t.serverCount.toNat < 65535 := by
      rw [← t.count_eq]
      simp only [TableChange.applyTo, List.length_append, List.length_singleton] at hc
      omega
    obtain ⟨t', hadd⟩ := ServerTable.add_isSome server hlt
    exact ⟨t', eval_addServer env h t hadd, ServerTable.serverTable_add hadd⟩
  | remove id => exact ⟨t.remove id, eval_removeServer env h t id, t.serverTable_remove id⟩

theorem eval_changes (cs : List TableChange) (t : ServerTable)
    (hcs : ∀ pre ∈ cs.inits, (pre.foldl TableChange.applyTo t.serverTable).length ≤ 65535) :
    ∃ t', (changes cs).eval env h t = (h, some ((), t')) ∧
      t'.serverTable = cs.foldl TableChange.applyTo t.serverTable := by
  induction cs generalizing t with
  | nil => exact ⟨t, rfl, rfl⟩
  | cons c cs ih =>
    have hmem : ∀ pre ∈ cs.inits, c :: pre ∈ (c :: cs).inits := fun pre hpre => by
      rw [List.mem_inits] at hpre ⊢
      exact (List.prefix_cons_inj c).mpr hpre
    obtain ⟨t₁, heval, htab⟩ := eval_change env h t c
      (hcs [c] (hmem [] (List.mem_inits _ _ |>.mpr List.nil_prefix)))
    obtain ⟨t', heval', htab'⟩ := ih t₁ fun pre hpre => by
      rw [htab]
      exact hcs (c :: pre) (hmem pre hpre)
    refine ⟨t', ?_, ?_⟩
    · rw [changes, Prog.eval_bind_of_eq heval, heval']
    · rw [htab', htab, List.foldl_cons]

/-- **The table refines a list.** For every sequence of calls during which the list has at most
65535 entries, after every prefix all functions of the table agree with the list. -/
theorem changes_refines (cs : List TableChange)
    (hcs : ∀ pre ∈ cs.inits, (listAfter pre).length ≤ 65535) : ∀ pre ∈ cs.inits, ∃ t,
      (changes pre).eval env h .empty = (h, some ((), t)) ∧ t.Refines env (listAfter pre) := by
  intro pre hpre
  have hinits : ∀ pre' ∈ pre.inits, pre' ∈ cs.inits := fun pre' hpre' => by
    rw [List.mem_inits] at hpre hpre' ⊢
    exact hpre'.trans hpre
  obtain ⟨t, heval, htab⟩ := eval_changes env h pre .empty fun pre' hpre' =>
    hcs pre' (hinits pre' hpre')
  have hlist : t.serverTable = listAfter pre := htab
  exact ⟨t, heval, hlist ▸ t.refines env⟩

end Changes

/-- Calls with a repeated id and an absent one. -/
def exampleChanges : List TableChange :=
  [.add ⟨1, 0, ⟨lit "10.0.0.1", 80⟩⟩, .add ⟨1, 0, ⟨lit "10.0.0.2", 80⟩⟩, .remove 7, .remove 1]

/-- Of two workers with one id, the second remains. -/
theorem changes_refines_exampleChanges :
    ∃ t, (changes exampleChanges : TableProg Unit Unit Unit).eval
      (fun _ _ => ()) [] .empty = ([], some ((), t)) ∧
    t.Refines (fun (_ : List Unit) _ => ()) [⟨1, 0, ⟨lit "10.0.0.2", 80⟩⟩] :=
  changes_refines (fun _ _ => ()) [] exampleChanges (by decide) exampleChanges (by decide)

end PekarDrive
