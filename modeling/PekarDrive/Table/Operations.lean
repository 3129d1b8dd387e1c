import PekarDrive.Foundation.Threads
import PekarDrive.Table.ServerTable

/-!
# The functions of the server table

The functions of `src/server_table.c` as programs over the table and its mutex. A
`struct file_server *` into the array is modelled by the index it was computed from: reading
through it (`PekarDrive.derefServer`) reads the entry that lies there at that time, and faults
when the pointer is `NULL` or the array has become shorter.

`for_each_server` calls back while it holds the mutex, and reads the count and the entry again in
every iteration. Its loop ends because the count is a 16-bit number: `USHRT_MAX` iterations
exhaust every index below a count.

## Main definitions

* `PekarDrive.addServer`, `PekarDrive.removeServer`, `PekarDrive.forEachServer`.
* `PekarDrive.getfsId`, `PekarDrive.getfsIndex`, `PekarDrive.getfsPred`, `PekarDrive.tableCount`.
* `PekarDrive.derefServer`.

## Main results

* `PekarDrive.eval_addServer`, `PekarDrive.eval_removeServer`: the functions run alone.
* `PekarDrive.eval_forEachLoop_succ`: one iteration of the loop, at an index with an entry.
-/

namespace PekarDrive

open CText LockedThreads

variable {Q R α : Type}

/-- A program over the server table. -/
abbrev TableProg (Q R α : Type) := Prog Q R ServerTable α

/-- `add_server`. -/
def addServer (server : FileServer) : TableProg Q R Unit := do
  Prog.acquire
  let t ← Prog.read
  match t.add server with
  | none => Prog.fault
  | some t' =>
    Prog.write t'
    Prog.release

/-- `remove_server`. -/
def removeServer (id : UInt64) : TableProg Q R Unit := do
  Prog.acquire
  let t ← Prog.read
  if t.indexof id < 0 then
    Prog.release
  else
    Prog.write (t.remove id)
    Prog.release

/-- The loop of `for_each_server` from index `i`, with at most `n` iterations. -/
def forEachLoop (apply : FileServer → TableProg Q R Unit) : ℕ → ℕ → TableProg Q R Unit
  | 0, _ => return ()
  | n + 1, i => do
    let t ← Prog.read
    if i < t.serverCount.toNat then
      match t.serverTable[i]? with
      | none => Prog.fault
      | some server =>
        apply server
        forEachLoop apply n (i + 1)
    else
      return ()

/-- The greatest value of an `unsigned short`. -/
def ushrtMax : ℕ := 65535

/-- `for_each_server`. -/
def forEachServer (apply : FileServer → TableProg Q R Unit) : TableProg Q R Unit := do
  Prog.acquire
  forEachLoop apply ushrtMax 0
  Prog.release

/-- `getfs_id`. -/
def getfsId (id : UInt64) : TableProg Q R (Option ℕ) := do
  Prog.acquire
  let t ← Prog.read
  match t.serverTable.findIdx? fun w => w.id == id with
  | some i =>
    Prog.release
    return some i
  | none =>
    Prog.release
    return none

/-- `getfs_index`: the bound is tested before the mutex is taken. -/
def getfsIndex (index : ℕ) : TableProg Q R (Option ℕ) := do
  let t ← Prog.read
  if t.serverCount.toNat ≤ index then
    return none
  else
    Prog.acquire
    Prog.release
    return some index

/-- `getfs_pred`. -/
def getfsPred (pred : FileServer → Bool) : TableProg Q R (Option ℕ) := do
  Prog.acquire
  let t ← Prog.read
  match t.serverTable.findIdx? pred with
  | some i =>
    Prog.release
    return some i
  | none =>
    Prog.release
    return none

/-- `table_count`, which takes no lock. -/
def tableCount : TableProg Q R UInt16 := do
  let t ← Prog.read
  return t.serverCount

/-- Reading the entry that a pointer into the array refers to. -/
def derefServer (server : Option ℕ) : TableProg Q R FileServer := do
  match server with
  | none => Prog.fault
  | some i =>
    let t ← Prog.read
    match t.serverTable[i]? with
    | none => Prog.fault
    | some w => return w

/-! ### What the functions may do -/

section Within

variable (W : Prop) (P : Q → Prop)

theorem within_tableCount : (tableCount : TableProg Q R UInt16).Within W P := fun _ => trivial

theorem within_getfsIndex (index : ℕ) :
    (getfsIndex index : TableProg Q R (Option ℕ)).Within W P := by
  intro t
  change (if t.serverCount.toNat ≤ index then Prog.ret none
    else Prog.lock (Prog.unlock (Prog.ret (some index))) : TableProg Q R _).Within W P
  split <;> trivial

theorem within_derefServer (server : Option ℕ) :
    (derefServer server : TableProg Q R FileServer).Within W P := by
  cases server with
  | none => trivial
  | some i =>
    intro t
    change (match t.serverTable[i]? with
      | none => Prog.fault
      | some w => Prog.ret w : TableProg Q R FileServer).Within W P
    split <;> trivial

variable {W} (hW : W)

include hW

theorem within_addServer (server : FileServer) :
    (addServer server : TableProg Q R Unit).Within W P := by
  intro t
  change (match t.add server with
    | none => Prog.fault
    | some t' => Prog.write t' >>= fun _ => Prog.release : TableProg Q R Unit).Within W P
  split
  · trivial
  · exact ⟨hW, trivial⟩

theorem within_removeServer (id : UInt64) :
    (removeServer id : TableProg Q R Unit).Within W P := by
  intro t
  change (if t.indexof id < 0 then Prog.release
    else Prog.write (t.remove id) >>= fun _ => Prog.release : TableProg Q R Unit).Within W P
  split
  · trivial
  · exact ⟨hW, trivial⟩

end Within

/-! ### The functions run alone -/

section Eval

variable (env : List Q → Q → R) (h : List Q) (t : ServerTable)

theorem eval_addServer {server : FileServer} {t' : ServerTable} (ht : t.add server = some t') :
    (addServer server).eval env h t = (h, some ((), t')) := by
  simp only [addServer, Prog.acquire_bind, Prog.read_bind, Prog.eval_lock, Prog.eval_get, ht]
  rfl

@[simp] theorem eval_removeServer (id : UInt64) :
    (removeServer id).eval env h t = (h, some ((), t.remove id)) := by
  simp only [removeServer, Prog.acquire_bind, Prog.read_bind, Prog.eval_lock, Prog.eval_get]
  split
  · rename_i hneg
    rw [ServerTable.remove, dif_pos hneg]
    rfl
  · rfl

@[simp] theorem eval_tableCount :
    (tableCount : TableProg Q R UInt16).eval env h t = (h, some (t.serverCount, t)) := rfl

theorem eval_getfsIndex {index : ℕ} (hlt : index < t.serverTable.length) :
    (getfsIndex index : TableProg Q R (Option ℕ)).eval env h t = (h, some (some index, t)) := by
  simp only [getfsIndex, Prog.read_bind, Prog.eval_get]
  rw [if_neg (by rw [← t.count_eq]; omega)]
  rfl

theorem eval_derefServer {i : ℕ} {w : FileServer} (hi : t.serverTable[i]? = some w) :
    (derefServer (some i) : TableProg Q R FileServer).eval env h t = (h, some (w, t)) := by
  simp only [derefServer, Prog.read_bind, Prog.eval_get, hi]
  rfl

end Eval

/-- The loop of `for_each_server` up to its first callback. -/
theorem forEachLoop_succ (apply : FileServer → TableProg Q R Unit) (n i : ℕ) :
    forEachLoop apply (n + 1) i = .get fun t =>
      if i < t.serverCount.toNat then
        match t.serverTable[i]? with
        | none => Prog.fault
        | some server => apply server >>= fun _ => forEachLoop apply n (i + 1)
      else Prog.ret () := rfl

/-- `for_each_server` does what its callback does. -/
theorem within_forEachServer {W : Prop} {P : Q → Prop} {apply : FileServer → TableProg Q R Unit}
    (happly : ∀ w, (apply w).Within W P) : (forEachServer apply).Within W P := by
  have hloop : ∀ n i, (forEachLoop apply n i).Within W P := by
    intro n
    induction n with
    | zero => exact fun _ => trivial
    | succ n ih =>
      intro i
      rw [forEachLoop_succ]
      intro t
      beta_reduce
      split
      · split
        · exact trivial
        · exact (happly _).bind fun _ => ih (i + 1)
      · exact trivial
  exact (hloop ushrtMax 0).bind fun _ => trivial

/-- One iteration of the loop of `for_each_server`, at an index with an entry. -/
theorem eval_forEachLoop_succ (env : List Q → Q → R) (h : List Q)
    (apply : FileServer → TableProg Q R Unit) {t : ServerTable} {n i : ℕ} {w : FileServer}
    (hi : t.serverTable[i]? = some w) :
    (forEachLoop apply (n + 1) i).eval env h t =
      (apply w >>= fun _ => forEachLoop apply n (i + 1)).eval env h t := by
  have hlt : i < t.serverCount.toNat := by
    rw [← t.count_eq]
    exact (List.getElem?_eq_some_iff.mp hi).1
  simp only [forEachLoop_succ, Prog.eval_get, if_pos hlt, hi]

/-- The loop of `for_each_server` ends at the count. -/
theorem eval_forEachLoop_of_le (env : List Q → Q → R) (h : List Q)
    (apply : FileServer → TableProg Q R Unit) {t : ServerTable} (n : ℕ) {i : ℕ}
    (hi : t.serverTable.length ≤ i) :
    (forEachLoop apply n i).eval env h t = (h, some ((), t)) := by
  cases n with
  | zero => rfl
  | succ n =>
    rw [forEachLoop_succ, Prog.eval_get, if_neg (by rw [← t.count_eq]; omega)]
    rfl

end PekarDrive
