import PekarDrive.WorkerAdmin.Ping
import Mathlib.Data.List.Infix

/-!
# Requests of clients, sent on to workers

The functions of `src/worker_admin.c` that the main thread calls for a client, and `least_load`
of `src/balance.c`. A pointer that may be `NULL` is an `Option`; handing `NULL` to a function of
`string.h` or reading through it is a fault.

`worker_ls_index` returns `NULL` when the worker cannot be reached or does not answer.
`worker_ls` tests for it and goes on with the next worker; `find_by_file` hands the pointer to
`strstr`.

## Main definitions

* `PekarDrive.leastLoad`.
* `PekarDrive.workerLsIndex`, `PekarDrive.findByFile`, `PekarDrive.workerLs`.
* `PekarDrive.workerWrite`, `PekarDrive.workerAppend`, `PekarDrive.workerRead`,
  `PekarDrive.workerDelete`.
* `PekarDrive.lsAnswer`, `PekarDrive.lsRequest`: what `worker_ls_index` asks and makes of the
  answer.
* `PekarDrive.lsAnswers`, `PekarDrive.joinLs`: the answers that `worker_ls` gets, and its result.
* `PekarDrive.listing`, `PekarDrive.searchStop`, `PekarDrive.Searchable`: the listings that a search
  sees, and where it stops.

## Main results

* `PekarDrive.eval_workerLsIndex`, `PekarDrive.eval_workerLs`, `PekarDrive.eval_workerWrite`,
  `PekarDrive.eval_findByFile`, `PekarDrive.eval_workerDelete`: the functions run alone.
* `PekarDrive.searchable_iff`: the search for a file faults exactly at a `NULL` listing before the
  first one that holds the name.
-/

namespace PekarDrive

open CMemory CText LockedThreads

/-! ### The functions -/

/-- `least_load`. -/
def leastLoad : TableProg Request Reply (Option ℕ) := do
  let count ← tableCount
  if count = 0 then
    return none
  else
    getfsIndex 0

/-- The exchange of `worker_ls_index`. -/
def lsRequest (tokens : Tokens) (server : FileServer) : Request where
  server := server
  packet := attachToken tokens.masterTkn (pInit 0 (lit "") MsgType.ls.code)
  sendLen := sizeofPacket + 1
  readLen := DecodeSite.lsIndex.bufferSize

/-- The string that `worker_ls_index` returns: the argument of the answer, which carries no
terminator, or `NULL`. -/
def lsAnswer (r : Reply) : Option CString :=
  if r.written ≤ 0 then none
  else
    match DecodeSite.lsIndex.decode r.read with
    | none => none
    | some p => some (CString.ofMemory (p.val.arg ++ r.behind))

/-- `worker_ls_index`. -/
def workerLsIndex (tokens : Tokens) (index : ℕ) : TableProg Request Reply (Option CString) := do
  let worker ← getfsIndex index
  let w ← derefServer worker
  let r ← Prog.ask (lsRequest tokens w)
  return lsAnswer r

/-- `strstr(ls, file) != NULL`. -/
def strstr (ls file : CString) : Bool := decide (file.bytes <:+: ls.bytes)

/-- The loop of `find_by_file` from index `i`, with `n` iterations left. -/
def findByFileLoop (tokens : Tokens) (file : CString) : ℕ → ℕ →
    TableProg Request Reply (Option ℕ)
  | 0, _ => return none
  | n + 1, i => do
    match ← workerLsIndex tokens i with
    | none => Prog.fault
    | some ls => if strstr ls file then getfsIndex i else findByFileLoop tokens file n (i + 1)

/-- `find_by_file`. -/
def findByFile (tokens : Tokens) (file : CString) : TableProg Request Reply (Option ℕ) := do
  let workers ← tableCount
  findByFileLoop tokens file workers.toNat 0

/-- The loop of `worker_ls` from index `i`, with `n` iterations left. -/
def workerLsLoop (tokens : Tokens) : ℕ → ℕ → CString → TableProg Request Reply CString
  | 0, _, result => return result
  | n + 1, i, result => do
    match ← workerLsIndex tokens i with
    | none => workerLsLoop tokens n (i + 1) result
    | some ls => workerLsLoop tokens n (i + 1) ((result.append (lit "\n")).append ls)

/-- `worker_ls`: the listings are appended to what lies in a fresh block of one byte. -/
def workerLs (tokens : Tokens) (freshBlock : List UInt8) : TableProg Request Reply CString := do
  let workers ← tableCount
  workerLsLoop tokens workers.toNat 0 (CString.ofMemory freshBlock)

/-- `written_bytes`: the number in the argument of the answer. -/
def writtenBytes (r : Reply) : ℤ :=
  match DecodeSite.writtenBytes.decode r.read with
  | none => -1
  | some p => atol (CString.ofMemory (p.val.arg ++ r.behind))

/-- The exchange of `worker_write`. -/
def writeRequest (tokens : Tokens) (file data : CString) (server : FileServer) : Request :=
  let buffer := (file.append (lit ";")).append data
  { server := server
    packet := attachToken tokens.masterTkn (pInit 0 buffer MsgType.write.code)
    sendLen := buffer.strlen + sizeofPacket + 1
    readLen := DecodeSite.writtenBytes.bufferSize }

/-- `worker_write`. -/
def workerWrite (tokens : Tokens) (file data : CString) : TableProg Request Reply ℤ := do
  let fs ← leastLoad
  match fs with
  | none => return -1
  | some _ =>
    let w ← derefServer fs
    let r ← Prog.ask (writeRequest tokens file data w)
    return writtenBytes r

/-- `worker_append`, which is not finished. -/
def workerAppend (_file _data : CString) : TableProg Request Reply ℤ := return -1

/-- `worker_read`, which is not finished: it returns `NULL`. -/
def workerRead (_file : CString) : TableProg Request Reply (Option CString) := return none

/-- The exchange of `worker_delete`, which reads no answer. -/
def deleteRequest (tokens : Tokens) (file : CString) (server : FileServer) : Request where
  server := server
  packet := attachToken tokens.masterTkn (pInit 0 file MsgType.delete.code)
  sendLen := sizeofPacket + file.strlen
  readLen := 0

/-- `worker_delete`. -/
def workerDelete (tokens : Tokens) (file : CString) : TableProg Request Reply Unit := do
  let worker ← findByFile tokens file
  match worker with
  | none => return ()
  | some _ =>
    let w ← derefServer worker
    let _ ← Prog.ask (deleteRequest tokens file w)
    return ()

/-! ### What the functions may do -/

section Within

variable (tokens : Tokens) {W : Prop} {P : Request → Prop}

theorem within_leastLoad : leastLoad.Within W P := by
  refine (within_tableCount W P).bind fun count => ?_
  split
  · trivial
  · exact within_getfsIndex W P 0

theorem within_workerLsIndex (hP : ∀ w, P (lsRequest tokens w)) (i : ℕ) :
    (workerLsIndex tokens i).Within W P :=
  (within_getfsIndex W P i).bind fun worker => (within_derefServer W P worker).bind fun w =>
    ⟨hP w, fun _ => trivial⟩

theorem within_findByFile (hP : ∀ w, P (lsRequest tokens w)) (file : CString) :
    (findByFile tokens file).Within W P := by
  have hloop : ∀ n i, (findByFileLoop tokens file n i).Within W P := by
    intro n
    induction n with
    | zero => exact fun _ => trivial
    | succ n ih =>
      intro i
      refine (within_workerLsIndex tokens hP i).bind fun ls => ?_
      cases ls with
      | none => trivial
      | some ls =>
        simp only
        split
        · exact within_getfsIndex W P i
        · exact ih (i + 1)
  exact (within_tableCount W P).bind fun workers => hloop workers.toNat 0

theorem within_workerLs (hP : ∀ w, P (lsRequest tokens w)) (freshBlock : List UInt8) :
    (workerLs tokens freshBlock).Within W P := by
  have hloop : ∀ n i result, (workerLsLoop tokens n i result).Within W P := by
    intro n
    induction n with
    | zero => exact fun _ _ => trivial
    | succ n ih =>
      intro i result
      refine (within_workerLsIndex tokens hP i).bind fun ls => ?_
      cases ls <;> exact ih (i + 1) _
  exact (within_tableCount W P).bind fun workers => hloop workers.toNat 0 _

theorem within_workerWrite {file data : CString}
    (hP : ∀ w, P (writeRequest tokens file data w)) :
    (workerWrite tokens file data).Within W P := by
  refine within_leastLoad.bind fun fs => ?_
  cases fs with
  | none => trivial
  | some i => exact (within_derefServer W P (some i)).bind fun w => ⟨hP w, fun _ => trivial⟩

theorem within_workerDelete {file : CString} (hls : ∀ w, P (lsRequest tokens w))
    (hdelete : ∀ w, P (deleteRequest tokens file w)) :
    (workerDelete tokens file).Within W P := by
  refine (within_findByFile tokens hls file).bind fun worker => ?_
  cases worker with
  | none => trivial
  | some i => exact (within_derefServer W P (some i)).bind fun w => ⟨hdelete w, fun _ => trivial⟩

end Within

/-! ### The functions run alone -/

/-- A listing is appended to the result; a missing one is left out. -/
def appendAnswer (result : CString) : Option CString → CString
  | none => result
  | some ls => (result.append (lit "\n")).append ls

/-- The result of `worker_ls`, from what has been collected. -/
def joinLs (result : CString) (answers : List (Option CString)) : CString :=
  answers.foldl appendAnswer result

section Eval

variable (tokens : Tokens) (env : List Request → Request → Reply) (h : List Request)
  {t : ServerTable}

theorem eval_workerLsIndex {i : ℕ} {w : FileServer} (hi : t.serverTable[i]? = some w) :
    (workerLsIndex tokens i).eval env h t =
      (h ++ [lsRequest tokens w], some (lsAnswer (env h (lsRequest tokens w)), t)) := by
  have hlt : i < t.serverTable.length := (List.getElem?_eq_some_iff.mp hi).1
  rw [workerLsIndex, Prog.eval_bind_of_eq (eval_getfsIndex env h t hlt),
    Prog.eval_bind_of_eq (eval_derefServer env h t hi)]
  rfl

/-- The answers to the LS requests to some servers, one after the other. -/
def lsAnswers (h : List Request) : List FileServer → List (Option CString)
  | [] => []
  | w :: ws => lsAnswer (env h (lsRequest tokens w)) :: lsAnswers (h ++ [lsRequest tokens w]) ws

/-- From index `i` on, the loop appends the answers of the workers from there on. -/
theorem eval_workerLsLoop (n i : ℕ) (result : CString)
    (hn : i + n = t.serverTable.length) :
    (workerLsLoop tokens n i result).eval env h t =
      (h ++ (t.serverTable.drop i).map (lsRequest tokens),
        some (joinLs result (lsAnswers tokens env h (t.serverTable.drop i)), t)) := by
  induction n generalizing h i result with
  | zero =>
    rw [List.drop_eq_nil_of_le (by omega), List.map_nil, List.append_nil]
    rfl
  | succ n ih =>
    have hi : i < t.serverTable.length := by omega
    have heval := eval_workerLsIndex tokens env h (List.getElem?_eq_getElem hi)
    rw [workerLsLoop, Prog.eval_bind_of_eq heval, List.drop_eq_getElem_cons hi, List.map_cons,
      List.append_cons h _ ((t.serverTable.drop (i + 1)).map (lsRequest tokens)), lsAnswers, joinLs,
      List.foldl_cons]
    cases lsAnswer (env h (lsRequest tokens t.serverTable[i])) with
    | none => exact ih _ (i + 1) result (by omega)
    | some ls => exact ih _ (i + 1) _ (by omega)

/-- **`worker_ls` run alone.** -/
theorem eval_workerLs (freshBlock : List UInt8) :
    (workerLs tokens freshBlock).eval env h t =
      (h ++ t.serverTable.map (lsRequest tokens),
        some (joinLs (CString.ofMemory freshBlock) (lsAnswers tokens env h t.serverTable), t)) := by
  have hloop := eval_workerLsLoop tokens env h t.serverTable.length 0
    (CString.ofMemory freshBlock) (Nat.zero_add _)
  rw [List.drop_zero] at hloop
  rw [workerLs, Prog.eval_bind_of_eq (eval_tableCount env h t), ← t.count_eq, hloop]

theorem exists_eval_workerLs (freshBlock : List UInt8) :
    ∃ h' s, (workerLs tokens freshBlock).eval env h t = (h', some (s, t)) :=
  ⟨_, _, eval_workerLs tokens env h freshBlock⟩

theorem eval_leastLoad (hne : t.serverTable ≠ []) :
    leastLoad.eval env h t = (h, some (some 0, t)) := by
  have hcount : t.serverCount ≠ 0 := mt ServerTable.serverCount_eq_zero_iff.mp hne
  rw [leastLoad, Prog.eval_bind_of_eq (eval_tableCount env h t), if_neg hcount]
  exact eval_getfsIndex env h t (List.length_pos_iff.mpr hne)

theorem eval_leastLoad_of_nil (hnil : t.serverTable = []) :
    leastLoad.eval env h t = (h, some (none, t)) := by
  have hcount : t.serverCount = 0 := ServerTable.serverCount_eq_zero_iff.mpr hnil
  rw [leastLoad, Prog.eval_bind_of_eq (eval_tableCount env h t), if_pos hcount]
  rfl

/-- `worker_write` sends the file to the first worker. -/
theorem eval_workerWrite (file data : CString) {w : FileServer} (hw : t.serverTable[0]? = some w) :
    (workerWrite tokens file data).eval env h t =
      (h ++ [writeRequest tokens file data w],
        some (writtenBytes (env h (writeRequest tokens file data w)), t)) := by
  have hne : t.serverTable ≠ [] := fun hnil => by simp [hnil] at hw
  rw [workerWrite, Prog.eval_bind_of_eq (eval_leastLoad env h hne)]
  simp only
  rw [Prog.eval_bind_of_eq (eval_derefServer env h t hw)]
  rfl

theorem eval_workerWrite_of_nil (file data : CString) (hnil : t.serverTable = []) :
    (workerWrite tokens file data).eval env h t = (h, some (-1, t)) := by
  rw [workerWrite, Prog.eval_bind_of_eq (eval_leastLoad_of_nil env h hnil)]
  rfl

/-- With a registered worker, `worker_write` returns whatever the worker answers. -/
theorem exists_eval_workerWrite (file data : CString) (hne : t.serverTable ≠ []) :
    ∃ h' v, (workerWrite tokens file data).eval env h t = (h', some (v, t)) :=
  ⟨_, _, eval_workerWrite tokens env h file data
    (List.getElem?_eq_getElem (List.length_pos_iff.mpr hne))⟩

end Eval

/-! ### The search for a file -/

/-- A listing at which the search stops: it is `NULL`, or has the name as a substring. -/
def stopsSearch (file : CString) : Option CString → Bool
  | none => true
  | some ls => strstr ls file

section Search

variable (tokens : Tokens) (env : List Request → Request → Reply) (h : List Request)
  (t : ServerTable) (file : CString)

/-- The exchanges made before a search that started with the exchanges `h` comes to index `i`. -/
def searchHistory (i : ℕ) : List Request := h ++ (t.serverTable.take i).map (lsRequest tokens)

/-- What `worker_ls_index` gives the search at index `i`. -/
def listing (i : ℕ) : Option CString :=
  match t.serverTable[i]? with
  | none => none
  | some w => lsAnswer (env (searchHistory tokens h t i) (lsRequest tokens w))

/-- Every `NULL` listing from index `i` on lies behind a listing that holds the file name. -/
def Searchable (i : ℕ) : Prop :=
  ∀ k, i ≤ k → k < t.serverTable.length → listing tokens env h t k = none →
    ∃ j, i ≤ j ∧ j < k ∧ ∃ ls, listing tokens env h t j = some ls ∧ strstr ls file = true

/-- Where the search stops. -/
def searchStop : Option ℕ :=
  (List.range t.serverTable.length).find? fun i => stopsSearch file (listing tokens env h t i)

variable {t} {i : ℕ}

/-- One listing of a search. -/
theorem eval_workerLsIndex_search (hi : i < t.serverTable.length) :
    (workerLsIndex tokens i).eval env (searchHistory tokens h t i) t =
      (searchHistory tokens h t (i + 1), some (listing tokens env h t i, t)) := by
  have hget := List.getElem?_eq_getElem hi
  have hnext : searchHistory tokens h t (i + 1) =
      searchHistory tokens h t i ++ [lsRequest tokens t.serverTable[i]] := by
    rw [searchHistory, List.take_add_one, hget, List.map_append, ← List.append_assoc]
    rfl
  rw [eval_workerLsIndex tokens env _ hget, hnext, listing, hget]

/-- The loop stops at the first index from `i` on at which it can. -/
theorem eval_findByFileLoop {n i : ℕ} (hn : i + n = t.serverTable.length) :
    (findByFileLoop tokens file n i).eval env (searchHistory tokens h t i) t =
      match (List.range' i n).find? fun j => stopsSearch file (listing tokens env h t j) with
      | none => (searchHistory tokens h t (i + n), some (none, t))
      | some j => (searchHistory tokens h t (j + 1),
          (listing tokens env h t j).map fun _ => (some j, t)) := by
  induction n generalizing i with
  | zero => rfl
  | succ n ih =>
    have hi : i < t.serverTable.length := by omega
    rw [findByFileLoop, Prog.eval_bind_of_eq (eval_workerLsIndex_search tokens env h hi),
      List.range'_succ, List.find?_cons]
    cases hls : listing tokens env h t i with
    | none =>
      simp only [stopsSearch, hls, Option.map_none]
      rfl
    | some ls =>
      cases hfile : strstr ls file with
      | true =>
        simp only [stopsSearch, hfile, if_true, hls, Option.map_some]
        exact eval_getfsIndex env _ t hi
      | false =>
        have htail := ih (i := i + 1) (by omega)
        rw [Nat.add_right_comm i 1 n] at htail
        simp only [show stopsSearch file (some ls) = false from hfile]
        rw [if_neg (by simp [hfile])]
        exact htail

/-- **The search.** -/
theorem eval_findByFile : (findByFile tokens file).eval env h t =
    match searchStop tokens env h t file with
    | none => (searchHistory tokens h t t.serverTable.length, some (none, t))
    | some i => (searchHistory tokens h t (i + 1),
        (listing tokens env h t i).map fun _ => (some i, t)) := by
  have hloop := eval_findByFileLoop tokens env h file (Nat.zero_add t.serverTable.length)
  rw [searchHistory, List.take_zero, List.map_nil, List.append_nil, Nat.zero_add] at hloop
  rw [findByFile, Prog.eval_bind_of_eq (eval_tableCount env h t), ← t.count_eq, hloop,
    searchStop, List.range_eq_range']

variable {tokens env h file}

theorem lt_of_searchStop (hi : searchStop tokens env h t file = some i) :
    i < t.serverTable.length :=
  List.mem_range.mp (List.mem_of_find?_eq_some hi)

/-- A search meets no `NULL` listing when it does not stop at one. -/
theorem searchable_iff : Searchable tokens env h t file 0 ↔
    ∀ i ∈ searchStop tokens env h t file, (listing tokens env h t i).isSome := by
  constructor
  · intro hs i hi
    obtain ⟨-, hmem, hfirst⟩ := List.find?_range_eq_some.mp hi
    rw [Option.isSome_iff_ne_none]
    intro hnone
    obtain ⟨j, -, hji, ls, hls, hfile⟩ := hs i (Nat.zero_le i) (List.mem_range.mp hmem) hnone
    have hstops : stopsSearch file (listing tokens env h t j) = true := hls ▸ hfile
    simpa [hstops] using hfirst j hji
  · intro hstop k _ hk hnone
    have hstops : stopsSearch file (listing tokens env h t k) = true := hnone ▸ rfl
    cases hfind : searchStop tokens env h t file with
    | none => exact absurd hstops (List.find?_eq_none.mp hfind k (List.mem_range.mpr hk))
    | some i =>
      obtain ⟨hi, -, hfirst⟩ := List.find?_range_eq_some.mp hfind
      obtain ⟨ls, hls⟩ := Option.isSome_iff_exists.mp (hstop i hfind)
      rw [hls] at hi
      -- the search stops in front of the missing listing
      have hik : i < k := by
        by_contra hle
        rcases Nat.eq_or_lt_of_le (not_lt.mp hle) with rfl | hlt
        · exact absurd (hls.symm.trans hnone) (by simp)
        · simpa [hstops] using hfirst k hlt
      exact ⟨i, Nat.zero_le i, hik, ls, hls, hi⟩

variable (tokens env h t file) in
/-- **The search of DELETE.** `worker_delete` asks the workers up to the one at which the search
stops, and sends the DELETE to this one, unless its listing is missing. -/
theorem eval_workerDelete : (workerDelete tokens file).eval env h t =
    match searchStop tokens env h t file with
    | none => (searchHistory tokens h t t.serverTable.length, some ((), t))
    | some i => (searchHistory tokens h t (i + 1) ++
        match listing tokens env h t i with
        | none => []
        | some _ => (t.serverTable[i]?.map (deleteRequest tokens file)).toList,
        (listing tokens env h t i).map fun _ => ((), t)) := by
  rw [workerDelete, Prog.eval_bind, eval_findByFile]
  cases hstop : searchStop tokens env h t file with
  | none => rfl
  | some i =>
    have hi := List.getElem?_eq_getElem (lt_of_searchStop hstop)
    cases hls : listing tokens env h t i with
    | none => simp [hls]
    | some ls =>
      simp only [hls, Option.map_some]
      rw [Prog.eval_bind_of_eq (eval_derefServer env _ t hi), hi]
      rfl

/-- `worker_delete` returns, with the table as it was, when the search for the file is searchable
from the start, and faults otherwise. -/
theorem exists_eval_workerDelete (hs : Searchable tokens env h t file 0) :
    ∃ h', (workerDelete tokens file).eval env h t = (h', some ((), t)) := by
  rw [searchable_iff] at hs
  rw [eval_workerDelete]
  cases hstop : searchStop tokens env h t file with
  | none => exact ⟨_, rfl⟩
  | some i =>
    obtain ⟨ls, hls⟩ := Option.isSome_iff_exists.mp (hs i hstop)
    simp only [hls]
    exact ⟨_, rfl⟩

theorem exists_eval_workerDelete_fault (hs : ¬ Searchable tokens env h t file 0) :
    ∃ h', (workerDelete tokens file).eval env h t = (h', none) := by
  rw [searchable_iff] at hs
  push Not at hs
  obtain ⟨i, hstop, hnone⟩ := hs
  rw [Option.mem_def] at hstop
  rw [eval_workerDelete, hstop]
  simp only [Option.not_isSome_iff_eq_none.mp hnone]
  exact ⟨_, rfl⟩

end Search

end PekarDrive
