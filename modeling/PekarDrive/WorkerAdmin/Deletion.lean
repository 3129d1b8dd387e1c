import PekarDrive.Foundation.Lines
import PekarDrive.WorkerAdmin.LongAnswers

/-!
# The worker that a DELETE goes to

`worker_delete` sends the DELETE to the worker that `find_by_file` returns: the first one whose
listing has the name as a substring, be it inside a longer name. A listing before that worker that
is missing, or too long for the receive buffer, ends the process.

## Main definitions

* `PekarDrive.firstHolder`: the first worker whose listing has the name as an entry.
* `PekarDrive.deletesSent`: the DELETE packets that `worker_delete` sends.

## Main results

* `PekarDrive.deletesSent_eq_firstHolder_iff`.
-/

namespace PekarDrive

open CMemory CText LockedThreads

/-- A listing that has the name as an entry, the entries being separated by newlines. -/
def listsEntry (file : CString) : Option CString → Bool
  | none => false
  | some ls => decide (file.bytes ∈ ls.bytes.splitOn 10)

section Deletion

variable (tokens : Tokens) (env : List Request → Request → Reply) (h : List Request)
  (t : ServerTable) (file : CString)

/-- The first worker whose listing has the name as an entry. -/
def firstHolder : Option ℕ :=
  (List.range t.serverTable.length).find? fun i => listsEntry file (listing tokens env h t i)

/-- The DELETE packets that a run of `worker_delete` sends. -/
def deletesSent : List Request :=
  ((((workerDelete tokens file).confined fun _ => Decodes).eval env h t).1.drop h.length).filter
    fun q => q.packet.msgType == MsgType.delete.code

/-! ### The packets sent -/

theorem filter_map_lsRequest (ws : List FileServer) :
    (ws.map (lsRequest tokens)).filter (fun q => q.packet.msgType == MsgType.delete.code) = [] := by
  rw [List.filter_eq_nil_iff]
  intro q hq
  obtain ⟨w, -, rfl⟩ := List.mem_map.mp hq
  change ¬ (MsgType.ls.code == MsgType.delete.code) = true
  decide

theorem filter_drop_searchHistory (i : ℕ) (qs : List Request) :
    ((searchHistory tokens h t i ++ qs).drop h.length).filter
      (fun q => q.packet.msgType == MsgType.delete.code) =
    qs.filter fun q => q.packet.msgType == MsgType.delete.code := by
  rw [searchHistory, List.append_assoc, List.drop_left, List.filter_append, filter_map_lsRequest,
    List.nil_append]

/-- **The packets.** -/
theorem deletesSent_eq : deletesSent tokens env h t file =
    match searchStop tokens (decoded env) h t file with
    | none => []
    | some i => match listing tokens (decoded env) h t i with
      | none => []
      | some _ => (t.serverTable[i]?.map (deleteRequest tokens file)).toList := by
  have heval := Prog.eval_confined_of_haltsOn
    (haltsOn_workerDelete tokens file (decodes_deleteRequest tokens)) env h t
  rw [deletesSent, heval]
  change (((workerDelete tokens file).eval (decoded env) h t).1.drop h.length).filter _ = _
  rw [eval_workerDelete]
  cases hstop : searchStop tokens (decoded env) h t file with
  | none =>
    have hnone := filter_drop_searchHistory tokens h t t.serverTable.length []
    rwa [List.append_nil] at hnone
  | some i =>
    have hi := List.getElem?_eq_getElem (lt_of_searchStop hstop)
    cases hls : listing tokens (decoded env) h t i with
    | none => simp only [hls, filter_drop_searchHistory, List.filter_nil]
    | some ls =>
      simp only [hls, filter_drop_searchHistory, hi]
      rfl

/-- A listing with the name as an entry has it as a substring. -/
theorem stopsSearch_of_listsEntry {ls : Option CString} (hls : listsEntry file ls = true) :
    stopsSearch file ls = true := by
  cases ls with
  | none => rfl
  | some ls => exact decide_eq_true (infix_of_mem_splitOn 10 (of_decide_eq_true hls))

theorem firstHolder_of_searchStop_eq_none
    (hstop : searchStop tokens (decoded env) h t file = none) :
    firstHolder tokens env h t file = none := by
  rw [searchStop, List.find?_eq_none] at hstop
  rw [firstHolder, List.find?_eq_none]
  intro i hi hentry
  cases hls : listing tokens (decoded env) h t i with
  | none => exact hstop i hi (hls ▸ rfl)
  | some ls =>
    rw [listing_of_replaced hls] at hentry
    exact hstop i hi (hls ▸ stopsSearch_of_listsEntry file hentry)

theorem deleteRequest_inj {v w : FileServer} :
    deleteRequest tokens file v = deleteRequest tokens file w ↔ v = w :=
  ⟨congrArg Request.server, fun h => h ▸ rfl⟩

/-- The worker at which the search stops is the first one that has the name as an entry; where it
stops at a listing that is missing or too long, no worker has. -/
def StopsAtHolder : Prop :=
  ∀ i ∈ searchStop tokens (decoded env) h t file,
    match listing tokens (decoded env) h t i with
    | none => firstHolder tokens env h t file = none
    | some _ => ∃ k ∈ firstHolder tokens env h t file, t.serverTable[k]? = t.serverTable[i]?

/-- **The worker that a DELETE goes to.** `worker_delete` sends the DELETE to the first worker whose
listing has the name as an entry, and none when there is no such worker, if and only if the search
stops at no other worker. -/
theorem deletesSent_eq_firstHolder_iff :
    deletesSent tokens env h t file =
      ((firstHolder tokens env h t file).bind fun k =>
        t.serverTable[k]?.map (deleteRequest tokens file)).toList ↔
      StopsAtHolder tokens env h t file := by
  rw [deletesSent_eq, StopsAtHolder]
  cases hstop : searchStop tokens (decoded env) h t file with
  | none =>
    rw [firstHolder_of_searchStop_eq_none tokens env h t file hstop]
    simp
  | some i =>
    have hi := List.getElem?_eq_getElem (lt_of_searchStop hstop)
    cases hholder : firstHolder tokens env h t file with
    | none => cases hls : listing tokens (decoded env) h t i <;> simp [hls, hi]
    | some k =>
      have hk := List.getElem?_eq_getElem
        (List.mem_range.mp (List.mem_of_find?_eq_some hholder))
      cases hls : listing tokens (decoded env) h t i with
      | none => simp [hls, hk]
      | some ls => simp [hls, hi, hk, deleteRequest_inj, eq_comm]

end Deletion

/-- The answer of a worker to an LS, with the names in its directory. -/
def lsReply (names : String) : Reply where
  written := sizeofPacket + 1
  read := .delivered (pEncode (pInit 1 (lit names) MsgType.ls.code)) fun _ => 0
  behind := [0]

/-- Of two workers, the first has a file `ab` and the second has a file `a`. -/
def prefixListings (_ : List Request) (q : Request) : Reply :=
  if q.server.id = 1 then lsReply ".\n..\nab" else lsReply ".\n..\na"

/-- The DELETE of `a` goes to the worker with the file `ab`. -/
theorem not_forall_deletesSent_eq_firstHolder : ¬ ∀ (tokens : Tokens)
    (env : List Request → Request → Reply) (h : List Request) (t : ServerTable) (file : CString),
    deletesSent tokens env h t file =
      ((firstHolder tokens env h t file).bind fun k =>
        t.serverTable[k]?.map (deleteRequest tokens file)).toList := by
  intro h
  have hsent := h exampleTokens prefixListings []
    ⟨[exampleServer 1, exampleServer 2], 2, rfl⟩ (lit "a")
  exact absurd hsent (by decide)

end PekarDrive
