import PekarDrive.Client.Interface
import PekarDrive.Master.Response
import PekarDrive.WorkerAdmin.Deletion
import PekarDrive.WorkerAdmin.PingRound

/-!
# The reply to a DELETE

`handle_request` calls `worker_delete`, which returns nothing, and answers every DELETE with the
text `1`. The only other reply is the message that the service is unavailable, which `file_delete`
reads as zero. So with a registered worker the client prints that the file was deleted, whether or
not `find_by_file` found a worker, this worker has the file, and the packet left the master. A
listing in the search that is missing or too long leaves the client without a reply.

## Main definitions

* `PekarDrive.SentDelete`, `PekarDrive.DeletedAt`: a DELETE went out to a worker that has the file.
* `PekarDrive.RepliesTruthfully`: `file_delete` reads a number other than zero from the reply
  exactly in this case.
* `PekarDrive.FindsHolder`: the search stops at a worker that has the file and can be reached.

## Main results

* `PekarDrive.eval_handleClient_delete`, `PekarDrive.eval_handleClientConfined_delete`: what
  `handle_client` does with a DELETE.
* `PekarDrive.repliesTruthfully_iff`.
-/

namespace PekarDrive

open CMemory CText LockedThreads

/-! ### What the client reads -/

/-- The reply to a DELETE, with its terminator. -/
def deleteReply : List UInt8 := (lit "1").bytes ++ [0]

/-- The reply of `service_available`, with its terminator. -/
def unavailableReply : List UInt8 := ascii "Service unavailable." ++ [0]

/-- A reply with its terminator is read whatever lies behind it. -/
theorem deleted_append (s : CString) (behind : List UInt8) :
    Interface.deleted (s.bytes ++ [0] ++ behind) = (atoi s).bmod (2 ^ 16) := by
  rw [Interface.deleted, List.append_assoc, List.singleton_append, CString.ofMemory_append_zero]

theorem deleted_deleteReply (behind : List UInt8) :
    Interface.deleted (deleteReply ++ behind) = 1 := by
  rw [deleteReply, deleted_append]
  decide

theorem deleted_unavailableReply (behind : List UInt8) :
    Interface.deleted (unavailableReply ++ behind) = 0 := by
  have hascii : ascii "Service unavailable." = (lit "Service unavailable.").bytes := by decide
  rw [unavailableReply, hascii, deleted_append]
  decide

section DeleteReply

variable (a : Allocator) (tokens : Tokens) (heap : Heap) (workerId : UInt32)
  (env : List Request → Request → Reply) (h : List Request) (t : ServerTable)

/-! ### `handle_client` -/

variable {t} in
/-- **A DELETE.** With a registered worker, the reply is the same wherever the search stops; there
is none when it stops at a missing listing. -/
theorem eval_handleClient_delete {r : ReadResult} (hr : 0 < r.bytes) (hne : t.serverTable ≠ [])
    (htype : (pDecode r.buffer).val.msgType = MsgType.delete.code) :
    (handleClient tokens heap workerId r).eval env h t =
      match searchStop tokens env h t (CString.ofMemory (argMemory r heap)) with
      | none => (searchHistory tokens h t t.serverTable.length,
          some (⟨some deleteReply, workerId⟩, t))
      | some i => (searchHistory tokens h t (i + 1) ++
          match listing tokens env h t i with
          | none => []
          | some _ => (t.serverTable[i]?.map
              (deleteRequest tokens (CString.ofMemory (argMemory r heap)))).toList,
          (listing tokens env h t i).map fun _ => (⟨some deleteReply, workerId⟩, t)) := by
  have hcount : t.serverCount ≠ 0 := mt ServerTable.serverCount_eq_zero_iff.mp hne
  have hdelete := eval_workerDelete tokens env h t (CString.ofMemory (argMemory r heap))
  rw [eval_handleClient_of_request tokens heap workerId env h hr hcount (by rw [htype]; decide),
    htype]
  simp only [handleRequest, MsgType.ofCode_code]
  cases hstop : searchStop tokens env h t (CString.ofMemory (argMemory r heap)) with
  | none =>
    simp only [hstop] at hdelete
    rw [Prog.eval_bind, Prog.eval_bind_of_eq hdelete]
    rfl
  | some i =>
    cases hls : listing tokens env h t i with
    | none =>
      simp only [hstop, hls, Option.map_none] at hdelete ⊢
      rw [Prog.eval_bind, Prog.eval_bind_of_fault hdelete]
    | some ls =>
      simp only [hstop, hls, Option.map_some] at hdelete ⊢
      rw [Prog.eval_bind, Prog.eval_bind_of_eq hdelete]
      rfl

/-- In bounded memory, an answer that is too long does what a missing one does. -/
theorem eval_handleClientConfined_delete {r : ReadResult} (hr : 0 < r.bytes)
    (hinside : DecodeSite.masterClient.Inside r)
    (htype : (pDecode r.buffer).val.msgType = MsgType.delete.code) :
    (handleClientConfined a tokens heap workerId r).eval env h t =
      (handleClient tokens heap workerId r).eval
        (replaced (Fits a) (fun _ => silentReply) env) h t := by
  have hregister : (pDecode r.buffer).val.msgType ≠ MsgType.register.code := by
    rw [htype]
    decide
  have hhalts : (handleClient tokens heap workerId r).HaltsOn (Fits a) fun _ => silentReply := by
    have hrequest : (handleRequest tokens heap (pDecode r.buffer).val.msgType
        (argMemory r heap)).HaltsOn (Fits a) fun _ => silentReply := by
      simp only [handleRequest, htype, MsgType.ofCode_code]
      exact (haltsOn_workerDelete tokens _ (fits_deleteRequest a tokens)).bind fun _ => trivial
    rw [handleClient_of_request tokens heap workerId hr hregister]
    refine (Prog.haltsOn_of_within ((within_tableCount True fun _ => False).bind
      fun _ => trivial) fun _ hq => hq.elim : serviceAvailable.HaltsOn _ _).bind fun available => ?_
    split
    · refine hrequest.bind fun retVal => ?_
      cases retVal <;> exact trivial
    · trivial
  rw [handleClientConfined_of_inside a tokens heap workerId hinside
    fun hregisters => absurd hregisters.2.1 hregister, Prog.eval_confined_of_haltsOn hhalts]

/-! ### What the reply says -/

section Truth

variable (file : CString)

/-- Among the exchanges `io` there is, behind the exchanges `h`, a DELETE of the file to a worker,
and `conn_write` wrote it. -/
def SentDelete (io : List Request) (w : FileServer) : Prop :=
  ∃ n, h.length ≤ n ∧ io[n]? = some (deleteRequest tokens file w) ∧
    0 < (env (io.take n) (deleteRequest tokens file w)).written

/-- A worker has the name as an entry in its listing, and a DELETE went out to it. -/
def DeletedAt (io : List Request) : Prop :=
  ∃ k w, t.serverTable[k]? = some w ∧ listsEntry file (listing tokens env h t k) = true ∧
    SentDelete tokens env h file io w

/-- The search stops at index `i`, at a worker that has the name as an entry in its listing, and
the DELETE can be written to this worker. -/
structure FindsHolder (i : ℕ) : Prop where
  /-- The search stops there. -/
  stops : searchStop tokens (decoded env) h t file = some i
  /-- The listing is neither missing nor too long. -/
  listed : (listing tokens (decoded env) h t i).isSome
  /-- The worker has the file. -/
  holds : ∃ k, t.serverTable[k]? = t.serverTable[i]? ∧
    listsEntry file (listing tokens env h t k) = true
  /-- The DELETE is written. -/
  reached : ∀ w ∈ t.serverTable[i]?,
    0 < (env (searchHistory tokens h t (i + 1)) (deleteRequest tokens file w)).written

/-- A search makes no DELETE. -/
theorem getElem?_searchHistory_append {m n : ℕ} {qs : List Request} {w : FileServer}
    (hn : h.length ≤ n)
    (hget : (searchHistory tokens h t m ++ qs)[n]? = some (deleteRequest tokens file w)) :
    ∃ k, n = (searchHistory tokens h t m).length + k ∧
      qs[k]? = some (deleteRequest tokens file w) := by
  by_cases hlt : n < (searchHistory tokens h t m).length
  · rw [List.getElem?_append_left hlt, searchHistory, List.getElem?_append_right hn] at hget
    obtain ⟨v, -, hv⟩ := List.mem_map.mp (List.mem_of_getElem? hget)
    have htype : MsgType.ls.code = MsgType.delete.code :=
      congrArg (fun q : Request => q.packet.msgType) hv
    exact absurd htype (by decide)
  · rw [List.getElem?_append_right (not_lt.mp hlt)] at hget
    exact ⟨n - (searchHistory tokens h t m).length, by omega, hget⟩

theorem not_sentDelete_searchHistory (m : ℕ) (w : FileServer) :
    ¬ SentDelete tokens env h file (searchHistory tokens h t m) w := by
  rintro ⟨n, hn, hget, -⟩
  rw [← List.append_nil (searchHistory tokens h t m)] at hget
  obtain ⟨k, -, hk⟩ := getElem?_searchHistory_append tokens h t file hn hget
  simp at hk

theorem length_le_searchHistory (m : ℕ) : h.length ≤ (searchHistory tokens h t m).length := by
  rw [searchHistory, List.length_append]
  exact Nat.le_add_right _ _

/-- The DELETE at the end of a search. -/
theorem sentDelete_iff (m : ℕ) (v w : FileServer) :
    SentDelete tokens env h file (searchHistory tokens h t m ++ [deleteRequest tokens file v]) w ↔
      w = v ∧ 0 < (env (searchHistory tokens h t m) (deleteRequest tokens file v)).written := by
  constructor
  · rintro ⟨n, hn, hget, hwritten⟩
    obtain ⟨k, rfl, hk⟩ := getElem?_searchHistory_append tokens h t file hn hget
    cases k with
    | zero =>
      obtain rfl : v = w := (deleteRequest_inj tokens file).mp (Option.some.inj hk)
      rw [Nat.add_zero, List.take_left] at hwritten
      exact ⟨rfl, hwritten⟩
    | succ k => simp at hk
  · rintro ⟨rfl, hwritten⟩
    refine ⟨(searchHistory tokens h t m).length, length_le_searchHistory tokens h t m, ?_, ?_⟩
    · rw [List.getElem?_append_right le_rfl, Nat.sub_self]
      rfl
    · rwa [List.take_left]

theorem not_deletedAt_searchHistory (m : ℕ) :
    ¬ DeletedAt tokens env h t file (searchHistory tokens h t m) := by
  rintro ⟨-, w, -, -, hsent⟩
  exact not_sentDelete_searchHistory tokens env h t file m w hsent

/-- A DELETE to the worker at which the search stops is one to a worker that has the file. -/
theorem deletedAt_iff {i : ℕ} {v : FileServer} {ls : CString}
    (hstop : searchStop tokens (decoded env) h t file = some i) (hv : t.serverTable[i]? = some v)
    (hls : listing tokens (decoded env) h t i = some ls) :
    DeletedAt tokens env h t file
        (searchHistory tokens h t (i + 1) ++ [deleteRequest tokens file v]) ↔
      FindsHolder tokens env h t file i := by
  constructor
  · rintro ⟨k, w, hk, hentry, hsent⟩
    obtain ⟨rfl, hwritten⟩ := (sentDelete_iff tokens env h t file (i + 1) v w).mp hsent
    exact {
      stops := hstop
      listed := by rw [hls]; rfl
      holds := ⟨k, hk.trans hv.symm, hentry⟩
      reached := fun u hu => by
        obtain rfl : w = u := Option.some.inj (hv.symm.trans hu)
        exact hwritten }
  · intro hfinds
    obtain ⟨k, hk, hentry⟩ := hfinds.holds
    exact ⟨k, v, hk.trans hv, hentry,
      (sentDelete_iff tokens env h t file (i + 1) v v).mpr ⟨rfl, hfinds.reached v hv⟩⟩

end Truth

/-- **A truthful reply.** `handle_client` replies to the packet, and the number that `file_delete`
returns for the reply, whatever lies behind it, is not zero if and only if some worker had the file
and a DELETE went out to it. -/
def RepliesTruthfully (r : ReadResult) : Prop :=
  ∃ io reply, (handleClientConfined a tokens heap workerId r).eval env h t =
      (io, some (⟨some reply, workerId⟩, t)) ∧
    ∀ behind, Interface.deleted (reply ++ behind) ≠ 0 ↔
      DeletedAt tokens env h t (CString.ofMemory (argMemory r heap)) io

/-- After a search, the reply is truthful when the DELETE went out to a worker that has the file. -/
theorem repliesTruthfully_of_eval {r : ReadResult} {io : List Request}
    (heval : (handleClientConfined a tokens heap workerId r).eval env h t =
      (io, some (⟨some deleteReply, workerId⟩, t))) :
    RepliesTruthfully a tokens heap workerId env h t r ↔
      DeletedAt tokens env h t (CString.ofMemory (argMemory r heap)) io := by
  have hone : ∀ behind, Interface.deleted (deleteReply ++ behind) ≠ 0 := fun behind => by
    rw [deleted_deleteReply]
    exact one_ne_zero
  constructor
  · rintro ⟨io', reply, heval', hiff⟩
    obtain ⟨rfl, rfl⟩ : io = io' ∧ deleteReply = reply := by simpa [heval] using heval'
    exact (hiff []).mp (hone [])
  · exact fun hdeleted => ⟨io, deleteReply, heval, fun behind => iff_of_true (hone behind) hdeleted⟩

/-- A process that stops does not reply. -/
theorem not_repliesTruthfully_of_eval {r : ReadResult} {io : List Request}
    (heval : (handleClientConfined a tokens heap workerId r).eval env h t = (io, none)) :
    ¬ RepliesTruthfully a tokens heap workerId env h t r := by
  rintro ⟨io', reply, heval', -⟩
  rw [heval] at heval'
  exact absurd (congrArg Prod.snd heval') (by simp)

section Main

variable {t} {r : ReadResult} (hr : 0 < r.bytes) (hinside : DecodeSite.masterClient.Inside r)
  (htype : (pDecode r.buffer).val.msgType = MsgType.delete.code)

include hr hinside htype

/-- Without a registered worker nothing is sent, and the reply is read as zero. -/
theorem repliesTruthfully_of_nil (hnil : t.serverTable = []) :
    RepliesTruthfully a tokens heap workerId env h t r := by
  have hcount : t.serverCount = 0 := ServerTable.serverCount_eq_zero_iff.mpr hnil
  have heval := (eval_handleClientConfined_delete a tokens heap workerId env h t hr hinside
    htype).trans (eval_handleClient_of_unavailable tokens heap workerId _ h hr hcount
      (by rw [htype]; decide))
  refine ⟨h, unavailableReply, heval, fun behind => ?_⟩
  rw [deleted_unavailableReply]
  refine iff_of_false (by simp) ?_
  rintro ⟨k, w, hk, -⟩
  simp [hnil] at hk

/-- With a registered worker, the reply is truthful when the search finds a worker that has the
file and the DELETE is written to it, and only then. -/
theorem repliesTruthfully_of_ne_nil (hne : t.serverTable ≠ []) :
    RepliesTruthfully a tokens heap workerId env h t r ↔
      ∃ i, FindsHolder tokens env h t (CString.ofMemory (argMemory r heap)) i := by
  have heval := (eval_handleClientConfined_delete a tokens heap workerId env h t hr hinside
    htype).trans (eval_handleClient_delete tokens heap workerId _ h hr hne htype)
  rw [searchStop_replaced_fits, listing_replaced_fits] at heval
  cases hstop : searchStop tokens (decoded env) h t (CString.ofMemory (argMemory r heap)) with
  | none =>
    simp only [hstop] at heval
    rw [repliesTruthfully_of_eval a tokens heap workerId env h t heval]
    refine iff_of_false (not_deletedAt_searchHistory tokens env h t _ _) ?_
    rintro ⟨i, hfinds⟩
    exact absurd (hstop.symm.trans hfinds.stops) (by simp)
  | some i =>
    have hi := List.getElem?_eq_getElem (lt_of_searchStop hstop)
    have hfinds : (∃ j, FindsHolder tokens env h t (CString.ofMemory (argMemory r heap)) j) ↔
        FindsHolder tokens env h t (CString.ofMemory (argMemory r heap)) i :=
      ⟨fun ⟨j, hj⟩ => Option.some.inj (hj.stops.symm.trans hstop) ▸ hj, fun hj => ⟨i, hj⟩⟩
    rw [hfinds]
    cases hls : listing tokens (decoded env) h t i with
    | none =>
      -- the process has stopped, and there is no reply
      simp only [hstop, hls, Option.map_none] at heval
      exact iff_of_false (not_repliesTruthfully_of_eval a tokens heap workerId env h t heval)
        fun hfinds => absurd hfinds.listed (by simp [hls])
    | some ls =>
      simp only [hstop, hls, Option.map_some, hi, Option.toList_some] at heval
      rw [repliesTruthfully_of_eval a tokens heap workerId env h t heval]
      exact deletedAt_iff tokens env h t _ hstop hi hls

end Main

end DeleteReply

section ExampleReplies

/-- Of two workers, the first has a file `b` and the second has a file `a`. -/
def laterListings (_ : List Request) (q : Request) : Reply :=
  if q.server.id = 1 then lsReply ".\n..\nb" else lsReply ".\n..\na"

end ExampleReplies

end PekarDrive
