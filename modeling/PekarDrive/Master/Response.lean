import PekarDrive.Master.Confined

/-!
# When the master answers

`handle_client` passes the string of `handle_request` to `strlen` and `conn_write` without
looking at it. It is `NULL` for every READ, and DELETE and the empty arguments of WRITE and APPEND
lead to string functions that get `NULL`. A packet or an answer that is too long for the receive
buffer stops the master as well. The requests that are answered are characterised by their type and
argument and the answers of the workers (`PekarDrive.Answerable`).

## Main definitions

* `PekarDrive.Answerable`.

## Main results

* `PekarDrive.responds_handleRequest_iff`: `handle_request` returns a string.
* `PekarDrive.exists_eval_handleClient_iff`: `handle_client` answers.
-/

namespace PekarDrive

open CMemory CText LockedThreads

/-- The condition under which a request is answered: a READ never is; an LS is when no worker
answers more than fits; a DELETE is when every worker without a listing that fits lies behind one
whose listing holds the file name; a WRITE or an APPEND is when its argument is not empty, or the
search for the separator comes to nothing, and the answer to what is sent on fits. -/
def Answerable (a : Allocator) (tokens : Tokens) (heap : Heap)
    (env : List Request → Request → Reply) (h : List Request) (t : ServerTable) (type : UInt32)
    (arg : List UInt8) : Prop :=
  match MsgType.ofCode type with
  | some .read => False
  | some .ls => ∀ i w, t.serverTable[i]? = some w →
      Decodes (lsRequest tokens w) (env (searchHistory tokens h t i) (lsRequest tokens w))
  | some .delete => Searchable tokens (decoded env) h t (CString.ofMemory arg) 0
  | some .write => ((CString.ofMemory arg).bytes ≠ [] ∨ charAt arg semicolon = some (-1)) ∧
      ∀ parts ∈ longParts heap arg, ∀ w ∈ t.serverTable[0]?,
        Fits a (writeRequest tokens parts.1 parts.2 w)
          (env h (writeRequest tokens parts.1 parts.2 w))
  | some .append => (CString.ofMemory arg).bytes ≠ [] ∨ charAt arg semicolon = some (-1)
  | _ => True

section Requests

variable {tokens : Tokens} {heap : Heap} {env : List Request → Request → Reply}
  {h : List Request} {t : ServerTable} {type : UInt32} {arg : List UInt8}

/-- A program returns a string and leaves the table alone. -/
def Responds (env : List Request → Request → Reply) (h : List Request) (t : ServerTable)
    (p : TableProg Request Reply (Option CString)) : Prop :=
  ∃ io s, p.eval env h t = (io, some (some s, t))

theorem responds_ret (s : CString) : Responds env h t (.ret (some s)) := ⟨h, s, rfl⟩

theorem not_responds_fault : ¬ Responds env h t .fault := fun ⟨_, _, heq⟩ =>
  absurd (congrArg Prod.snd heq) (by simp)

/-- A program that returns makes a response of its value. -/
theorem responds_bind_ret {α : Type} {p : TableProg Request Reply α}
    (hp : ∃ io a, p.eval env h t = (io, some (a, t))) (f : α → CString) :
    Responds env h t (p >>= fun a => .ret (some (f a))) := by
  obtain ⟨io, a, heval⟩ := hp
  exact ⟨io, f a, Prog.eval_bind_of_eq heval _⟩

theorem responds_execLong_of_ne_nil (hne : t.serverTable ≠ [])
    (harg : (CString.ofMemory arg).bytes ≠ []) :
    Responds env h t (execLong tokens heap type arg) := by
  obtain ⟨r, hr, hcases⟩ := exists_charAt_eq_some semicolon harg
  simp only [execLong, hr]
  rcases hcases with rfl | ⟨j, rfl, hj⟩
  · exact responds_ret serverError
  · rw [if_neg (by omega), if_neg (by omega)]
    split
    · exact responds_bind_ret (exists_eval_workerWrite tokens env h _ _ hne) long2str
    · exact responds_ret (long2str (-1))
    · exact responds_ret serverError

theorem responds_execLong_iff (hne : t.serverTable ≠ []) :
    Responds env h t (execLong tokens heap type arg) ↔
      (CString.ofMemory arg).bytes ≠ [] ∨ charAt arg semicolon = some (-1) := by
  by_cases harg : (CString.ofMemory arg).bytes = []
  · simp only [harg, ne_eq, not_true_eq_false, false_or]
    constructor
    · intro hres
      cases hr : charAt arg semicolon with
      | none =>
        simp only [execLong, hr] at hres
        exact absurd hres not_responds_fault
      | some r =>
        rcases pos_of_charAt (by decide) harg hr with rfl | hpos
        · rfl
        · have hlen : (CString.ofMemory arg).strlen = 0 := by rw [CString.strlen, harg]; rfl
          simp only [execLong, hr, hlen] at hres
          rw [if_neg (by omega), if_pos (by exact_mod_cast hpos)] at hres
          exact absurd hres not_responds_fault
    · intro hr
      simp only [execLong, hr]
      exact responds_ret serverError
  · exact iff_of_true (responds_execLong_of_ne_nil hne harg) (.inl harg)

theorem responds_execStr_ls (hcode : MsgType.ofCode type = some .ls) :
    Responds env h t (execStr tokens heap type arg) := by
  simp only [execStr, hcode]
  exact responds_bind_ret (exists_eval_workerLs tokens env h heap.lsBlock) id

theorem not_responds_execStr_read (hcode : MsgType.ofCode type = some .read) :
    ¬ Responds env h t (execStr tokens heap type arg) := by
  simp only [execStr, hcode]
  rintro ⟨io, s, heq⟩
  exact absurd (congrArg Prod.snd heq) (by simp [workerRead])

theorem responds_delete_iff :
    Responds env h t (workerDelete tokens (CString.ofMemory arg) >>= fun _ =>
      .ret (some (lit "1"))) ↔ Searchable tokens env h t (CString.ofMemory arg) 0 := by
  constructor
  · rintro ⟨io, s, heq⟩
    by_contra hs
    obtain ⟨h', hfault⟩ := exists_eval_workerDelete_fault hs
    rw [Prog.eval_bind_of_fault hfault] at heq
    exact absurd (congrArg Prod.snd heq) (by simp)
  · intro hs
    obtain ⟨h', heval⟩ := exists_eval_workerDelete hs
    exact responds_bind_ret ⟨h', (), heval⟩ fun _ => lit "1"

/-! ### Answers that fit -/

variable {a : Allocator}

/-- A confined program responds when the program does and all the answers that it meets fit. -/
theorem responds_confined_iff {p : TableProg Request Reply (Option CString)} :
    Responds env h t (p.confined fun _ => Fits a) ↔
      p.Keeps (fun _ => Fits a) env h t ∧ Responds env h t p := by
  simp only [Responds, Prog.eval_confined_eq_some_iff, exists_and_left]

/-- A request that leads to no exchange meets no answer. -/
theorem keeps_execLong_of_none (hparts : longParts heap arg = none) :
    (execLong tokens heap type arg).Keeps (fun _ => Fits a) env h t := by
  rcases execLong_of_none tokens hparts with hlong | hlong <;> rw [hlong] <;> exact trivial

theorem keeps_execLong_write_iff (hcode : MsgType.ofCode type = some .write)
    (hne : t.serverTable ≠ []) : (execLong tokens heap type arg).Keeps (fun _ => Fits a) env h t ↔
      ∀ parts ∈ longParts heap arg, ∀ w ∈ t.serverTable[0]?,
        Fits a (writeRequest tokens parts.1 parts.2 w)
          (env h (writeRequest tokens parts.1 parts.2 w)) := by
  cases hparts : longParts heap arg with
  | none =>
    exact iff_of_true (keeps_execLong_of_none hparts) fun parts hmem => absurd hmem (by simp)
  | some parts =>
    have hw := List.getElem?_eq_getElem (List.length_pos_iff.mpr hne)
    simp only [execLong_of_some tokens hparts, hcode, AdminCall.perform, Prog.keeps_bind,
      keeps_workerWrite_iff tokens parts.1 parts.2 hw, hw, Option.mem_def, Option.some.injEq,
      forall_eq']
    exact and_iff_left fun _ _ _ _ => trivial

theorem keeps_execLong_append (hcode : MsgType.ofCode type = some .append) :
    (execLong tokens heap type arg).Keeps (fun _ => Fits a) env h t := by
  cases hparts : longParts heap arg with
  | none => exact keeps_execLong_of_none hparts
  | some parts =>
    simp only [execLong_of_some tokens hparts, hcode]
    exact trivial

theorem keeps_execStr_ls_iff (hcode : MsgType.ofCode type = some .ls) :
    (execStr tokens heap type arg).Keeps (fun _ => Fits a) env h t ↔
      ∀ i w, t.serverTable[i]? = some w →
        Decodes (lsRequest tokens w) (env (searchHistory tokens h t i) (lsRequest tokens w)) := by
  simp only [execStr, hcode, Prog.keeps_bind, keeps_workerLs_iff, fits_lsRequest_iff]
  exact and_iff_left fun _ _ _ _ => trivial

/-- The search of a DELETE meets answers that fit, and finds its listings, when those that fit are
searchable. -/
theorem keeps_and_responds_delete_iff :
    ((workerDelete tokens (CString.ofMemory arg) >>= fun _ =>
        (.ret (some (lit "1")) : TableProg Request Reply (Option CString))).Keeps
          (fun _ => Fits a) env h t ∧
      Responds env h t (workerDelete tokens (CString.ofMemory arg) >>= fun _ =>
        .ret (some (lit "1")))) ↔ Searchable tokens (decoded env) h t (CString.ofMemory arg) 0 := by
  have hhalts : (workerDelete tokens (CString.ofMemory arg) >>= fun _ =>
      (.ret (some (lit "1")) : TableProg Request Reply (Option CString))).HaltsOn (Fits a)
        fun _ => silentReply :=
    (haltsOn_workerDelete tokens _ (fits_deleteRequest a tokens)).bind fun _ => trivial
  have hlisting := listing_replaced_fits a tokens env h t
  rw [← responds_confined_iff, Responds, Prog.eval_confined_of_haltsOn hhalts]
  refine responds_delete_iff.trans ?_
  rw [Searchable, Searchable, hlisting]

/-- `handle_request` returns a string, and meets answers that fit, exactly for the answerable
requests. -/
theorem responds_handleRequest_iff (hne : t.serverTable ≠ []) :
    (handleRequest tokens heap type arg).Keeps (fun _ => Fits a) env h t ∧
        Responds env h t (handleRequest tokens heap type arg) ↔
      Answerable a tokens heap env h t type arg := by
  cases hcode : MsgType.ofCode type with
  | none =>
    simp only [handleRequest, Answerable, hcode, iff_true]
    exact ⟨trivial, responds_ret serverError⟩
  | some k =>
    cases k with
    | ls =>
      simp only [handleRequest, Answerable, hcode, keeps_execStr_ls_iff hcode]
      exact and_iff_left (responds_execStr_ls hcode)
    | read =>
      simp only [handleRequest, Answerable, hcode, iff_false, not_and]
      exact fun _ => not_responds_execStr_read hcode
    | write =>
      simp only [handleRequest, Answerable, hcode, keeps_execLong_write_iff hcode hne,
        responds_execLong_iff hne]
      exact and_comm
    | append =>
      simp only [handleRequest, Answerable, hcode, responds_execLong_iff hne]
      exact and_iff_right (keeps_execLong_append hcode)
    | delete =>
      simp only [handleRequest, Answerable, hcode]
      exact keeps_and_responds_delete_iff
    | ping =>
      simp only [handleRequest, Answerable, hcode, iff_true]
      exact ⟨trivial, responds_ret serverError⟩
    | register =>
      simp only [handleRequest, Answerable, hcode, iff_true]
      exact ⟨trivial, responds_ret serverError⟩

end Requests

/-- `handle_client` sends the string that `handle_request` returns, and nothing without one. -/
theorem exists_eval_handleClient_iff_responds (tokens : Tokens) (heap : Heap) (workerId : UInt32)
    (env : List Request → Request → Reply) {t : ServerTable} {r : ReadResult}
    (hne : t.serverTable ≠ []) (hr : 0 < r.bytes)
    (htype : (pDecode r.buffer).val.msgType ≠ MsgType.register.code) :
    (∃ io response, (handleClient tokens heap workerId r).eval env [] t =
      (io, some (⟨some response, workerId⟩, t))) ↔
      Responds env [] t
        (handleRequest tokens heap (pDecode r.buffer).val.msgType (argMemory r heap)) := by
  have hcount : t.serverCount ≠ 0 := mt ServerTable.serverCount_eq_zero_iff.mp hne
  rw [eval_handleClient_of_request tokens heap workerId env [] hr hcount htype, Prog.eval_bind]
  constructor
  · rintro ⟨io, response, heq⟩
    split at heq
    · exact absurd (congrArg Prod.snd heq) (by simp)
    · rename_i h' retVal t' heval
      cases retVal with
      | none => exact absurd (congrArg Prod.snd heq) (by simp)
      | some s =>
        obtain rfl : t' = t := by
          have := congrArg Prod.snd heq
          simp only [sendBack_some, Prog.eval_ret, Option.some.injEq, Prod.mk.injEq] at this
          exact this.2
        exact ⟨h', s, heval⟩
  · rintro ⟨io, s, heval⟩
    rw [heval]
    exact ⟨io, s.bytes ++ [0], rfl⟩

section ExampleRequests

/-- A delivered packet of a client. -/
def exampleDelivery (type : MsgType) (arg : CString) : ReadResult :=
  .delivered (pEncode (pInit 0 arg type.code)) fun _ => 0

end ExampleRequests

end PekarDrive
