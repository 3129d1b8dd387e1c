import PekarDrive.Master.Client

/-!
# The operation that the master starts for a request

`handle_request` either calls one of the five functions of `src/worker_admin.c` that serve
requests, or answers without a call. The call and the strings that it is given
(`PekarDrive.adminCall`) depend on the type and the argument only, so "the request is refused" and
"the operation is executed on this argument" are statements about a value.

## Main definitions

* `PekarDrive.AdminCall`, with `perform`.
* `PekarDrive.adminCall`, `PekarDrive.masterCall`: the call that a request leads to.

## Main results

* `PekarDrive.eval_handleClient_of_some`, `PekarDrive.eval_handleClient_of_none`: `handle_client`
  performs the call, or makes no exchange with a worker.
* `PekarDrive.exists_masterCall`: a request whose argument holds a separator is not refused.
-/

namespace PekarDrive

open CMemory CText LockedThreads

/-- A call of a function of `src/worker_admin.c`. -/
inductive AdminCall
  /-- `worker_ls`. -/
  | ls
  /-- `worker_read`. -/
  | read (file : CString)
  /-- `worker_write`. -/
  | write (file data : CString)
  /-- `worker_append`. -/
  | append (file data : CString)
  /-- `worker_delete`. -/
  | delete (file : CString)
  deriving DecidableEq

/-- The call, and the string that `handle_request` makes of its result. -/
def AdminCall.perform (tokens : Tokens) (heap : Heap) :
    AdminCall → TableProg Request Reply (Option CString)
  | ls => do
    let result ← workerLs tokens heap.lsBlock
    return some result
  | read file => workerRead file
  | write file data => do
    let val ← workerWrite tokens file data
    return some (long2str val)
  | append file data => do
    let val ← workerAppend file data
    return some (long2str val)
  | delete file => do
    workerDelete tokens file
    return some (lit "1")

/-- The two strings that `exec_long` makes of the argument, if it gets as far. -/
def longParts (heap : Heap) (arg : List UInt8) : Option (CString × CString) :=
  match charAt arg semicolon with
  | none => none
  | some separator =>
    if separator < 0 then none
    else if ((CString.ofMemory arg).strlen : ℤ) < separator then none
    else some (CString.ofMemory (strncpy arg separator.toNat ++ heap.behindFile),
      CString.ofMemory (arg.drop (separator.toNat + 1)))

/-- The call that a type and an argument lead to. -/
def adminCall (heap : Heap) (type : UInt32) (arg : List UInt8) : Option AdminCall :=
  match MsgType.ofCode type with
  | some .ls => some .ls
  | some .read => some (.read (CString.ofMemory arg))
  | some .write => (longParts heap arg).map fun parts => .write parts.1 parts.2
  | some .append => (longParts heap arg).map fun parts => .append parts.1 parts.2
  | some .delete => some (.delete (CString.ofMemory arg))
  | _ => none

/-- The call that a read leads to in `handle_client` of the master. -/
def masterCall (heap : Heap) (t : ServerTable) (r : ReadResult) : Option AdminCall :=
  if 0 < r.bytes ∧ (pDecode r.buffer).val.msgType ≠ MsgType.register.code ∧ t.serverCount ≠ 0 then
    adminCall heap (pDecode r.buffer).val.msgType (argMemory r heap)
  else none

/-! ### `handle_request` performs the call -/

section Perform

variable (tokens : Tokens) {heap : Heap} {type : UInt32} {arg : List UInt8}

theorem execLong_of_none (h : longParts heap arg = none) :
    execLong tokens heap type arg = .fault ∨
      execLong tokens heap type arg = .ret (some serverError) := by
  unfold longParts at h
  unfold execLong
  cases hsep : charAt arg semicolon with
  | none => exact .inl rfl
  | some separator =>
    simp only [hsep] at h ⊢
    by_cases hneg : separator < 0
    · rw [if_pos hneg]
      exact .inr rfl
    · rw [if_neg hneg] at h ⊢
      by_cases hbehind : ((CString.ofMemory arg).strlen : ℤ) < separator
      · rw [if_pos hbehind]
        exact .inl rfl
      · rw [if_neg hbehind] at h
        exact absurd h (by simp)

theorem execLong_of_some {parts : CString × CString} (h : longParts heap arg = some parts) :
    execLong tokens heap type arg = match MsgType.ofCode type with
      | some .write => (AdminCall.write parts.1 parts.2).perform tokens heap
      | some .append => (AdminCall.append parts.1 parts.2).perform tokens heap
      | _ => .ret (some serverError) := by
  unfold longParts at h
  unfold execLong
  cases hsep : charAt arg semicolon with
  | none => exact absurd h (by simp [hsep])
  | some separator =>
    simp only [hsep] at h ⊢
    by_cases hneg : separator < 0
    · rw [if_pos hneg] at h
      exact absurd h (by simp)
    · rw [if_neg hneg] at h ⊢
      by_cases hbehind : ((CString.ofMemory arg).strlen : ℤ) < separator
      · rw [if_pos hbehind] at h
        exact absurd h (by simp)
      · rw [if_neg hbehind] at h ⊢
        obtain rfl := Option.some.inj h
        rfl

/-- A request that leads to a call is served by this call. -/
theorem handleRequest_of_some {call : AdminCall} (h : adminCall heap type arg = some call) :
    handleRequest tokens heap type arg = call.perform tokens heap := by
  rw [handleRequest]
  rw [adminCall] at h
  cases htype : MsgType.ofCode type with
  | none => exact absurd h (by simp [htype])
  | some t =>
    simp only [htype] at h ⊢
    cases t with
    | ping => exact absurd h (by simp)
    | register => exact absurd h (by simp)
    | ls =>
      obtain rfl := Option.some.inj h
      simp only [execStr, htype]
      rfl
    | read =>
      obtain rfl := Option.some.inj h
      simp only [execStr, htype]
      rfl
    | write =>
      obtain ⟨parts, hparts, rfl⟩ := Option.map_eq_some_iff.mp h
      simp only [execLong_of_some tokens hparts, htype]
    | append =>
      obtain ⟨parts, hparts, rfl⟩ := Option.map_eq_some_iff.mp h
      simp only [execLong_of_some tokens hparts, htype]
    | delete =>
      obtain rfl := Option.some.inj h
      rfl

/-- A request that leads to no call is answered with an error, or stops the master. -/
theorem handleRequest_of_none (h : adminCall heap type arg = none) :
    handleRequest tokens heap type arg = .fault ∨
      handleRequest tokens heap type arg = .ret (some serverError) := by
  rw [handleRequest]
  rw [adminCall] at h
  cases htype : MsgType.ofCode type with
  | none => exact .inr rfl
  | some t =>
    simp only [htype] at h ⊢
    cases t with
    | ping => exact .inr rfl
    | register => exact .inr rfl
    | ls => exact absurd h (by simp)
    | read => exact absurd h (by simp)
    | write => exact execLong_of_none tokens (Option.map_eq_none_iff.mp h)
    | append => exact execLong_of_none tokens (Option.map_eq_none_iff.mp h)
    | delete => exact absurd h (by simp)

end Perform

section Client

variable (tokens : Tokens) {heap : Heap} (workerId : UInt32) (env : List Request → Request → Reply)
  (h : List Request) {t : ServerTable} {r : ReadResult}

/-- `handle_client` performs the call and sends the string back. -/
theorem eval_handleClient_of_some {call : AdminCall} (hcall : masterCall heap t r = some call) :
    (handleClient tokens heap workerId r).eval env h t =
      (call.perform tokens heap >>= sendBack workerId).eval env h t := by
  by_cases hcond : 0 < r.bytes ∧ (pDecode r.buffer).val.msgType ≠ MsgType.register.code ∧
      t.serverCount ≠ 0
  · rw [masterCall, if_pos hcond] at hcall
    obtain ⟨hr, htype, hcount⟩ := hcond
    rw [eval_handleClient_of_request tokens heap workerId env h hr hcount htype,
      handleRequest_of_some tokens hcall]
  · rw [masterCall, if_neg hcond] at hcall
    exact absurd hcall (by simp)

/-- Without a call, a packet that is no REGISTER is served without an exchange with a worker. -/
theorem eval_handleClient_of_none (hcall : masterCall heap t r = none)
    (htype : (pDecode r.buffer).val.msgType ≠ MsgType.register.code) :
    ((handleClient tokens heap workerId r).eval env h t).1 = h := by
  by_cases hr : 0 < r.bytes
  · by_cases hcount : t.serverCount = 0
    · rw [eval_handleClient_of_unavailable tokens heap workerId env h hr hcount htype]
    · rw [masterCall, if_pos ⟨hr, htype, hcount⟩] at hcall
      rw [eval_handleClient_of_request tokens heap workerId env h hr hcount htype]
      rcases handleRequest_of_none tokens hcall with heq | heq
      · rw [heq]
        rfl
      · rw [heq]
        rfl
  · rw [handleClient_of_not_pos tokens heap workerId hr]
    rfl

end Client

/-! ### Requests that are not refused -/

/-- Bytes without a zero, with a separator behind them, are cut into two parts. -/
theorem exists_longParts (heap : Heap) {xs : List UInt8} (h0 : 0 ∉ xs) (hlen : xs.length < 2 ^ 32) :
    ∃ parts, longParts heap (xs ++ [semicolon]) = some parts := by
  obtain ⟨pre, rest, hsplit, hpre⟩ :=
    List.eq_append_cons_of_mem (show semicolon ∈ xs ++ [semicolon] by simp)
  have hzero : 0 ∉ xs ++ [semicolon] := by
    simp only [List.mem_append, List.mem_singleton, not_or]
    exact ⟨h0, by decide⟩
  have hstrlen : (CString.ofMemory (xs ++ [semicolon])).strlen = xs.length + 1 := by
    have hbytes := CString.bytes_ofMemory_append hzero []
    rw [List.append_nil] at hbytes
    rw [CString.strlen, hbytes]
    simp
  have htotal : pre.length + (rest.length + 1) = xs.length + 1 := by
    simpa using (congrArg List.length hsplit).symm
  have hrest : (CString.ofMemory rest).strlen ≤ rest.length := (List.takeWhile_sublist _).length_le
  have hsep : charAt (xs ++ [semicolon]) semicolon = some (pre.length : ℤ) := by
    rw [hsplit]
    refine charAt_append hpre (fun h => hzero ?_) (by decide) (by omega)
    rw [hsplit]
    exact List.mem_append_left _ h
  rw [longParts, hsep]
  simp only
  rw [if_neg (by omega), if_neg (by omega)]
  exact ⟨_, rfl⟩

/-- The types of the requests that a client sends. -/
def MsgType.IsRequest (t : MsgType) : Prop := t ≠ .ping ∧ t ≠ .register

/-- A request is not refused when its argument is without a zero byte and a separator follows
it. -/
theorem exists_masterCall {heap : Heap} {t : ServerTable} {r : ReadResult} {type : MsgType}
    (hr : 0 < r.bytes) (hcount : t.serverCount ≠ 0)
    (htype : (pDecode r.buffer).val.msgType = type.code) (hreq : type.IsRequest)
    (h0 : 0 ∉ (pDecode r.buffer).val.arg) (hheap : heap.behindArg = [semicolon]) :
    ∃ call, masterCall heap t r = some call := by
  have hreg : type.code ≠ MsgType.register.code := by
    obtain ⟨-, hreg⟩ := hreq
    cases type <;> first | decide | exact absurd rfl hreg
  have hlen : (pDecode r.buffer).val.arg.length < 2 ^ 32 := by
    rw [length_arg_pDecode]
    exact (pDecode r.buffer).val.msgLen.toNat_lt
  obtain ⟨parts, hparts⟩ := exists_longParts heap h0 hlen
  rw [masterCall, htype, if_pos ⟨hr, hreg, hcount⟩, adminCall, MsgType.ofCode_code, argMemory,
    hheap]
  cases type with
  | ping => exact absurd rfl hreq.1
  | register => exact absurd rfl hreq.2
  | ls => exact ⟨_, rfl⟩
  | read => exact ⟨_, rfl⟩
  | write => exact ⟨_, by simp only [hparts, Option.map_some]; rfl⟩
  | append => exact ⟨_, by simp only [hparts, Option.map_some]; rfl⟩
  | delete => exact ⟨_, rfl⟩

end PekarDrive
