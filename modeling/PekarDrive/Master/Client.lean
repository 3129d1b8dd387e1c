import PekarDrive.Master.Strings
import PekarDrive.WorkerAdmin.Requests

/-!
# Serving a client

`handle_client` of `src/master.c` and what it calls. It reads one packet, answers that the
service is unavailable while no worker is registered, adds an entry for a REGISTER packet with
the token of the workers, and otherwise hands the type and the argument to `handle_request` and
sends back the string it gets.

The blocks that these functions allocate carry no terminators of their own; what lies behind
them is given by `PekarDrive.Heap`.

## Main definitions

* `PekarDrive.Heap`, `PekarDrive.Served`.
* `PekarDrive.execStr`, `PekarDrive.execLong`, `PekarDrive.handleRequest`.
* `PekarDrive.handleClient`.

## Main results

* `PekarDrive.within_handleClient`, `PekarDrive.readOnly_handleClient`: only a registration changes
  the table.
* `PekarDrive.eval_handleClient_of_unavailable`, `PekarDrive.eval_handleClient_of_request`,
  `PekarDrive.handleClient_of_register`: `handle_client` by the type of the packet.
-/

namespace PekarDrive

open CMemory CText LockedThreads

/-- The memory around the blocks that `handle_client` and its callees allocate. -/
structure Heap where
  /-- Behind the argument block of `p_decode`. -/
  behindArg : List UInt8
  /-- Behind the block `file` of `exec_long`. -/
  behindFile : List UInt8
  /-- Behind the block `ip` of `parse_ip`. -/
  behindIp : List UInt8
  /-- From the fresh block of `worker_ls` on. -/
  lsBlock : List UInt8

/-- A heap in which every block is followed by a terminator. -/
def zeroHeap : Heap := ⟨[0], [0], [0], [0]⟩

/-- What `handle_client` leaves behind: the bytes it sends to the client, if any, and the static
variable `worker_id`. -/
structure Served where
  /-- The bytes passed to `conn_write`. -/
  response : Option (List UInt8)
  /-- The next worker id. -/
  workerId : UInt32
  deriving DecidableEq

/-- The answer to requests that are not understood. -/
def serverError : CString := lit "Server error."

/-- `service_available`, apart from the message it sends. -/
def serviceAvailable : TableProg Request Reply Bool := do
  let count ← tableCount
  return count ≠ 0

/-- `exec_str`. -/
def execStr (tokens : Tokens) (heap : Heap) (type : UInt32) (arg : List UInt8) :
    TableProg Request Reply (Option CString) := do
  match MsgType.ofCode type with
  | some .ls =>
    let result ← workerLs tokens heap.lsBlock
    return some result
  | some .read => workerRead (CString.ofMemory arg)
  | _ => return some serverError

/-- `exec_long`. When the separator lies behind the terminator, the length computed for `data` is
negative, `malloc` returns `NULL` and `strcpy` gets it. -/
def execLong (tokens : Tokens) (heap : Heap) (type : UInt32) (arg : List UInt8) :
    TableProg Request Reply (Option CString) := do
  match charAt arg semicolon with
  | none => Prog.fault
  | some separator =>
    if separator < 0 then
      return some serverError
    else if ((CString.ofMemory arg).strlen : ℤ) < separator then
      Prog.fault
    else
      let file := CString.ofMemory (strncpy arg separator.toNat ++ heap.behindFile)
      let data := CString.ofMemory (arg.drop (separator.toNat + 1))
      match MsgType.ofCode type with
      | some .write =>
        let val ← workerWrite tokens file data
        return some (long2str val)
      | some .append =>
        let val ← workerAppend file data
        return some (long2str val)
      | _ => return some serverError

/-- `handle_request`. -/
def handleRequest (tokens : Tokens) (heap : Heap) (type : UInt32) (arg : List UInt8) :
    TableProg Request Reply (Option CString) := do
  match MsgType.ofCode type with
  | some .ls => execStr tokens heap type arg
  | some .read => execStr tokens heap type arg
  | some .write => execLong tokens heap type arg
  | some .append => execLong tokens heap type arg
  | some .delete =>
    workerDelete tokens (CString.ofMemory arg)
    return some (lit "1")
  | _ => return some serverError

/-- `handle_client`. -/
def handleClient (tokens : Tokens) (heap : Heap) (workerId : UInt32) (r : ReadResult) :
    TableProg Request Reply Served := do
  match DecodeSite.masterClient.decode r with
  | none => return ⟨none, workerId⟩
  | some p =>
    let arg := p.val.arg ++ heap.behindArg
    if p.val.msgType ≠ MsgType.register.code then
      let available ← serviceAvailable
      if available then
        let retVal ← handleRequest tokens heap p.val.msgType arg
        match retVal with
        | none => Prog.fault
        | some s => return ⟨some (s.bytes ++ [0]), workerId⟩
      else
        return ⟨some (ascii "Service unavailable." ++ [0]), workerId⟩
    else if p.val.token ≠ tokens.workerTkn then
      return ⟨none, workerId⟩
    else
      match parsePort arg, parseIp arg with
      | some port, some ip =>
        addServer {
          id := workerId.toUInt64
          size := 0
          location := ⟨CString.ofMemory (ip ++ heap.behindIp), port⟩ }
        return ⟨none, workerId + 1⟩
      | _, _ => Prog.fault

/-! ### What the functions may do -/

section Within

variable (tokens : Tokens) (heap : Heap) (type : UInt32) (arg : List UInt8)

/-- The exchanges that serve the requests of clients. -/
inductive ServesRequest : Request → Prop
  /-- The exchange of `worker_ls_index`. -/
  | ls (w : FileServer) : ServesRequest (lsRequest tokens w)
  /-- The exchange of `worker_write`. -/
  | write (file data : CString) (w : FileServer) : ServesRequest (writeRequest tokens file data w)
  /-- The exchange of `worker_delete`. -/
  | delete (file : CString) (w : FileServer) : ServesRequest (deleteRequest tokens file w)

variable {tokens} {W : Prop} {P : Request → Prop} (hP : ∀ q, ServesRequest tokens q → P q)

include hP

theorem within_execStr : (execStr tokens heap type arg).Within W P := by
  unfold execStr
  split
  · exact (within_workerLs tokens (fun w => hP _ (.ls w)) heap.lsBlock).bind fun _ => trivial
  · trivial
  · trivial

theorem within_execLong : (execLong tokens heap type arg).Within W P := by
  unfold execLong
  split
  · trivial
  · split_ifs
    · trivial
    · trivial
    · split
      · exact (within_workerWrite tokens fun w => hP _ (.write _ _ w)).bind fun _ => trivial
      · trivial
      · trivial

theorem within_handleRequest : (handleRequest tokens heap type arg).Within W P := by
  unfold handleRequest
  split
  · exact within_execStr heap type arg hP
  · exact within_execStr heap type arg hP
  · exact within_execLong heap type arg hP
  · exact within_execLong heap type arg hP
  · exact (within_workerDelete tokens (fun w => hP _ (.ls w)) fun w =>
      hP _ (.delete _ w)).bind fun _ => trivial
  · trivial

/-- Only a REGISTER packet with the token of the workers lets `handle_client` write the table. -/
theorem within_handleClient (workerId : UInt32) (r : ReadResult)
    (hW : (pDecode r.buffer).val.msgType = MsgType.register.code →
      (pDecode r.buffer).val.token = tokens.workerTkn → W) :
    (handleClient tokens heap workerId r).Within W P := by
  unfold handleClient
  split
  · trivial
  · rename_i p hp
    have hdecode : pDecode r.buffer = p := by
      rw [DecodeSite.decode] at hp
      split at hp
      · exact absurd hp (by simp)
      · exact Option.some.inj hp
    rw [hdecode] at hW
    have havail : serviceAvailable.Within W P := (within_tableCount W P).bind fun _ => trivial
    simp only
    split_ifs with htype htoken
    · refine havail.bind fun available => ?_
      cases available with
      | false => exact trivial
      | true =>
        refine (within_handleRequest heap _ _ hP).bind fun retVal => ?_
        cases retVal <;> exact trivial
    · exact trivial
    · split
      · exact (within_addServer P (hW (not_not.mp htype) (not_not.mp htoken)) _).bind
          fun _ => trivial
      · exact trivial

end Within

/-- Any other packet leaves the table as it is. -/
theorem readOnly_handleClient (tokens : Tokens) (heap : Heap) (workerId : UInt32) {r : ReadResult}
    (h : ¬ ((pDecode r.buffer).val.msgType = MsgType.register.code ∧
      (pDecode r.buffer).val.token = tokens.workerTkn)) :
    (handleClient tokens heap workerId r).ReadOnly :=
  Prog.readOnly_of_within <| within_handleClient heap (fun _ _ => trivial) workerId r
    fun htype htoken => h ⟨htype, htoken⟩

/-! ### By the type of the packet -/

section Cases

variable (tokens : Tokens) (heap : Heap) (workerId : UInt32) {r : ReadResult}
  (env : List Request → Request → Reply) (h : List Request) {t : ServerTable}

/-- The argument pointer of the packet in the buffer, as the memory behind it. -/
def argMemory (r : ReadResult) (heap : Heap) : List UInt8 :=
  (pDecode r.buffer).val.arg ++ heap.behindArg

theorem eval_serviceAvailable (t : ServerTable) :
    serviceAvailable.eval env h t = (h, some (decide (t.serverCount ≠ 0), t)) := rfl

/-- A failed read is not decoded. -/
theorem handleClient_of_not_pos (hr : ¬ 0 < r.bytes) :
    handleClient tokens heap workerId r = Prog.ret ⟨none, workerId⟩ := by
  have hrefuse : DecodeSite.masterClient.decode r = none :=
    if_pos (decide_eq_true (not_lt.mp hr))
  rw [handleClient, hrefuse]
  rfl

/-- Without a registered worker, a packet that is no REGISTER is answered by `service_available`. -/
theorem eval_handleClient_of_unavailable (hr : 0 < r.bytes) (hcount : t.serverCount = 0)
    (htype : (pDecode r.buffer).val.msgType ≠ MsgType.register.code) :
    (handleClient tokens heap workerId r).eval env h t =
      (h, some (⟨some (ascii "Service unavailable." ++ [0]), workerId⟩, t)) := by
  rw [handleClient, DecodeSite.masterClient.decode_of_pos hr]
  simp only
  rw [if_pos htype, Prog.eval_bind_of_eq (eval_serviceAvailable env h t),
    if_neg (by simpa using hcount)]
  rfl

/-- What `handle_client` does with the string of `handle_request`. -/
def sendBack (workerId : UInt32) : Option CString → TableProg Request Reply Served
  | none => Prog.fault
  | some s => Prog.ret ⟨some (s.bytes ++ [0]), workerId⟩

@[simp] theorem sendBack_none : sendBack workerId none = Prog.fault := rfl

@[simp] theorem sendBack_some (s : CString) :
    sendBack workerId (some s) = Prog.ret ⟨some (s.bytes ++ [0]), workerId⟩ := rfl

/-- With a registered worker, a packet that is no REGISTER is handed to `handle_request`. -/
theorem eval_handleClient_of_request (hr : 0 < r.bytes) (hcount : t.serverCount ≠ 0)
    (htype : (pDecode r.buffer).val.msgType ≠ MsgType.register.code) :
    (handleClient tokens heap workerId r).eval env h t =
      (handleRequest tokens heap (pDecode r.buffer).val.msgType (argMemory r heap) >>=
        sendBack workerId).eval env h t := by
  rw [handleClient, DecodeSite.masterClient.decode_of_pos hr]
  simp only
  rw [if_pos htype, Prog.eval_bind_of_eq (eval_serviceAvailable env h t),
    if_pos (by simpa using hcount)]
  rfl

/-- A REGISTER packet with the token of the workers adds the entry found in its argument. -/
theorem handleClient_of_register (hr : 0 < r.bytes)
    (htype : (pDecode r.buffer).val.msgType = MsgType.register.code)
    (htoken : (pDecode r.buffer).val.token = tokens.workerTkn) :
    handleClient tokens heap workerId r =
      match parsePort (argMemory r heap), parseIp (argMemory r heap) with
      | some port, some ip => do
        addServer {
          id := workerId.toUInt64
          size := 0
          location := ⟨CString.ofMemory (ip ++ heap.behindIp), port⟩ }
        return ⟨none, workerId + 1⟩
      | _, _ => Prog.fault := by
  rw [handleClient, DecodeSite.masterClient.decode_of_pos hr]
  simp only
  rw [if_neg (not_not.mpr htype), if_neg (not_not.mpr htoken)]
  rfl

end Cases

end PekarDrive
