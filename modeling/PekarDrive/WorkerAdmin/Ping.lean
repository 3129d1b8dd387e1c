import PekarDrive.Packet.Receive
import PekarDrive.Table.Operations

/-!
# Requests to workers and the ping

The master reaches a worker by one exchange: it connects to the address of a table entry, sends
one packet and, for all requests but DELETE, does one read. To the functions of
`src/worker_admin.c` an exchange is a call (`PekarDrive.Request`) with an answer
(`PekarDrive.Reply`): the return values of `conn_write` and `conn_read` and the receive buffer
afterwards. A connection that could not be made goes through the same calls on descriptor zero,
so every outcome is an answer of this kind.

`ping_server` hands the outcome of the read to `handle_ping_response`, which calls
`remove_server` when the read failed, decodes the buffer in any case, and calls `remove_server`
when what it finds there is not a PING.

## Main definitions

* `PekarDrive.Request`, `PekarDrive.Reply`.
* `PekarDrive.pingRequest`, `PekarDrive.pingServer`, `PekarDrive.handlePingResponse`.
* `PekarDrive.AnswersPing`: the answers on which no entry is removed.

## Main results

* `PekarDrive.handlePingResponse_of_answersPing`, `PekarDrive.requestsLock_handlePingResponse`.
* `PekarDrive.eval_handlePingResponse`: the handler run alone.
-/

namespace PekarDrive

open CMemory CText LockedThreads

/-- One exchange of the master with a worker. -/
structure Request where
  /-- The table entry whose address is connected to. -/
  server : FileServer
  /-- The packet that is encoded and sent. -/
  packet : Packet
  /-- The length passed to `conn_write`. -/
  sendLen : ℕ
  /-- The length passed to `conn_read`. -/
  readLen : ℕ
  deriving DecidableEq

/-- The outcome of an exchange. -/
structure Reply where
  /-- The return value of `conn_write`. -/
  written : ℤ
  /-- The outcome of `conn_read`. -/
  read : ReadResult
  /-- What lies behind the block that `p_decode` allocates for the argument. -/
  behind : List UInt8

/-- The exchange of `ping_server`: a PING packet with the token of the master, and a read. -/
def pingRequest (tokens : Tokens) (server : FileServer) : Request where
  server := server
  packet := attachToken tokens.masterTkn (pInit 0 (lit "") MsgType.ping.code)
  sendLen := sizeofPacket + 10
  readLen := DecodeSite.pingResponse.bufferSize

/-- `handle_ping_response`: what it does to the table. -/
def handlePingResponse (r : ReadResult) (server : FileServer) :
    TableProg Request Reply Unit := do
  if r.bytes ≤ 0 then
    removeServer server.id
  match DecodeSite.pingResponse.decode r with
  | none => return ()
  | some p =>
    if p.val.msgType ≠ MsgType.ping.code then
      removeServer server.id

/-- `ping_server`. -/
def pingServer (tokens : Tokens) (server : FileServer) : TableProg Request Reply Unit := do
  let r ← Prog.ask (pingRequest tokens server)
  handlePingResponse r.read server

/-- The worker delivered something, and it is decoded as a PING. -/
def AnswersPing (r : Reply) : Prop :=
  0 < r.read.bytes ∧ (pDecode r.read.buffer).val.msgType = MsgType.ping.code

instance (r : Reply) : Decidable (AnswersPing r) := inferInstanceAs (Decidable (_ ∧ _))

theorem decode_pingResponse (r : ReadResult) :
    DecodeSite.pingResponse.decode r = some (pDecode r.buffer) := rfl

theorem handlePingResponse_of_answersPing {r : Reply} (server : FileServer) (h : AnswersPing r) :
    handlePingResponse r.read server = .ret () := by
  obtain ⟨hpos, htype⟩ := h
  simp only [handlePingResponse, decode_pingResponse, htype, ne_eq, not_true_eq_false, if_false,
    if_neg (not_le.mpr hpos)]
  rfl

/-- Without an answer, or with an answer of another type, the first thing the handler does is to
request the mutex. -/
theorem requestsLock_handlePingResponse {r : Reply} (server : FileServer) (h : ¬ AnswersPing r) :
    (handlePingResponse r.read server).requestsLock = true := by
  by_cases hpos : 0 < r.read.bytes
  · have htype : (pDecode r.read.buffer).val.msgType ≠ MsgType.ping.code :=
      fun heq => h ⟨hpos, heq⟩
    simp only [handlePingResponse, decode_pingResponse, if_neg (not_le.mpr hpos)]
    rw [if_pos htype]
    rfl
  · simp only [handlePingResponse, if_pos (not_lt.mp hpos)]
    rfl

/-- A ping makes its one exchange. -/
theorem within_pingServer (tokens : Tokens) {server : FileServer} {P : Request → Prop}
    (hP : P (pingRequest tokens server)) : (pingServer tokens server).Within True P := by
  have hremove : (removeServer server.id : TableProg Request Reply Unit).Within True P :=
    within_removeServer P trivial server.id
  refine ⟨hP, fun r => ?_⟩
  change (handlePingResponse r.read server).Within True P
  rw [handlePingResponse, decode_pingResponse]
  have htype : (if (pDecode r.read.buffer).val.msgType ≠ MsgType.ping.code then
      removeServer server.id else pure () : TableProg Request Reply Unit).Within True P := by
    split
    · exact hremove
    · trivial
  split
  · exact hremove.bind fun _ => htype
  · exact htype

/-- The handler removes the worker's id exactly when the worker did not answer. -/
theorem eval_handlePingResponse (env : List Request → Request → Reply) (h : List Request)
    (t : ServerTable) (r : Reply) (server : FileServer)
    (hremove : (t.remove server.id).remove server.id = t.remove server.id) :
    (handlePingResponse r.read server).eval env h t =
      (h, some ((), if AnswersPing r then t else t.remove server.id)) := by
  by_cases hans : AnswersPing r
  · rw [handlePingResponse_of_answersPing server hans, if_pos hans]
    rfl
  · rw [if_neg hans]
    by_cases hpos : 0 < r.read.bytes
    · have htype : (pDecode r.read.buffer).val.msgType ≠ MsgType.ping.code :=
        fun heq => hans ⟨hpos, heq⟩
      simp only [handlePingResponse, decode_pingResponse, if_neg (not_le.mpr hpos)]
      rw [if_pos htype]
      exact eval_removeServer env h t server.id
    · simp only [handlePingResponse, decode_pingResponse, if_pos (not_lt.mp hpos)]
      rw [Prog.eval_bind_of_eq (eval_removeServer env h t server.id)]
      split
      · rw [eval_removeServer, hremove]
      · rfl

/-! ### Small tables and answers -/

/-- A worker. -/
def exampleServer (id : UInt64) : FileServer := ⟨id, 0, ⟨lit "10.0.0.2", 55443⟩⟩

/-- A table with one worker. -/
def oneServer : ServerTable := ⟨[exampleServer 1], 1, rfl⟩

/-- The worker has closed the connection: `conn_read` returns zero. -/
def silentReply : Reply := ⟨50, .failed 0 fun _ => 0, []⟩

/-- The worker delivers an encoded PING packet. -/
def pingReply : Reply :=
  ⟨50, .delivered (pEncode (pInit 0 (lit "") MsgType.ping.code)) fun _ => 0, []⟩

/-- Tokens. -/
def exampleTokens : Tokens := ⟨2, 1⟩

end PekarDrive
