import PekarDrive.Packet.Receive
import PekarDrive.Worker.FileExec

/-!
# Serving a request at a worker

`handle_client` of `src/server/server.c` and what it calls. A packet without the token of the
master is dropped; PING and LS are answered at once; the other types set the operation for
`f_exec`, whose result is answered. For a type that is none of these, the default case answers
with an error and goes on to `f_exec` with the operation unset.

## Main definitions

* `PekarDrive.fileListToStr`, `PekarDrive.answerClient`.
* `PekarDrive.handleWorkerClient`: `handle_client` of a worker.

## Main results

* `PekarDrive.handleWorkerClient_of_fExec`, `PekarDrive.exists_eval_answerClient`.
-/

namespace PekarDrive

open CMemory CText LockedThreads

/-- The loop of `file_list_to_str`: the names, with a newline behind all but the last one. -/
def fileListLoop : List CString → CString → CString
  | [], files => files
  | [name], files => files.append name
  | name :: names, files => fileListLoop names ((files.append name).append (lit "\n"))

/-- `file_list_to_str`: the names are appended to what lies in a fresh block of one byte. Whether the
block, resized for each name, has room is the question of `PekarDrive.JoinFits`. -/
def fileListToStr (names : List CString) (freshBlock : List UInt8) : CString :=
  if names.length = 0 then lit "" else fileListLoop names (CString.ofMemory freshBlock)

theorem bytes_fileListLoop (names : List CString) (files : CString) :
    (fileListLoop names files).bytes =
      files.bytes ++ [10].intercalate (names.map CString.bytes) := by
  induction names, files using fileListLoop.induct with
  | case1 files => simp [fileListLoop]
  | case2 files name => simp [fileListLoop, List.intercalate_singleton]
  | case3 files name names hne ih =>
    have hnewline : (lit "\n").bytes = [10] := by decide
    obtain ⟨name', names, rfl⟩ := List.exists_cons_of_ne_nil hne
    rw [fileListLoop, ih]
    · simp [hnewline, List.intercalate_cons_cons]
    · exact hne

/-- `create_packet`. -/
def createPacket (tokens : Tokens) (seqNumber : UInt32) (type : UInt32) (arg : CString) : Packet :=
  attachToken tokens.workerTkn (pInit seqNumber arg type)

/-- The text of an error packet. -/
def errorText (type : UInt32) : CString :=
  if type = MsgType.write.code then lit "Write error"
  else if type = MsgType.read.code then lit "Read error"
  else if type = MsgType.append.code then lit "Append error"
  else lit "Error"

section Serve

variable (setup : WorkerSetup) (heap : WorkerHeap)

/-- `conn_write(client, p_encode(p), len)`. -/
def sendPacket (p : Packet) (len : ℕ) : WorkerProg Unit :=
  Prog.ask (.send (connWrite (overlay (pEncode p) heap.behindSent) len))

/-- `answer_client`. -/
def answerClient (seqNumber type : UInt32) (output : FileOutput) : WorkerProg Unit :=
  if output.error ≠ 0 then
    sendPacket heap (pError seqNumber (errorText type) type setup.tokens.workerTkn)
      (sizeofPacket + output.len.toNat + 1)
  else
    match output.out with
    | none => Prog.fault
    | some out => sendPacket heap
        (createPacket setup.tokens seqNumber type (CString.ofMemory out))
        (sizeofPacket + output.len.toNat + 1)

/-- The value that the default case passes as a type. -/
def noType : UInt32 := 0xFFFFFFFF

/-- The `switch` of `handle_client`: the operation for a type, `uninit` when it is left unset. -/
def switchOp (seqNumber type : UInt32) (uninit : UInt16) : WorkerProg UInt16 :=
  match MsgType.ofCode type with
  | some .read => return fileRead
  | some .write => return fileWrite
  | some .append => return fileAppend
  | some .delete => return fileDelete
  | _ => do
    answerClient setup heap seqNumber noType ⟨1, none, 0⟩
    return uninit

/-- `handle_client` of a worker. -/
def handleWorkerClient (uninit : Uninit) (r : ReadResult) : WorkerProg Unit := do
  match DecodeSite.workerClient.decode r with
  | none => return ()
  | some p =>
    let arg := p.val.arg ++ heap.behindArg
    if p.val.token ≠ setup.tokens.masterTkn then
      return ()
    else if p.val.msgType = MsgType.ping.code then
      sendPacket heap (pInit (p.val.seqNumber + 1) (lit "1") MsgType.ping.code) 13
    else if p.val.msgType = MsgType.ls.code then
      let names ← fileList setup setup.workerDir
      let lsOutput := fileListToStr names heap.lsBlock
      sendPacket heap (pInit (p.val.seqNumber + 1) lsOutput MsgType.ls.code)
        (lsOutput.strlen + sizeofPacket)
    else
      let op ← switchOp setup heap (p.val.seqNumber + 1) p.val.msgType uninit.op
      let output ← fExec setup heap op arg uninit.output
      answerClient setup heap (p.val.seqNumber + 1) p.val.msgType output

/-! ### By the type of the packet -/

variable {setup heap} {uninit : Uninit} {r : ReadResult}

theorem handleWorkerClient_of_ping (hr : 0 < r.bytes)
    (htoken : (pDecode r.buffer).val.token = setup.tokens.masterTkn)
    (hping : (pDecode r.buffer).val.msgType = MsgType.ping.code) :
    handleWorkerClient setup heap uninit r = sendPacket heap
      (pInit ((pDecode r.buffer).val.seqNumber + 1) (lit "1") MsgType.ping.code) 13 := by
  rw [handleWorkerClient, DecodeSite.workerClient.decode_of_pos hr]
  simp only
  rw [if_neg (not_not.mpr htoken), if_pos hping]

theorem handleWorkerClient_of_ls (hr : 0 < r.bytes)
    (htoken : (pDecode r.buffer).val.token = setup.tokens.masterTkn)
    (hls : (pDecode r.buffer).val.msgType = MsgType.ls.code) :
    handleWorkerClient setup heap uninit r =
      fileList setup setup.workerDir >>= fun names =>
      sendPacket heap (pInit ((pDecode r.buffer).val.seqNumber + 1)
        (fileListToStr names heap.lsBlock) MsgType.ls.code)
        ((fileListToStr names heap.lsBlock).strlen + sizeofPacket) := by
  rw [handleWorkerClient, DecodeSite.workerClient.decode_of_pos hr]
  simp only
  rw [if_neg (not_not.mpr htoken), if_neg (by rw [hls]; decide), if_pos hls]

/-- A packet with the token of the master that is neither a PING nor an LS is answered with the
result of `f_exec`. -/
theorem handleWorkerClient_of_fExec (hr : 0 < r.bytes)
    (htoken : (pDecode r.buffer).val.token = setup.tokens.masterTkn)
    (hping : (pDecode r.buffer).val.msgType ≠ MsgType.ping.code)
    (hls : (pDecode r.buffer).val.msgType ≠ MsgType.ls.code) :
    handleWorkerClient setup heap uninit r =
      switchOp setup heap ((pDecode r.buffer).val.seqNumber + 1) (pDecode r.buffer).val.msgType
        uninit.op >>= fun op =>
      fExec setup heap op ((pDecode r.buffer).val.arg ++ heap.behindArg) uninit.output >>=
        fun output => answerClient setup heap ((pDecode r.buffer).val.seqNumber + 1)
          (pDecode r.buffer).val.msgType output := by
  rw [handleWorkerClient, DecodeSite.workerClient.decode_of_pos hr]
  simp only
  rw [if_neg (not_not.mpr htoken), if_neg hping, if_neg hls]

variable (heap) in
theorem exists_eval_sendPacket (env : List WorkerEvent → WorkerEvent → Unit) (p : Packet)
    (len : ℕ) (h : List WorkerEvent) (fs : FileSystem) :
    ∃ bytes, (sendPacket heap p len).eval env h fs = (h ++ [.send bytes], some ((), fs)) :=
  ⟨_, rfl⟩

variable (setup heap)

/-- An output without an error is answered with one packet. -/
theorem exists_eval_answerClient {env : List WorkerEvent → WorkerEvent → Unit}
    {output : FileOutput} (hout : output.Answerable) (seqNumber type : UInt32)
    (h : List WorkerEvent) (fs : FileSystem) :
    ∃ bytes, (answerClient setup heap seqNumber type output).eval env h fs =
      (h ++ [.send bytes], some ((), fs)) := by
  obtain ⟨herr, hsome⟩ := hout
  obtain ⟨out, hout⟩ := Option.isSome_iff_exists.mp hsome
  rw [answerClient, if_neg (not_not.mpr herr), hout]
  exact ⟨_, rfl⟩

/-- A result with an error is answered with one packet. -/
theorem exists_eval_answerClient_error (env : List WorkerEvent → WorkerEvent → Unit)
    {output : FileOutput} (herr : output.error ≠ 0) (seqNumber type : UInt32)
    (h : List WorkerEvent) (fs : FileSystem) :
    ∃ bytes, (answerClient setup heap seqNumber type output).eval env h fs =
      (h ++ [.send bytes], some ((), fs)) := by
  rw [answerClient, if_pos herr]
  exact ⟨_, rfl⟩

end Serve

end PekarDrive
