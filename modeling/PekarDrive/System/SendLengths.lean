import PekarDrive.Client.Interface
import PekarDrive.Master.Client
import PekarDrive.Packet.RoundTrip
import PekarDrive.Worker.Answer
import PekarDrive.Worker.Boot

/-!
# The lengths of packets that are sent

A packet of `msg_len` argument bytes takes `22 + msg_len` bytes on the wire, and `p_encode` makes a
block of one byte more. Every sender passes a length of its own to `conn_write`: most add
`sizeof(struct packet)`, which is 40, to the length of the argument, two pass a number, and
`answer_client` adds 41 to the length that belongs to the output, whatever the string there is. A
length outside the two bounds cuts the packet, or sends what lies behind its block.

## Main definitions

* `PekarDrive.SendSite`: the places from which packets are sent, with `outgoing`.
* `PekarDrive.Outgoing.InBounds`: the two bounds.
* `PekarDrive.SendSite.Fits`: where the bounds are met.

## Main results

* `PekarDrive.within_handleClient_fromSite`, `PekarDrive.within_pingServer_fromSite`,
  `PekarDrive.within_handleWorkerClient`: the master and the workers send from these places only.
* `PekarDrive.SendSite.inBounds_iff`.
-/

namespace PekarDrive

open CMemory CText LockedThreads

/-! ### The places -/

/-- The places from which packets are sent. -/
inductive SendSite
  /-- `ls` of a client. -/
  | clientLs
  /-- `file_read` of a client. -/
  | clientRead (fileName : CString)
  /-- `file_write` of a client. -/
  | clientWrite (fileName buffer : CString) (append : Bool)
  /-- `file_delete` of a client. -/
  | clientDelete (fileName : CString)
  /-- `ping_server` of the master. -/
  | pingServer
  /-- `worker_ls_index` of the master. -/
  | lsIndex
  /-- `worker_write` of the master. -/
  | workerWrite (file data : CString)
  /-- `worker_delete` of the master. -/
  | workerDelete (file : CString)
  /-- `register_worker` of a worker. -/
  | registerWorker (ip : DottedQuad)
  /-- The answer of a worker to a PING. -/
  | pingReply (seqNumber : UInt32)
  /-- The answer of a worker to an LS. -/
  | lsReply (seqNumber : UInt32) (lsOutput : CString)
  /-- `answer_client` of a worker. -/
  | answerClient (seqNumber type : UInt32) (output : FileOutput)

/-- What `answer_client` sends, unless there is no output. -/
def answerOutgoing (tokens : Tokens) (seqNumber type : UInt32) (output : FileOutput) :
    Option Outgoing :=
  if output.error ≠ 0 then
    some ⟨pError seqNumber (errorText type) type tokens.workerTkn,
      sizeofPacket + output.len.toNat + 1⟩
  else
    output.out.map fun out => ⟨createPacket tokens seqNumber type (CString.ofMemory out),
      sizeofPacket + output.len.toNat + 1⟩

/-- The packet that is sent, and the length passed to `conn_write`. -/
def SendSite.outgoing (tokens : Tokens) : SendSite → Option Outgoing
  | clientLs => some Interface.ls
  | clientRead fileName => some (Interface.fileRead fileName)
  | clientWrite fileName buffer append => some (Interface.fileWrite fileName buffer append)
  | clientDelete fileName => some (Interface.fileDelete fileName)
  | pingServer => some
      ⟨attachToken tokens.masterTkn (pInit 0 (lit "") MsgType.ping.code), sizeofPacket + 10⟩
  | lsIndex => some
      ⟨attachToken tokens.masterTkn (pInit 0 (lit "") MsgType.ls.code), sizeofPacket + 1⟩
  | workerWrite file data => some
      ⟨attachToken tokens.masterTkn (pInit 0 (genWriteArg file data) MsgType.write.code),
        (genWriteArg file data).strlen + sizeofPacket + 1⟩
  | workerDelete file => some
      ⟨attachToken tokens.masterTkn (pInit 0 file MsgType.delete.code),
        sizeofPacket + file.strlen⟩
  | registerWorker ip => some ⟨registerPacket tokens ip.text, registerLen⟩
  | pingReply seqNumber => some ⟨pInit seqNumber (lit "1") MsgType.ping.code, 13⟩
  | lsReply seqNumber lsOutput => some
      ⟨pInit seqNumber lsOutput MsgType.ls.code, lsOutput.strlen + sizeofPacket⟩
  | answerClient seqNumber type output => answerOutgoing tokens seqNumber type output

/-- The length covers the encoded packet, and does not go past the block of `p_encode`. -/
def Outgoing.InBounds (o : Outgoing) : Prop :=
  headerSize + o.packet.msgLen.toNat ≤ o.len ∧ o.len ≤ pEncodeSize o.packet

instance (o : Outgoing) : Decidable o.InBounds := inferInstanceAs (Decidable (_ ∧ _))

/-- The packet sent from the place, if any, is sent with a length within the bounds. -/
def SendSite.InBounds (tokens : Tokens) (s : SendSite) : Prop :=
  ∀ o ∈ s.outgoing tokens, o.InBounds

/-! ### The master and the workers send from these places -/

section Coverage

variable (tokens : Tokens)

/-- The exchange sends a packet from one of the places. -/
def FromSite (q : Request) : Prop :=
  ∃ s : SendSite, s.outgoing tokens = some ⟨q.packet, q.sendLen⟩

/-- All exchanges of `handle_client` of the master are made from the places. -/
theorem within_handleClient_fromSite (heap : Heap) (workerId : UInt32) (r : ReadResult) :
    (handleClient tokens heap workerId r).Within True (FromSite tokens) := by
  refine within_handleClient heap (fun q hq => ?_) workerId r fun _ _ => trivial
  cases hq with
  | ls w => exact ⟨.lsIndex, rfl⟩
  | write file data w => exact ⟨.workerWrite file data, rfl⟩
  | delete file w => exact ⟨.workerDelete file, rfl⟩

/-- So is the exchange of `ping_server`. -/
theorem within_pingServer_fromSite (server : FileServer) :
    (pingServer tokens server).Within True (FromSite tokens) :=
  within_pingServer tokens ⟨.pingServer, rfl⟩

/-- What a worker sends comes from one of the places. -/
def SendsFromSite (behind : Mem) : WorkerEvent → Prop
  | .op _ => True
  | .send bytes => ∃ (s : SendSite) (o : Outgoing), s.outgoing tokens = some o ∧
      bytes = o.wire behind

end Coverage

section WorkerCoverage

variable (setup : WorkerSetup) (heap : WorkerHeap)

theorem within_answerClient (seqNumber type : UInt32) (output : FileOutput) :
    (answerClient setup heap seqNumber type output).Within True
      (SendsFromSite setup.tokens heap.behindSent) := by
  have hsite : SendSite.outgoing setup.tokens (.answerClient seqNumber type output) =
      answerOutgoing setup.tokens seqNumber type output := rfl
  unfold answerClient
  unfold answerOutgoing at hsite
  by_cases herr : output.error ≠ 0
  · rw [if_pos herr] at hsite ⊢
    exact ⟨⟨_, _, hsite, rfl⟩, fun _ => trivial⟩
  · rw [if_neg herr] at hsite ⊢
    cases hout : output.out with
    | none => exact trivial
    | some out =>
      rw [hout] at hsite
      exact ⟨⟨_, _, hsite, rfl⟩, fun _ => trivial⟩

/-- Everything that `handle_client` of a worker sends is sent from the places. -/
theorem within_handleWorkerClient (uninit : Uninit) (r : ReadResult) :
    (handleWorkerClient setup heap uninit r).Within True
      (SendsFromSite setup.tokens heap.behindSent) := by
  unfold handleWorkerClient
  split
  · exact trivial
  · rename_i p _
    simp only
    split_ifs
    · exact trivial
    · exact ⟨⟨.pingReply (p.val.seqNumber + 1), _, rfl, rfl⟩, fun _ => trivial⟩
    · refine (within_fileList setup (fun _ => trivial) setup.workerDir).bind fun names => ?_
      exact ⟨⟨.lsReply (p.val.seqNumber + 1) _, _, rfl, rfl⟩, fun _ => trivial⟩
    · refine Prog.Within.bind ?_ fun op => ?_
      · unfold switchOp
        split
        · exact trivial
        · exact trivial
        · exact trivial
        · exact trivial
        · exact (within_answerClient setup heap _ _ _).bind fun _ => trivial
      · exact (within_fExec setup heap (fun _ => trivial) op _ _).bind
          fun output => within_answerClient setup heap _ _ output

end WorkerCoverage

/-! ### Where the bounds are met -/

/-- An output without an error is answered within the bounds when the string at `out` is 18 or 19
bytes longer than the length that belongs to the output says, and shorter than `2 ^ 32 - 1`. -/
def FileOutput.FitsBlock (output : FileOutput) : Prop :=
  ∀ out ∈ output.out, (CString.ofMemory out).strlen % 2 ^ 32 < 2 ^ 32 - 1 ∧
    ((CString.ofMemory out).strlen % 2 ^ 32 = output.len.toNat + 18 ∨
      (CString.ofMemory out).strlen % 2 ^ 32 = output.len.toNat + 19)

/-- The places and arguments with which the bounds are met. -/
def SendSite.Fits : SendSite → Prop
  | registerWorker ip => ip.text.strlen = 11 ∨ ip.text.strlen = 12
  | answerClient _ _ output => output.error = 0 ∧ output.FitsBlock
  | _ => False

/-- The bounds for a packet whose argument has `n` bytes, a number that is stored in 32 bits. -/
theorem Outgoing.inBounds_iff_of_msgLen {o : Outgoing} {n : ℕ}
    (hn : o.packet.msgLen = UInt32.ofNat n) :
    o.InBounds ↔ 22 + n % 2 ^ 32 ≤ o.len ∧ o.len ≤ (n % 2 ^ 32 + 1) % 2 ^ 32 + 22 := by
  have hone : (1 : UInt32).toNat = 1 := rfl
  rw [Outgoing.InBounds, pEncodeSize, UInt32.toNat_add, hone, hn, UInt32.toNat_ofNat', headerSize]

theorem strlen_errorText_le (type : UInt32) : (errorText type).strlen ≤ 12 := by
  unfold errorText
  split_ifs <;> decide

/-- **The lengths passed to `conn_write`.** A packet is sent whole, and nothing from behind its
block with it, exactly from `register_worker` with an address of 11 or 12 characters, and from
`answer_client` with an output that fits. -/
theorem SendSite.inBounds_iff (tokens : Tokens) (s : SendSite) : s.InBounds tokens ↔ s.Fits := by
  have hsome : ∀ {o : Outgoing} {n : ℕ}, s.outgoing tokens = some o →
      o.packet.msgLen = UInt32.ofNat n → (s.InBounds tokens ↔
        22 + n % 2 ^ 32 ≤ o.len ∧ o.len ≤ (n % 2 ^ 32 + 1) % 2 ^ 32 + 22) := by
    intro o n ho hn
    rw [← o.inBounds_iff_of_msgLen hn, SendSite.InBounds, ho]
    simp only [Option.mem_some_iff, forall_eq']
  have hlit : (lit "").strlen = 0 ∧ (lit "1").strlen = 1 := ⟨rfl, rfl⟩
  cases s with
  | clientLs =>
    rw [hsome rfl rfl, hlit.1]
    exact iff_of_false (by simp [Interface.ls, sizeofPacket]) id
  | clientRead fileName =>
    rw [hsome rfl rfl]
    exact iff_of_false (by simp only [Interface.fileRead, sizeofPacket]; omega) id
  | clientWrite fileName buffer append =>
    rw [hsome rfl rfl]
    exact iff_of_false (by simp only [Interface.fileWrite, sizeofPacket]; omega) id
  | clientDelete fileName =>
    rw [hsome rfl rfl]
    exact iff_of_false (by simp only [Interface.fileDelete, sizeofPacket]; omega) id
  | pingServer =>
    rw [hsome rfl rfl, hlit.1]
    exact iff_of_false (by simp [sizeofPacket]) id
  | lsIndex =>
    rw [hsome rfl rfl, hlit.1]
    exact iff_of_false (by simp [sizeofPacket]) id
  | workerWrite file data =>
    rw [hsome rfl rfl]
    exact iff_of_false (by simp only [sizeofPacket]; omega) id
  | workerDelete file =>
    rw [hsome rfl rfl]
    exact iff_of_false (by simp only [sizeofPacket]; omega) id
  | registerWorker ip =>
    have hip := ip.strlen_text
    have hlen : (registerMsg ip.text).strlen = ip.text.strlen + 6 := length_registerMsg ip.text
    rw [hsome rfl rfl, hlen]
    simp only [registerLen, SendSite.Fits]
    omega
  | pingReply seqNumber =>
    rw [hsome rfl rfl, hlit.2]
    exact iff_of_false (by simp) id
  | lsReply seqNumber lsOutput =>
    rw [hsome rfl rfl]
    exact iff_of_false (by simp only [sizeofPacket]; omega) id
  | answerClient seqNumber type output =>
    by_cases herr : output.error ≠ 0
    · have ho : SendSite.outgoing tokens (.answerClient seqNumber type output) = some
          ⟨pError seqNumber (errorText type) type tokens.workerTkn,
            sizeofPacket + output.len.toNat + 1⟩ := if_pos herr
      have hlen := strlen_errorText_le type
      rw [hsome ho rfl]
      exact iff_of_false (by simp only [sizeofPacket]; omega) fun hfits => herr hfits.1
    · cases hout : output.out with
      | none =>
        have ho : SendSite.outgoing tokens (.answerClient seqNumber type output) = none := by
          rw [SendSite.outgoing, answerOutgoing, if_neg herr, hout]
          rfl
        refine iff_of_true (fun o hmem => ?_) ⟨not_not.mp herr, fun out hmem => ?_⟩
        · exact absurd (ho.symm.trans hmem) (by simp)
        · exact absurd (hout.symm.trans hmem) (by simp)
      | some out =>
        have ho : SendSite.outgoing tokens (.answerClient seqNumber type output) = some
            ⟨createPacket tokens seqNumber type (CString.ofMemory out),
              sizeofPacket + output.len.toNat + 1⟩ := by
          rw [SendSite.outgoing, answerOutgoing, if_neg herr, hout]
          rfl
        rw [hsome ho rfl]
        simp only [SendSite.Fits, FileOutput.FitsBlock, hout, Option.mem_some_iff, forall_eq',
          not_not.mp herr, true_and, sizeofPacket]
        omega

/-- The answer to a PING is cut: 13 of its 23 bytes are sent. -/
theorem SendSite.not_forall_inBounds :
    ¬ ∀ (tokens : Tokens) (s : SendSite), s.InBounds tokens := by
  intro h
  have hping := h exampleTokens (.pingReply 1)
    ⟨pInit 1 (lit "1") MsgType.ping.code, 13⟩ rfl
  exact absurd hping (by decide)

end PekarDrive
