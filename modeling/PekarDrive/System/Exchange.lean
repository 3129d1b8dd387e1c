import PekarDrive.Master.Confined
import PekarDrive.System.Listing
import PekarDrive.System.Separators
import PekarDrive.System.WriteCounts
import PekarDrive.Worker.Answer
import PekarDrive.Worker.Site

/-!
# An exchange with a worker

The master connects to a worker, sends one packet and reads the answer. Here both ends are at
work: the worker finds in its buffer what the master has sent, serves it with its own
`handle_client` on its own files, and what it sends is what the master finds in its buffer. A read
delivers what was sent, as far as the buffer has room. The worker stops where it would leave its
memory (`PekarDrive.handleWorkerClientConfined`).

Where the bytes behind the strings happen to be zero, a listing has the names that the worker keeps,
a WRITE stores the text and returns its length, and a DELETE removes the file.

## Main definitions

* `PekarDrive.ReadResult.Finds`: a read that finds a packet.
* `PekarDrive.HopMemory`: memory that nobody has written.
* `PekarDrive.Site.exchange`: the exchange.

## Main results

* `PekarDrive.Site.Keeps.exchange_ls`, `PekarDrive.Site.Keeps.exchange_write`,
  `PekarDrive.Site.Keeps.exchange_delete`.
-/

namespace PekarDrive

open CMemory CText LockedThreads

/-! ### Packets that arrive -/

/-- The read delivers something, and the buffer holds the packet. -/
structure ReadResult.Finds (r : ReadResult) (p : Packet) : Prop where
  /-- Something is delivered. -/
  pos : 0 < r.bytes
  /-- The packet. -/
  decode : (pDecode r.buffer).val = p

/-- A packet that is found and is not too long is decoded inside the buffer. -/
theorem ReadResult.Finds.inside {r : ReadResult} {p : Packet} (hr : r.Finds p) {site : DecodeSite}
    (hlen : headerSize + p.msgLen.toNat ≤ site.bufferSize) : site.Inside r := by
  rw [site.inside_iff_of_pos hr.pos, hr.decode]
  exact hlen

/-- The length that `p_init` notes is that of the argument. -/
theorem length_arg_pInit (seqNumber : UInt32) {arg : CString} (h : arg.strlen < 2 ^ 32)
    (type : UInt32) :
    (pInit seqNumber arg type).arg.length = (pInit seqNumber arg type).msgLen.toNat := by
  change arg.bytes.length = (UInt32.ofNat arg.strlen).toNat
  rw [toNat_counter h]
  rfl

/-- A packet that is sent whole and has room in the buffer is found there. -/
theorem Outgoing.finds_take_wire {o : Outgoing}
    (harg : o.packet.arg.length = o.packet.msgLen.toNat)
    (hlen : headerSize + o.packet.arg.length ≤ o.len) (behind : Mem) {k : ℕ}
    (hk : headerSize + o.packet.arg.length ≤ k) (stale : Mem) :
    (ReadResult.delivered ((o.wire behind).take k) stale).Finds o.packet := by
  have hencode := length_pEncode harg
  rw [← harg] at hencode
  obtain ⟨extra, hwire⟩ := Outgoing.wire_eq (o := o) (by omega) behind
  have htake : (o.wire behind).take k =
      pEncode o.packet ++ extra.take (k - (pEncode o.packet).length) := by
    rw [hwire, List.take_append, List.take_of_length_le (by omega)]
  constructor
  · rw [ReadResult.delivered, htake, List.length_append, hencode, headerSize]
    push_cast
    omega
  · rw [ReadResult.delivered, htake]
    exact pDecode_overlay_pEncode harg _ stale

/-- A packet that is sent whole is decoded inside the buffer if it has room there. -/
theorem Outgoing.inside_take_wire_iff {o : Outgoing}
    (harg : o.packet.arg.length = o.packet.msgLen.toNat)
    (hlen : headerSize + o.packet.arg.length ≤ o.len) (behind : Mem) (site : DecodeSite)
    (stale : Mem) :
    site.Inside (.delivered ((o.wire behind).take site.bufferSize) stale) ↔
      headerSize + o.packet.msgLen.toNat ≤ site.bufferSize := by
  have hencode := length_pEncode harg
  rw [← harg] at hencode
  obtain ⟨extra, hwire⟩ := Outgoing.wire_eq (o := o) (by omega) behind
  have hsize : headerSize ≤ site.bufferSize := by cases site <;> decide
  have hheader : (encodeHeader o.packet).length = headerSize := length_encodeHeader _
  -- the header is delivered
  have htake : (o.wire behind).take site.bufferSize = encodeHeader o.packet ++
      (o.packet.arg.take o.packet.msgLen.toNat ++ extra).take (site.bufferSize - headerSize) := by
    rw [hwire, pEncode, List.append_assoc, List.take_append, List.take_of_length_le (by omega),
      hheader]
  have hpos : 0 < (ReadResult.delivered ((o.wire behind).take site.bufferSize) stale).bytes := by
    rw [ReadResult.delivered, htake, List.length_append, hheader, headerSize]
    push_cast
    omega
  rw [site.inside_iff_of_pos hpos, ReadResult.delivered, htake, (pDecode_header _ _ _).2.1]

/-! ### The worker -/

section Worker

variable (setup : WorkerSetup) {heap : WorkerHeap} (uninit : Uninit) (fs : FileSystem)
  {r : ReadResult} {f d : CString} {w : FileServer} {behindArg behindName : List UInt8}

variable {setup} in
/-- A worker cuts the argument of a WRITE at the separator of the master. -/
theorem writeParts_of_cut {arg : List UInt8} (hf : semicolon ∉ f.bytes)
    (hlen : f.strlen + 1 < 2 ^ 32)
    (harg : arg = f.bytes ++ semicolon :: (d.bytes ++ 0 :: behindArg))
    (hname : heap.behindName = 0 :: behindName) :
    writeParts setup heap arg false = writeFile setup f d false := by
  rw [writeParts_eq_workerPieces, harg,
    workerPieces_append hf f.nulFree behindArg d.nulFree hlen]
  simp only
  rw [hname, CString.ofMemory_append_zero, CString.ofMemory_bytes]

/-- What a worker does with a WRITE of the master. -/
theorem workerRun_write (hr : r.Finds (writeRequest setup.tokens f d w).packet)
    (hf : semicolon ∉ f.bytes) (hlen : f.strlen + 1 < 2 ^ 32)
    (harg : heap.behindArg = 0 :: behindArg) (hname : heap.behindName = 0 :: behindName) :
    workerRun setup heap uninit r fs =
      ([.op (.write f d), .send ((countAnswer setup.tokens 1
          (fsWriteFile setup.workDir f d false fs).1).wire heap.behindSent)],
        some ((), (fsWriteFile setup.workDir f d false fs).2)) := by
  have hmemory : (pDecode r.buffer).val.arg ++ heap.behindArg =
      f.bytes ++ semicolon :: (d.bytes ++ 0 :: behindArg) := by
    rw [hr.decode, arg_writeRequest, harg, List.append_assoc, List.cons_append]
  have hparts : writeParts setup heap _ false = writeFile setup f d false :=
    writeParts_of_cut hf hlen hmemory hname
  have htoken : (pDecode r.buffer).val.token = setup.tokens.masterTkn := by rw [hr.decode]; rfl
  have htype : (pDecode r.buffer).val.msgType = MsgType.write.code := by rw [hr.decode]; rfl
  have hseq : (pDecode r.buffer).val.seqNumber = 0 := by rw [hr.decode]; rfl
  rw [workerRun_of_switchOp hr.pos htoken htype (by decide) (by decide) fun _ _ => rfl,
    fExec_fileWrite, hparts, hseq]
  rfl

/-- What a worker does with a DELETE of the master. -/
theorem exists_workerRun_delete (hr : r.Finds (deleteRequest setup.tokens f w).packet)
    (harg : heap.behindArg = 0 :: behindArg) : ∃ bytes, workerRun setup heap uninit r fs =
      ([.op (.delete f), .send bytes],
        some ((), fsDeleteFile setup.os setup.workDir f fs)) := by
  have hfile : CString.ofMemory ((pDecode r.buffer).val.arg ++ heap.behindArg) = f := by
    rw [hr.decode, harg]
    exact CString.ofMemory_append_zero f behindArg
  have htoken : (pDecode r.buffer).val.token = setup.tokens.masterTkn := by rw [hr.decode]; rfl
  have htype : (pDecode r.buffer).val.msgType = MsgType.delete.code := by rw [hr.decode]; rfl
  rw [workerRun_of_switchOp hr.pos htoken htype (by decide) (by decide) fun _ _ => rfl,
    fExec_fileDelete, hfile]
  exact ⟨_, rfl⟩

variable (a : Allocator)

/-- A WRITE that has room in the buffer stays inside its blocks. -/
theorem workerRunConfined_write (hr : r.Finds (writeRequest setup.tokens f d w).packet)
    (hf : semicolon ∉ f.bytes) (hsize : headerSize + (f.strlen + 1 + d.strlen) ≤ 10000)
    (harg : heap.behindArg = 0 :: behindArg) (hname : heap.behindName = 0 :: behindName) :
    workerRunConfined a setup heap uninit r fs = workerRun setup heap uninit r fs := by
  have hroom := hsize
  rw [headerSize] at hroom
  have hmemory : (pDecode r.buffer).val.arg ++ heap.behindArg =
      f.bytes ++ semicolon :: (d.bytes ++ 0 :: behindArg) := by
    rw [hr.decode, arg_writeRequest, harg, List.append_assoc, List.cons_append]
  have htype : (pDecode r.buffer).val.msgType = MsgType.write.code := by rw [hr.decode]; rfl
  have htoken : (pDecode r.buffer).val.token = setup.tokens.masterTkn := by rw [hr.decode]; rfl
  have hparts : writeParts setup heap _ false = writeFile setup f d false :=
    writeParts_of_cut hf (by omega) hmemory hname
  have hlen : (writeRequest setup.tokens f d w).packet.msgLen.toNat = f.strlen + 1 + d.strlen := by
    change (UInt32.ofNat (genWriteArg f d).strlen).toNat = _
    rw [strlen_genWriteArg, toNat_counter (by omega)]
  refine workerRunConfined_eq (show DecodeSite.workerClient.Inside r from hr.inside ?_)
    (fun _ => ?_) ?_
  · rw [hlen]
    exact hsize
  · rw [hmemory]
    exact argFits_of_append a _ (show f.strlen + 2 < 2 ^ 32 by omega) _
  · rw [keeps_handleWorkerClient_iff_of_locked hr.pos htoken htype (by decide) (by decide)
      (fun _ _ => rfl) (fExec_fileWrite setup heap _),
      and_iff_left fun _ _ _ => encodes_of_eval_writeParts, hparts, keeps_writeFile_iff,
      numberFits_fsWriteFile_iff]
    exact fun _ _ => numberFits_of_lt (by omega)

/-- So does a DELETE. -/
theorem workerRunConfined_delete (hr : r.Finds (deleteRequest setup.tokens f w).packet)
    (hsize : headerSize + f.strlen ≤ 10000) :
    workerRunConfined a setup heap uninit r fs = workerRun setup heap uninit r fs := by
  have hroom := hsize
  rw [headerSize] at hroom
  have htype : (pDecode r.buffer).val.msgType = MsgType.delete.code := by rw [hr.decode]; rfl
  have htoken : (pDecode r.buffer).val.token = setup.tokens.masterTkn := by rw [hr.decode]; rfl
  refine workerRunConfined_eq (show DecodeSite.workerClient.Inside r from hr.inside ?_)
    (fun _ => ?_) ?_
  · change headerSize + (UInt32.ofNat f.strlen).toNat ≤ 10000
    rw [toNat_counter (by omega)]
    exact hsize
  · rw [htype]
    exact argFits_of_eq_zero (show fileDelete &&& (fileWrite ||| fileAppend) = 0 by decide) _
  · rw [keeps_handleWorkerClient_iff_of_locked hr.pos htoken htype (by decide) (by decide)
      (fun _ _ => rfl) (fExec_fileDelete setup heap _)]
    exact ⟨keeps_deleteFile _, fun _ _ _ => encodes_of_eval_deleteFile⟩

/-- An LS does if the names have room. -/
theorem workerRunConfined_ls (hr : r.Finds (lsRequest setup.tokens w).packet)
    (hroom : (FileOp.list setup.workerDir).HasRoom a setup heap fs)
    (hanswer : (FileOp.list setup.workerDir).AnswerFits a setup heap fs) :
    workerRunConfined a setup heap uninit r fs = workerRun setup heap uninit r fs := by
  have htype : (pDecode r.buffer).val.msgType = MsgType.ls.code := by rw [hr.decode]; rfl
  have htoken : (pDecode r.buffer).val.token = setup.tokens.masterTkn := by rw [hr.decode]; rfl
  refine workerRunConfined_eq (show DecodeSite.workerClient.Inside r from hr.inside ?_)
    (fun hexec => absurd htype hexec.2.2.2) ?_
  · exact show 22 + 0 ≤ 10000 by decide
  · exact (keeps_handleWorkerClient_of_ls hr.pos htoken htype).mpr ⟨hroom, hanswer⟩

end Worker

/-! ### The exchange -/

/-- Memory that plays a part in an exchange though nobody has written it. -/
structure HopMemory where
  /-- Behind the block of `p_encode` of the master. -/
  behindSent : Mem
  /-- In the receive buffer of the worker. -/
  staleWorker : Mem
  /-- Around the blocks of the worker. -/
  heap : WorkerHeap
  /-- In the uninitialised variables of the worker. -/
  uninit : Uninit
  /-- In the receive buffer of the master. -/
  stale : Mem
  /-- Behind the argument that the master decodes. -/
  behindArg : List UInt8

/-- The bytes behind the strings are zero. -/
structure HopMemory.Terminated (hop : HopMemory) : Prop where
  /-- Behind the argument that the worker decodes. -/
  behindWorkerArg : hop.heap.behindArg.head? = some 0
  /-- Behind the file name. -/
  behindName : hop.heap.behindName.head? = some 0
  /-- In the fresh block of the listing. -/
  lsBlock : hop.heap.lsBlock.head? = some 0
  /-- Behind the argument that the master decodes. -/
  behindArg : hop.behindArg.head? = some 0

namespace Request

variable (q : Request)

/-- The packet of a request, and the length passed to `conn_write`. -/
def outgoing : Outgoing := ⟨q.packet, q.sendLen⟩

/-- What the worker finds in its buffer. -/
def delivery (hop : HopMemory) : ReadResult :=
  .delivered ((q.outgoing.wire hop.behindSent).take DecodeSite.workerClient.bufferSize)
    hop.staleWorker

variable {q} in
/-- A request of the master that has room in the buffer arrives. -/
theorem finds_delivery {token : UInt64} {arg : CString} {type : UInt32}
    (hq : q.packet = attachToken token (pInit 0 arg type))
    (hlen : headerSize + arg.strlen ≤ q.sendLen) (hroom : headerSize + arg.strlen ≤ 10000)
    (hop : HopMemory) : (q.delivery hop).Finds q.packet := by
  rw [headerSize] at hroom
  have harg : q.outgoing.packet.arg.length = q.outgoing.packet.msgLen.toNat := by
    rw [outgoing, hq]
    exact length_arg_pInit 0 (by omega) type
  have hstrlen : q.outgoing.packet.arg.length = arg.strlen := by
    rw [outgoing, hq]
    rfl
  rw [← hstrlen] at hlen hroom
  exact Outgoing.finds_take_wire harg hlen hop.behindSent hroom hop.staleWorker

end Request

namespace Site

variable (a : Allocator) (site : Site) (tokens : Tokens) (hop : HopMemory) (q : Request)
  (fs : FileSystem)

/-- The run of the worker on a request. -/
def runOn : List WorkerEvent × Option (Unit × FileSystem) :=
  workerRunConfined a (site.setup tokens) hop.heap hop.uninit (q.delivery hop) fs

/-- What the master finds, and the files of the worker afterwards. A worker that faults is taken to
leave its files. -/
def exchange : Reply × FileSystem :=
  ({ written := q.sendLen
     read := .delivered ((sendsOf (site.runOn a tokens hop q fs).1).flatten.take q.readLen)
       hop.stale
     behind := hop.behindArg },
    ((site.runOn a tokens hop q fs).2.map Prod.snd).getD fs)

end Site

/-! ### Exchanges with a worker that keeps files -/

theorem exists_cons_of_head? {l : List UInt8} {b : UInt8} (h : l.head? = some b) :
    ∃ rest, l = b :: rest := by
  obtain ⟨rest, hrest⟩ := List.head?_eq_some_iff.mp h
  exact ⟨rest, hrest⟩

/-- The names of a listing as names of files. -/
theorem exists_fileNames {l : List CString} (h : ∀ f ∈ l, f.bytes ≠ [] ∧ 10 ∉ f.bytes) :
    ∃ names : List FileName, names.map FileName.text = l := by
  induction l with
  | nil => exact ⟨[], rfl⟩
  | cons f l ih =>
    obtain ⟨⟨hne, hnewline⟩, hl⟩ := List.forall_mem_cons.mp h
    obtain ⟨names, rfl⟩ := ih hl
    exact ⟨⟨f, hne, hnewline⟩ :: names, rfl⟩

namespace Site.Keeps

variable {a : Allocator} {site : Site} {fs : FileSystem} {m : NamedFiles} (h : site.Keeps fs m)
  (tokens : Tokens) {hop : HopMemory} (hhop : hop.Terminated) (w : FileServer) {f d : CString}

include h

theorem forall_mem_listing {l : List CString} (hl : IsListing m l) :
    ∀ f ∈ l, f.bytes ≠ [] ∧ 10 ∉ f.bytes := by
  intro f hf
  rcases (hl.mem_iff f).mp hf with rfl | rfl | hf
  · exact ⟨by decide, by decide⟩
  · exact ⟨by decide, by decide⟩
  · have hplain := h.isFileName hf
    exact ⟨hplain.ne_nil, fun hmem => absurd (hplain.uncut 10 hmem).2 (by decide)⟩

include hhop

/-- **LS.** -/
theorem exchange_ls (hfits : m.ListingFits a) : (∃ ls, IsListingText m ls ∧
      lsAnswer (site.exchange a tokens hop (lsRequest tokens w) fs).1 = some ls) ∧
    Decodes (lsRequest tokens w) (site.exchange a tokens hop (lsRequest tokens w) fs).1 ∧
    (site.exchange a tokens hop (lsRequest tokens w) fs).2 = fs := by
  obtain ⟨l, hlist, hl⟩ := h.exists_eval_fileList tokens (fun _ _ => ()) []
  obtain ⟨names, hnames⟩ := exists_fileNames (h.forall_mem_listing hl)
  obtain ⟨behindList, hblock⟩ := exists_cons_of_head? hhop.lsBlock
  obtain ⟨behindArg, hbehind⟩ := exists_cons_of_head? hhop.behindArg
  let lister : LsWorker := ⟨names, 0, 5040, by decide, le_rfl, 0⟩
  let mem : LsMemory := ⟨behindList, hop.heap.behindSent, hop.stale, behindArg⟩
  have hlisting : lister.listing = [10].intercalate (l.map CString.bytes) := by
    rw [← hnames, List.map_map]
    rfl
  have hr : ((lsRequest tokens w).delivery hop).Finds (lsRequest tokens w).packet :=
    Request.finds_delivery (show (lsRequest tokens w).packet = attachToken tokens.masterTkn
      (pInit 0 (lit "") MsgType.ls.code) from rfl) (show 22 ≤ 41 by decide) (by decide) hop
  have htoken : (pDecode ((lsRequest tokens w).delivery hop).buffer).val.token =
      tokens.masterTkn := by
    rw [hr.decode]
    rfl
  have htype : (pDecode ((lsRequest tokens w).delivery hop).buffer).val.msgType =
      MsgType.ls.code := by
    rw [hr.decode]
    rfl
  have hseq : (pDecode ((lsRequest tokens w).delivery hop).buffer).val.seqNumber = 0 := by
    rw [hr.decode]
    rfl
  have hstring : CString.ofMemory hop.heap.lsBlock = lit "" := by
    rw [hblock]
    rfl
  rw [← hnames] at hlist
  -- the worker sends the text of the names
  have hrun : site.runOn a tokens hop (lsRequest tokens w) fs =
      ([.op (.list site.dir), .send (lister.sent mem)], some ((), fs)) := by
    rw [runOn, workerRunConfined_ls (site.setup tokens) hop.uninit fs a hr
      (h.hasRoom_list tokens hstring hfits) (h.answerFits_list tokens hstring hfits)]
    exact @LsWorker.eval_handleWorkerClient lister mem (site.setup tokens) hop.heap hop.uninit _
      (fun _ _ => ()) [] _ fs fs hr.pos htoken htype hseq hblock rfl hlist
  have hreply : (site.exchange a tokens hop (lsRequest tokens w) fs).1 = lister.reply mem := by
    simp only [exchange, hrun, sendsOf, List.filterMap_cons, List.filterMap_nil,
      List.flatten_singleton, LsWorker.reply]
    rw [hbehind]
    rfl
  have hfull : lister.InFull := by
    refine ⟨show 8 ≤ 5040 by decide, fun _ => ⟨rfl, ?_⟩, rfl⟩
    rw [hlisting]
    exact Nat.add_le_add_left (hfits l hl).2.2 22
  refine ⟨⟨CString.ofMemory (lister.listing ++ 0 :: behindArg), ⟨l, hl, ?_⟩, ?_⟩, ?_, ?_⟩
  · rw [CString.bytes_ofMemory_append lister.zero_notMem_listing, hlisting]
    exact List.append_nil _
  · rw [hreply, lister.lsAnswer_reply mem, lister.arg_of_inFull mem hfull]
  · rw [hreply, decodes_lsRequest_iff, DecodeSite.inside_iff]
    refine .inr (.inr ?_)
    change headerSize + (pDecode (lister.buffer mem)).val.msgLen.toNat ≤ 5040
    rw [← length_arg_pDecode, lister.arg_of_inFull mem hfull, hlisting]
    exact Nat.add_le_add_left (hfits l hl).2.2 22
  · rw [exchange, hrun]
    rfl

/-- **WRITE.** -/
theorem exchange_write (hf : IsFileName f)
    (hsize : headerSize + (f.strlen + 1 + d.strlen) ≤ 10000) :
    writtenBytes (site.exchange a tokens hop (writeRequest tokens f d w) fs).1 = d.strlen ∧
    Fits a (writeRequest tokens f d w)
      (site.exchange a tokens hop (writeRequest tokens f d w) fs).1 ∧
    site.Keeps (site.exchange a tokens hop (writeRequest tokens f d w) fs).2
      (Function.update m f (some d.bytes)) := by
  have hroom := hsize
  rw [headerSize] at hroom
  have hcall : (FileCall.write f d false).Allowed := ⟨hf, by omega⟩
  obtain ⟨hresult, hkeeps⟩ := h.run hcall
  have hn : (fsWriteFile (some site.dir) f d false fs).1 = d.strlen := Option.some.inj hresult
  obtain ⟨behindWorkerArg, hworkerArg⟩ := exists_cons_of_head? hhop.behindWorkerArg
  obtain ⟨behindName, hname⟩ := exists_cons_of_head? hhop.behindName
  obtain ⟨behindArg, hbehind⟩ := exists_cons_of_head? hhop.behindArg
  have hlen : ((f.append (lit ";")).append d).strlen = f.strlen + 1 + d.strlen :=
    strlen_genWriteArg f d
  have hr : ((writeRequest tokens f d w).delivery hop).Finds
      (writeRequest tokens f d w).packet := by
    refine Request.finds_delivery rfl ?_ ?_ hop
    · change headerSize + ((f.append (lit ";")).append d).strlen ≤
        ((f.append (lit ";")).append d).strlen + sizeofPacket + 1
      rw [headerSize, sizeofPacket]
      omega
    · rw [hlen, headerSize]
      omega
  have hsep : semicolon ∉ f.bytes := fun hmem => absurd (hf.uncut _ hmem).2 (by decide)
  have hrun : site.runOn a tokens hop (writeRequest tokens f d w) fs =
      ([.op (.write f d), .send ((countAnswer tokens 1 d.strlen).wire hop.heap.behindSent)],
        some ((), (fsWriteFile (some site.dir) f d false fs).2)) := by
    rw [runOn, workerRunConfined_write (site.setup tokens) hop.uninit fs a hr hsep hsize hworkerArg
      hname, ← hn]
    exact workerRun_write (site.setup tokens) hop.uninit fs hr hsep (by omega) hworkerArg hname
  let mem : ExchangeMemory :=
    ⟨hop.heap.behindSent, hop.stale, hop.behindArg, fun _ _ => 0, []⟩
  have hread : (site.exchange a tokens hop (writeRequest tokens f d w) fs).1.read =
      countRead tokens 1 d.strlen mem .answered := by
    simp only [exchange, hrun, sendsOf, List.filterMap_cons, List.filterMap_nil,
      List.flatten_singleton]
    rfl
  have hwritten : writtenBytes (site.exchange a tokens hop (writeRequest tokens f d w) fs).1 =
      d.strlen := by
    have hreply : writtenBytes (site.exchange a tokens hop (writeRequest tokens f d w) fs).1 =
        writtenBytes (countReply mem (countRead tokens 1 d.strlen mem .answered)) := by
      rw [writtenBytes, hread]
      rfl
    have hdigits : hop.behindArg.takeWhile isDigit = [] := by
      rw [hbehind]
      rfl
    rw [hreply, writtenBytes_answered tokens 1 mem (by omega) (by omega)]
    change max _ (min _ (extended _ (hop.behindArg.takeWhile isDigit))) = _
    rw [hdigits, extended_nil]
    omega
  refine ⟨hwritten, (fits_writeRequest_iff a tokens w _).mpr ⟨?_, ?_⟩, ?_⟩
  · rw [hread]
    exact inside_countRead_answered tokens 1 mem (by omega) (by omega)
  · rw [hwritten, CString.strlen, bytes_long2str]
    exact numberFits_of_lt (by omega)
  · rw [exchange, hrun]
    exact hkeeps

/-- **DELETE.** -/
theorem exchange_delete (hf : IsFileName f) (hsize : headerSize + f.strlen ≤ 10000) :
    site.Keeps (site.exchange a tokens hop (deleteRequest tokens f w) fs).2
      (Function.update m f none) := by
  have hroom := hsize
  rw [headerSize] at hroom
  obtain ⟨behindWorkerArg, hworkerArg⟩ := exists_cons_of_head? hhop.behindWorkerArg
  have hr : ((deleteRequest tokens f w).delivery hop).Finds (deleteRequest tokens f w).packet := by
    refine Request.finds_delivery rfl ?_ hsize hop
    change 22 + f.strlen ≤ sizeofPacket + f.strlen
    rw [sizeofPacket]
    omega
  obtain ⟨bytes, hrun⟩ := exists_workerRun_delete (site.setup tokens) hop.uninit fs hr
    hworkerArg
  rw [exchange, runOn, workerRunConfined_delete (site.setup tokens) hop.uninit fs a hr hsize, hrun]
  exact (h.run (c := .delete f) hf).2

end Site.Keeps

end PekarDrive
