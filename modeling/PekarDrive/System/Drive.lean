import PekarDrive.Master.RegisterArgument
import PekarDrive.System.DeleteReply
import PekarDrive.System.Exchange
import PekarDrive.System.Store

/-!
# The drive

The master and the workers as one machine. A client sends one packet, as `lib/interface.c` makes it,
and a worker that starts sends one, as `register_worker` makes it. The master serves the packet with
`handle_client`, and each request that it sends on is served by the worker at the address, on the
files of this worker. A step is what happens to one packet, or that a worker is taken out of the
table. Master and workers stop where they would leave their memory.

Where the bytes behind the strings happen to be zero and the names have room, every sequence of
steps goes through, and the answers are those of `PekarDrive.Store`.

## Main definitions

* `PekarDrive.Drive`, with `serve` and `step`.
* `PekarDrive.workersPeer`: the workers, as the master sees them.
* `PekarDrive.StepMemory`: memory that nobody has written.
* `PekarDrive.Drive.Represents`: the drive keeps what a store has.

## Main results

* `PekarDrive.Drive.Represents.exists_step`: one step.
-/

namespace PekarDrive

open CMemory CText LockedThreads StepRuns

/-! ### The machine -/

/-- Memory that plays a part in a step though nobody has written it. -/
structure StepMemory where
  /-- Behind the packet that is sent to the master. -/
  behindSent : Mem
  /-- In the receive buffer of the master. -/
  stale : Mem
  /-- Around the blocks of the master. -/
  heap : Heap
  /-- In the exchanges with workers, one after the other. -/
  hops : ℕ → HopMemory

/-- The bytes behind the strings are zero. -/
structure StepMemory.Terminated (mem : StepMemory) : Prop where
  /-- Behind the argument that the master decodes. -/
  behindArg : mem.heap.behindArg.head? = some 0
  /-- Behind the file name. -/
  behindFile : mem.heap.behindFile.head? = some 0
  /-- Behind the address. -/
  behindIp : mem.heap.behindIp.head? = some 0
  /-- In the fresh block of the listing. -/
  lsBlock : mem.heap.lsBlock.head? = some 0
  /-- In the exchanges. -/
  hops : ∀ n, (mem.hops n).Terminated

/-- What the master finds in its buffer. -/
def Outgoing.delivery (o : Outgoing) (mem : StepMemory) : ReadResult :=
  .delivered ((o.wire mem.behindSent).take DecodeSite.masterClient.bufferSize) mem.stale

/-- The workers, as the master sees them. -/
def workersPeer (a : Allocator) (tokens : Tokens) (sites : Location → Site)
    (hops : ℕ → HopMemory) : Peer Request Reply (Location → FileSystem) := fun n q files =>
  let x := (sites q.server.location).exchange a tokens (hops n) q (files q.server.location)
  (x.1, Function.update files q.server.location x.2)

/-- The master, and the files at all addresses. -/
structure Drive where
  /-- The server table. -/
  table : ServerTable
  /-- The static variable `worker_id`. -/
  workerId : UInt32
  /-- The files of the machine at an address. -/
  files : Location → FileSystem

namespace Drive

variable (a : Allocator) (tokens : Tokens) (sites : Location → Site) (d : Drive)

/-- The master serves one packet: what it sends back, and the drive afterwards. -/
def serve (mem : StepMemory) (o : Outgoing) : Option (Option (List UInt8) × Drive) :=
  let peer := workersPeer a tokens sites mem.hops
  let run := (handleClientConfined a tokens mem.heap d.workerId (o.delivery mem)).eval
    (peer.env d.files) [] d.table
  run.2.map fun x => (x.1.response, ⟨x.2, x.1.workerId, peer.after d.files run.1⟩)

/-- A step, if the master does not stop in it. -/
def step (e : StoreOp × StepMemory) (d : Drive) : Option (Option (List UInt8) × Drive) :=
  match e.1 with
  | .ls => d.serve a tokens sites e.2 Interface.ls
  | .write f text => d.serve a tokens sites e.2 (Interface.fileWrite f text false)
  | .append f text => d.serve a tokens sites e.2 (Interface.fileWrite f text true)
  | .delete f => d.serve a tokens sites e.2 (Interface.fileDelete f)
  | .register q => d.serve a tokens sites e.2 ⟨registerPacket tokens q.text, registerLen⟩
  | .remove id => some (none, { d with table := d.table.remove id })

/-- The drive keeps what the store has. -/
structure Represents (s : Store) : Prop where
  /-- The same workers are registered. -/
  table : d.table.serverTable = s.workers
  /-- The next worker gets the same id. -/
  workerId : d.workerId = s.nextId
  /-- At every address there are the same files. -/
  files : ∀ loc, (sites loc).Keeps (d.files loc) (s.files loc)

variable {a tokens sites d}

/-- Where the packet and the answers of the workers have room, what `handle_client` does is what
happens. -/
theorem serve_of_eval {mem : StepMemory} {o : Outgoing} {io : List Request} {out : Served}
    {t : ServerTable} (hinside : DecodeSite.masterClient.Inside (o.delivery mem))
    (haddress : Registers tokens (o.delivery mem) →
      AddressFits a mem.heap (argMemory (o.delivery mem) mem.heap))
    (hfits : ∀ h q rest, io = h ++ q :: rest →
      Fits a q ((workersPeer a tokens sites mem.hops).env d.files h q))
    (heval : (handleClient tokens mem.heap d.workerId (o.delivery mem)).eval
      ((workersPeer a tokens sites mem.hops).env d.files) [] d.table = (io, some (out, t))) :
    d.serve a tokens sites mem o = some (out.response,
      ⟨t, out.workerId, (workersPeer a tokens sites mem.hops).after d.files io⟩) := by
  have hkeeps : (handleClient tokens mem.heap d.workerId (o.delivery mem)).Keeps (fun _ => Fits a)
      ((workersPeer a tokens sites mem.hops).env d.files) [] d.table := by
    refine Prog.keeps_of_forall_eval fun h q rest heq _ _ => hfits h q rest ?_
    rw [← heq, heval]
  rw [serve]
  simp only [eval_handleClientConfined_of_keeps a tokens mem.heap d.workerId _ [] hinside haddress
    hkeeps, heval, Option.map_some]

end Drive

/-! ### What the master finds -/

section Delivery

variable {o : Outgoing} (mem : StepMemory)

/-- A packet of a client that has room in the buffer arrives. -/
theorem Outgoing.finds_delivery {arg : CString} {type : UInt32} (ho : o.packet = pInit 0 arg type)
    (hlen : headerSize + arg.strlen ≤ o.len) (hroom : headerSize + arg.strlen ≤ 10000) :
    (o.delivery mem).Finds (pInit 0 arg type) := by
  rw [headerSize] at hroom
  have harg : o.packet.arg.length = o.packet.msgLen.toNat := by
    rw [ho]
    exact length_arg_pInit 0 (by omega) type
  have hstrlen : o.packet.arg.length = arg.strlen := by
    rw [ho]
    rfl
  rw [← hstrlen] at hlen hroom
  rw [← ho]
  exact Outgoing.finds_take_wire harg hlen mem.behindSent hroom mem.stale

/-- It is decoded inside the buffer. -/
theorem ReadResult.Finds.inside_pInit {r : ReadResult} {arg : CString} {type : UInt32}
    (hr : r.Finds (pInit 0 arg type)) (hroom : headerSize + arg.strlen ≤ 10000) :
    DecodeSite.masterClient.Inside r := by
  refine hr.inside ?_
  change headerSize + (UInt32.ofNat arg.strlen).toNat ≤ 10000
  rw [headerSize] at hroom ⊢
  rw [toNat_counter (by omega)]
  exact hroom

/-- It is no REGISTER. -/
theorem ReadResult.Finds.not_registers {r : ReadResult} {p : Packet} (hr : r.Finds p)
    (htype : p.msgType ≠ MsgType.register.code) (tokens : Tokens) : ¬ Registers tokens r :=
  fun h => htype (by rw [← hr.decode]; exact h.2.1)

theorem Interface.finds_ls : (Interface.ls.delivery mem).Finds (pInit 0 (lit "") MsgType.ls.code) :=
  Outgoing.finds_delivery mem rfl (show 22 ≤ 43 by decide) (show 22 ≤ 10000 by decide)

theorem Interface.finds_fileWrite {f text : CString} (isappend : Bool)
    (hsize : headerSize + (f.strlen + 1 + text.strlen) ≤ 10000) :
    ((Interface.fileWrite f text isappend).delivery mem).Finds (pInit 0 (genWriteArg f text)
      (if isappend then MsgType.append.code else MsgType.write.code)) := by
  rw [← strlen_genWriteArg] at hsize
  refine Outgoing.finds_delivery mem rfl ?_ hsize
  change 22 + _ ≤ sizeofPacket + (genWriteArg f text).strlen + 1
  rw [sizeofPacket]
  omega

theorem Interface.finds_fileDelete {f : CString} (hsize : headerSize + f.strlen ≤ 10000) :
    ((Interface.fileDelete f).delivery mem).Finds (pInit 0 f MsgType.delete.code) := by
  refine Outgoing.finds_delivery mem rfl ?_ hsize
  change 22 + _ ≤ sizeofPacket + f.strlen + 1
  rw [sizeofPacket]
  omega

/-- An address of at most 12 characters arrives with its port. -/
theorem finds_register (tokens : Tokens) {q : DottedQuad} (hq : q.text.strlen ≤ 12) :
    ((⟨registerPacket tokens q.text, registerLen⟩ : Outgoing).delivery mem).Finds
      (registerPacket tokens q.text) := by
  have hlen : (registerPacket tokens q.text).arg.length = q.text.strlen + 6 :=
    length_registerMsg q.text
  refine Outgoing.finds_take_wire (length_arg_registerPacket tokens q.text (by omega)) ?_
    mem.behindSent ?_ mem.stale
  · change 22 + (registerPacket tokens q.text).arg.length ≤ 40
    omega
  · change 22 + (registerPacket tokens q.text).arg.length ≤ 10000
    omega

/-- The call that a packet leads to. -/
theorem masterCall_of_finds {heap : Heap} {t : ServerTable} {r : ReadResult} {p : Packet}
    (hr : r.Finds p) (htype : p.msgType ≠ MsgType.register.code) (hne : t.serverTable ≠ []) :
    masterCall heap t r = adminCall heap p.msgType (p.arg ++ heap.behindArg) := by
  have hcount : t.serverCount ≠ 0 := mt ServerTable.serverCount_eq_zero_iff.mp hne
  rw [masterCall, argMemory, hr.decode, if_pos ⟨hr.pos, htype, hcount⟩]

/-- A WRITE or an APPEND of a client leads to a call with the two parts of its argument. -/
theorem masterCall_delivery_fileWrite {t : ServerTable} (hne : t.serverTable ≠ [])
    (isappend : Bool) {f text : CString}
    (hsize : headerSize + (f.strlen + 1 + text.strlen) ≤ 10000) :
    masterCall mem.heap t ((Interface.fileWrite f text isappend).delivery mem) =
      (longParts mem.heap ((genWriteArg f text).bytes ++ mem.heap.behindArg)).map fun parts =>
        if isappend then .append parts.1 parts.2 else .write parts.1 parts.2 := by
  have hr := Interface.finds_fileWrite mem isappend hsize
  have htype : (if isappend then MsgType.append.code else MsgType.write.code) ≠
      MsgType.register.code := by
    cases isappend <;> decide
  rw [masterCall_of_finds hr htype hne]
  cases isappend <;> rfl

/-- The two parts of the argument of a WRITE or an APPEND. -/
theorem longParts_genWriteArg {heap : Heap} {f text : CString} (hf : IsFileName f)
    (hsize : f.strlen + 1 + text.strlen < 2 ^ 32) (harg : heap.behindArg.head? = some 0)
    (hfile : heap.behindFile.head? = some 0) :
    longParts heap ((genWriteArg f text).bytes ++ heap.behindArg) = some (f, text) := by
  obtain ⟨behindArg, harg⟩ := exists_cons_of_head? harg
  obtain ⟨behindFile, hfile⟩ := exists_cons_of_head? hfile
  have hsep : semicolon ∉ f.bytes := fun hmem => absurd (hf.uncut _ hmem).2 (by decide)
  have hmemory : (genWriteArg f text).bytes ++ heap.behindArg =
      f.bytes ++ semicolon :: (text.bytes ++ 0 :: behindArg) := by
    rw [bytes_genWriteArg, harg, List.append_assoc, List.cons_append]
  have hstrlen : (CString.ofMemory ((genWriteArg f text).bytes ++ heap.behindArg)).strlen =
      f.strlen + 1 + text.strlen := by
    rw [harg, CString.ofMemory_append_zero, strlen_genWriteArg]
  have hdrop : (f.bytes ++ semicolon :: (text.bytes ++ 0 :: behindArg)).drop (f.strlen + 1) =
      text.bytes ++ 0 :: behindArg := by
    rw [CString.strlen, ← List.drop_drop, List.drop_left, List.drop_one, List.tail_cons]
  have hchar : charAt ((genWriteArg f text).bytes ++ heap.behindArg) semicolon =
      some (f.strlen : ℤ) := by
    rw [hmemory]
    exact charAt_join hsep f.nulFree behindArg text.nulFree hsize
  rw [longParts, hchar]
  simp only [Int.toNat_natCast]
  rw [if_neg (by omega), if_neg (by rw [hstrlen]; omega), hmemory, hdrop, CString.strlen,
    strncpy_append f.nulFree, hfile, CString.ofMemory_append_zero, CString.ofMemory_append_zero]

end Delivery

/-! ### What `handle_client` does -/

section Client

variable {tokens : Tokens} {heap : Heap} {workerId : UInt32} {r : ReadResult}
  {env : List Request → Request → Reply} {h : List Request} {t : ServerTable}

/-- An LS is answered with what `worker_ls` has joined. -/
theorem eval_handleClient_of_ls (hcall : masterCall heap t r = some .ls) :
    (handleClient tokens heap workerId r).eval env h t =
      (h ++ t.serverTable.map (lsRequest tokens),
        some (⟨some ((joinLs (CString.ofMemory heap.lsBlock)
          (lsAnswers tokens env h t.serverTable)).bytes ++ [0]), workerId⟩, t)) := by
  have hperform : (AdminCall.ls.perform tokens heap).eval env h t =
      (h ++ t.serverTable.map (lsRequest tokens),
        some (some (joinLs (CString.ofMemory heap.lsBlock)
          (lsAnswers tokens env h t.serverTable)), t)) :=
    Prog.eval_bind_of_eq (eval_workerLs tokens env h heap.lsBlock) _
  rw [eval_handleClient_of_some tokens workerId env h hcall, Prog.eval_bind_of_eq hperform]
  rfl

/-- An APPEND is answered with `-1`. -/
theorem eval_handleClient_of_append {file data : CString}
    (hcall : masterCall heap t r = some (.append file data)) :
    (handleClient tokens heap workerId r).eval env h t =
      (h, some (⟨some (ascii "-1" ++ [0]), workerId⟩, t)) := by
  have hminus : (long2str (-1)).bytes = ascii "-1" := by rw [bytes_long2str]; decide
  rw [eval_handleClient_of_some tokens workerId env h hcall, ← hminus]
  rfl

section Register

variable {q : DottedQuad} (hr : r.Finds (registerPacket tokens q.text)) (hq : q.text.strlen ≤ 12)
  (harg : heap.behindArg.head? = some 0)

include hr hq harg

theorem exists_argMemory_registerPacket :
    ∃ behind, argMemory r heap = (registerMsg q.text).bytes.take 18 ++ 0 :: behind := by
  obtain ⟨behindArg, harg⟩ := exists_cons_of_head? harg
  have hlen := length_registerMsg q.text
  refine ⟨behindArg, ?_⟩
  rw [argMemory, hr.decode, harg, List.take_of_length_le (by omega)]
  rfl

variable (hip : heap.behindIp.head? = some 0)

include hip

/-- The address has room. -/
theorem addressFits_registerPacket (a : Allocator) : AddressFits a heap (argMemory r heap) := by
  obtain ⟨behind, hmemory⟩ := exists_argMemory_registerPacket hr hq harg
  obtain ⟨behindIp, hip⟩ := exists_cons_of_head? hip
  have hstring : CString.ofMemory (argMemory r heap) = registerMsg q.text := by
    have hlen := length_registerMsg q.text
    rw [hmemory, List.take_of_length_le (by omega), CString.ofMemory_append_zero]
  have haddress : CString.ofMemory (q.bytes ++ heap.behindIp) = q.text :=
    ofMemory_bytes_append_eq_text_iff.mpr (by rw [hip]; rfl)
  intro ip hparse
  rw [(parse_registration q hmemory).1] at hparse
  obtain rfl := Option.some.inj hparse
  rw [hstring, haddress]
  constructor
  · refine le_trans ?_ (a.le_usable _)
    change q.text.strlen ≤ (registerMsg q.text).bytes.length
    rw [length_registerMsg]
    exact Nat.le_add_right _ _
  · have hroom := a.le_usable 16
    omega

/-- The packet of `register_worker` adds the worker. -/
theorem eval_handleClient_of_registerPacket {t' : ServerTable}
    (hadd : t.add ⟨workerId.toUInt64, 0, ⟨q.text, getPort⟩⟩ = some t') :
    (handleClient tokens heap workerId r).eval env h t =
      (h, some (⟨none, workerId + 1⟩, t')) := by
  obtain ⟨behind, hmemory⟩ := exists_argMemory_registerPacket hr hq harg
  obtain ⟨behindIp, hip⟩ := exists_cons_of_head? hip
  have htype : (pDecode r.buffer).val.msgType = MsgType.register.code := by rw [hr.decode]; rfl
  have htoken : (pDecode r.buffer).val.token = tokens.workerTkn := by rw [hr.decode]; rfl
  obtain ⟨hparseIp, hparsePort⟩ := parse_registration q hmemory
  have haddress : CString.ofMemory (q.bytes ++ heap.behindIp) = q.text :=
    ofMemory_bytes_append_eq_text_iff.mpr (by rw [hip]; rfl)
  rw [portRead_of_le hq] at hparsePort
  rw [← haddress] at hadd
  exact eval_of_entry hr.pos htype htoken hparseIp hparsePort hadd

end Register

end Client

/-! ### Listings of the workers -/

/-- A name of a file does not occur in `.` and `..`. -/
theorem not_infix_replicate {f : CString} (hf : IsFileName f) {n : ℕ} (hn : n ≤ 2) :
    ¬ f.bytes <:+: List.replicate n 46 := by
  intro hinfix
  obtain ⟨k, hk, hbytes⟩ := List.sublist_replicate_iff.mp hinfix.sublist
  obtain rfl | rfl | rfl : k = 0 ∨ k = 1 ∨ k = 2 := by omega
  · exact hf.ne_nil hbytes
  · exact hf.ne_dot hbytes
  · exact hf.ne_dotdot hbytes

/-- A name occurs in the text of a listing when it occurs in a name of a file. -/
theorem IsListingText.strstr_iff {m : NamedFiles} {ls f : CString} (hls : IsListingText m ls)
    (hf : IsFileName f) : strstr ls f = true ↔ m.Shows f := by
  obtain ⟨l, hl, hbytes⟩ := hls
  have hnewline : 10 ∉ f.bytes := fun hmem => absurd (hf.uncut 10 hmem).2 (by decide)
  have hne : l.map CString.bytes ≠ [] := by
    have hdot : lit "." ∈ l := (hl.mem_iff _).mpr (.inl rfl)
    simpa using List.ne_nil_of_mem hdot
  rw [strstr, decide_eq_true_iff, hbytes, infix_intercalate_iff hnewline hne]
  constructor
  · rintro ⟨x, hx, hinfix⟩
    obtain ⟨g, hg, rfl⟩ := List.mem_map.mp hx
    rcases (hl.mem_iff g).mp hg with rfl | rfl | hg
    · exact absurd hinfix (not_infix_replicate hf (show 1 ≤ 2 by decide))
    · exact absurd hinfix (not_infix_replicate hf le_rfl)
    · exact ⟨g, hg, hinfix⟩
  · rintro ⟨g, hg, hinfix⟩
    exact ⟨g.bytes, List.mem_map_of_mem ((hl.mem_iff g).mpr (.inr (.inr hg))), hinfix⟩

namespace Drive.Represents

variable {a : Allocator} {sites : Location → Site} {d : Drive} {s : Store}
  (h : d.Represents sites s) (tokens : Tokens) {mem : StepMemory} (hmem : mem.Terminated)

include h hmem

section Listings

variable (hfits : s.ListingsFit a)

include hfits

/-- An LS to a worker. -/
theorem workersPeer_ls {w : FileServer} (hw : w ∈ s.workers) (n : ℕ) :
    (∃ ls, IsListingText (s.files w.location) ls ∧
      lsAnswer (workersPeer a tokens sites mem.hops n (lsRequest tokens w) d.files).1 = some ls) ∧
    Decodes (lsRequest tokens w)
      (workersPeer a tokens sites mem.hops n (lsRequest tokens w) d.files).1 ∧
    (workersPeer a tokens sites mem.hops n (lsRequest tokens w) d.files).2 = d.files := by
  obtain ⟨hanswer, hdecodes, hfiles⟩ := (h.files w.location).exchange_ls tokens (hmem.hops n) w
    (hfits w hw)
  refine ⟨hanswer, hdecodes, ?_⟩
  change Function.update d.files w.location _ = d.files
  rw [Function.update_eq_self_iff]
  exact hfiles

/-- Listings leave the files. -/
theorem after_ls {ws : List FileServer} (hws : ws ⊆ s.workers) :
    (workersPeer a tokens sites mem.hops).after d.files (ws.map (lsRequest tokens)) = d.files := by
  refine Peer.after_of_forall _ _ fun n q hq => ?_
  obtain ⟨w, hw, rfl⟩ := List.mem_map.mp hq
  exact (h.workersPeer_ls tokens hmem hfits (hws hw) n).2.2

/-- The answer of a worker behind other listings. -/
theorem exists_lsAnswer {ws : List FileServer} (hws : ws ⊆ s.workers) {w : FileServer}
    (hw : w ∈ s.workers) : ∃ ls, IsListingText (s.files w.location) ls ∧
      lsAnswer ((workersPeer a tokens sites mem.hops).env d.files (ws.map (lsRequest tokens))
        (lsRequest tokens w)) = some ls := by
  rw [Peer.env, h.after_ls tokens hmem hfits hws]
  exact (h.workersPeer_ls tokens hmem hfits hw _).1

/-- The answers to listings behind other listings have room. -/
theorem fits_of_map_ls {ws : List FileServer} (hws : ws ⊆ s.workers) {io : List Request}
    {q : Request} {rest : List Request} (hio : ws.map (lsRequest tokens) = io ++ q :: rest) :
    Fits a q ((workersPeer a tokens sites mem.hops).env d.files io q) := by
  obtain ⟨pre, post, rfl, rfl, hpost⟩ := List.map_eq_append_iff.mp hio
  obtain ⟨w, post, rfl, rfl, rfl⟩ := List.map_eq_cons_iff.mp hpost
  obtain ⟨hpre, hpost⟩ := List.append_subset.mp hws
  rw [Peer.env, h.after_ls tokens hmem hfits hpre, fits_lsRequest_iff]
  exact (h.workersPeer_ls tokens hmem hfits (hpost List.mem_cons_self) _).2.1

/-- The answers of several workers, joined. -/
theorem exists_joinLs {pre ws : List FileServer} (hpre : pre ⊆ s.workers) (hws : ws ⊆ s.workers)
    (result : CString) : ∃ ls,
      List.Forall₂ (fun w l => IsListing (s.files w.location) l) ws ls ∧
      (joinLs result (lsAnswers tokens ((workersPeer a tokens sites mem.hops).env d.files)
        (pre.map (lsRequest tokens)) ws)).bytes = result.bytes ++ listingText ls := by
  induction ws generalizing pre result with
  | nil => exact ⟨[], .nil, (List.append_nil _).symm⟩
  | cons w ws ih =>
    have hw : w ∈ s.workers := hws List.mem_cons_self
    obtain ⟨text, ⟨l, hl, htext⟩, hanswer⟩ := h.exists_lsAnswer tokens hmem hfits hpre hw
    have hnext : pre.map (lsRequest tokens) ++ [lsRequest tokens w] =
        (pre ++ [w]).map (lsRequest tokens) := by
      rw [List.map_append, List.map_singleton]
    have hsub : pre ++ [w] ⊆ s.workers :=
      List.append_subset.mpr ⟨hpre, List.cons_subset.mpr ⟨hw, List.nil_subset _⟩⟩
    obtain ⟨ls, hls, hbytes⟩ := ih hsub
      (fun v hv => hws (List.mem_cons_of_mem w hv)) ((result.append (lit "\n")).append text)
    refine ⟨l :: ls, .cons hl hls, ?_⟩
    rw [lsAnswers, hanswer, hnext, joinLs, List.foldl_cons]
    refine hbytes.trans ?_
    rw [CString.bytes_append, CString.bytes_append, htext, listingText, listingText,
      List.flatMap_cons, List.append_assoc, List.append_assoc]
    rfl

/-- What a search sees of a worker. -/
theorem exists_listing {i : ℕ} {w : FileServer} (hi : s.workers[i]? = some w) : ∃ ls,
    IsListingText (s.files w.location) ls ∧
    listing tokens ((workersPeer a tokens sites mem.hops).env d.files) [] d.table i = some ls := by
  obtain ⟨ls, htext, hanswer⟩ := h.exists_lsAnswer tokens hmem hfits
    (List.take_subset i s.workers) (List.mem_of_getElem? hi)
  refine ⟨ls, htext, ?_⟩
  rw [listing, h.table, hi, searchHistory, h.table]
  exact hanswer

/-- A search stops at a worker that has a name in which the given one occurs. -/
theorem stopsSearch_listing_iff {i : ℕ} {w : FileServer} (hi : s.workers[i]? = some w)
    {f : CString} (hf : IsFileName f) :
    stopsSearch f (listing tokens ((workersPeer a tokens sites mem.hops).env d.files) [] d.table
      i) = true ↔ (s.files w.location).Shows f := by
  obtain ⟨ls, htext, hlisting⟩ := h.exists_listing tokens hmem hfits hi
  rw [hlisting]
  exact htext.strstr_iff hf

theorem searchStop_of_holder_eq_none {f : CString} (hf : IsFileName f) (hf' : s.holder f = none) :
    searchStop tokens ((workersPeer a tokens sites mem.hops).env d.files) [] d.table f = none := by
  refine List.find?_eq_none.mpr fun i hi => ?_
  have hlt : i < s.workers.length := h.table ▸ List.mem_range.mp hi
  rw [h.stopsSearch_listing_iff tokens hmem hfits (List.getElem?_eq_getElem hlt) hf]
  simpa using List.find?_eq_none.mp hf' _ (List.getElem_mem hlt)

theorem exists_searchStop_of_holder {f : CString} (hf : IsFileName f) {w : FileServer}
    (hw : s.holder f = some w) : ∃ i, s.workers[i]? = some w ∧
      searchStop tokens ((workersPeer a tokens sites mem.hops).env d.files) [] d.table f =
        some i := by
  obtain ⟨hshows, i, hi, rfl, hfirst⟩ := List.find?_eq_some_iff_getElem.mp hw
  have hget := List.getElem?_eq_getElem hi
  refine ⟨i, hget, List.find?_range_eq_some.mpr ⟨?_, ?_, fun j hj => ?_⟩⟩
  · rw [h.stopsSearch_listing_iff tokens hmem hfits hget hf]
    simpa using hshows
  · rw [h.table]
    exact List.mem_range.mpr hi
  · have hj' := List.getElem?_eq_getElem (hj.trans hi)
    rw [Bool.not_eq_true', ← Bool.not_eq_true, h.stopsSearch_listing_iff tokens hmem hfits hj' hf]
    simpa using hfirst j hj

end Listings

/-! ### Steps -/

omit hmem in
/-- The files at one address change. -/
theorem put {loc : Location} {f : CString} {text : Option (List UInt8)} {fs : FileSystem}
    (hfs : (sites loc).Keeps fs (Function.update (s.files loc) f text)) :
    (⟨d.table, d.workerId, Function.update d.files loc fs⟩ : Drive).Represents sites
      (s.put loc f text) := by
  refine ⟨h.table, h.workerId, fun loc' => ?_⟩
  simp only [Store.put]
  by_cases hloc : loc' = loc
  · subst hloc
    rw [Function.update_self, Function.update_self]
    exact hfs
  · rw [Function.update_of_ne hloc, Function.update_of_ne hloc]
    exact h.files loc'

omit hmem in
/-- Without a registered worker. -/
theorem serve_of_nil (hnil : s.workers = []) {o : Outgoing} {p : Packet}
    (ho : (o.delivery mem).Finds p) (hinside : DecodeSite.masterClient.Inside (o.delivery mem))
    (htype : p.msgType ≠ MsgType.register.code) :
    d.serve a tokens sites mem o = some (some (ascii "Service unavailable." ++ [0]), d) := by
  have hcount : d.table.serverCount = 0 :=
    ServerTable.serverCount_eq_zero_iff.mpr (h.table.trans hnil)
  have htype' : (pDecode (o.delivery mem).buffer).val.msgType ≠ MsgType.register.code := by
    rwa [ho.decode]
  exact serve_of_eval hinside (fun hregisters => absurd hregisters (ho.not_registers htype tokens))
    (fun h q rest heq => absurd heq (by simp))
    (eval_handleClient_of_unavailable tokens mem.heap d.workerId _ [] ho.pos hcount htype')

/-- **LS.** -/
theorem exists_serve_ls (hne : s.workers ≠ []) (hfits : s.ListingsFit a) : ∃ ls,
    List.Forall₂ (fun w l => IsListing (s.files w.location) l) s.workers ls ∧
    d.serve a tokens sites mem Interface.ls = some (some (listingText ls ++ [0]), d) := by
  obtain ⟨behind, hblock⟩ := exists_cons_of_head? hmem.lsBlock
  have hr := Interface.finds_ls mem
  have hcall : masterCall mem.heap d.table (Interface.ls.delivery mem) = some .ls := by
    rw [masterCall_of_finds hr (by decide) (h.table ▸ hne)]
    rfl
  obtain ⟨ls, hls, hbytes⟩ := h.exists_joinLs tokens hmem hfits
    (List.nil_subset s.workers) (List.Subset.refl s.workers) (CString.ofMemory mem.heap.lsBlock)
  have hinside := hr.inside_pInit (show 22 ≤ 10000 by decide)
  refine ⟨ls, hls, ?_⟩
  rw [serve_of_eval hinside (fun hreg => absurd hreg (hr.not_registers (by decide) tokens)) ?_
    (eval_handleClient_of_ls hcall), h.table, List.nil_append,
    h.after_ls tokens hmem hfits (List.Subset.refl s.workers)]
  · rw [List.map_nil, hblock] at hbytes
    rw [hblock, hbytes]
    rfl
  · rw [h.table, List.nil_append]
    exact fun io q rest => h.fits_of_map_ls tokens hmem hfits (List.Subset.refl s.workers)

/-- The call for a WRITE or an APPEND. -/
theorem masterCall_fileWrite (hne : s.workers ≠ []) (isappend : Bool) {f text : CString}
    (hf : IsFileName f) (hsize : headerSize + (f.strlen + 1 + text.strlen) ≤ 10000) :
    masterCall mem.heap d.table ((Interface.fileWrite f text isappend).delivery mem) =
      some (if isappend then .append f text else .write f text) := by
  have hlen : f.strlen + 1 + text.strlen < 2 ^ 32 := by
    rw [headerSize] at hsize
    omega
  rw [masterCall_delivery_fileWrite mem (h.table ▸ hne) isappend hsize,
    longParts_genWriteArg hf hlen hmem.behindArg hmem.behindFile, Option.map_some]

/-- **WRITE.** -/
theorem exists_serve_write {w : FileServer} {ws : List FileServer} (hw : s.workers = w :: ws)
    {f text : CString} (hf : IsFileName f)
    (hsize : headerSize + (f.strlen + 1 + text.strlen) ≤ 10000) : ∃ d',
    d.serve a tokens sites mem (Interface.fileWrite f text false) =
      some (some (decimal text.strlen ++ [0]), d') ∧
    d'.Represents sites (s.put w.location f (some text.bytes)) := by
  have hget : d.table.serverTable[0]? = some w := by
    rw [h.table, hw]
    rfl
  have hcall := h.masterCall_fileWrite hmem (by rw [hw]; simp) false hf hsize
  have hr := Interface.finds_fileWrite mem false hsize
  have htype : MsgType.write.code ≠ MsgType.register.code := by decide
  obtain ⟨hwritten, hanswer, hkeeps⟩ := (h.files w.location).exchange_write tokens (hmem.hops 0) w
    hf hsize
  refine ⟨_, ?_, h.put hkeeps⟩
  rw [serve_of_eval (hr.inside_pInit (by rwa [strlen_genWriteArg]))
    (fun hreg => absurd hreg (hr.not_registers htype tokens)) ?_
    (eval_handleClient_of_write hcall hget)]
  · have hcount : writtenBytes ((workersPeer a tokens sites mem.hops).env d.files []
        (writeRequest tokens f text w)) = text.strlen := hwritten
    rw [hcount, bytes_long2str]
    rfl
  · intro io q rest hio
    obtain ⟨rfl, hq⟩ | ⟨-, hq⟩ := List.singleton_eq_append_iff.mp hio
    · obtain ⟨rfl, -⟩ := List.cons.inj hq
      exact hanswer
    · exact absurd hq (by simp)

/-- **APPEND.** -/
theorem serve_append (hne : s.workers ≠ []) {f text : CString} (hf : IsFileName f)
    (hsize : headerSize + (f.strlen + 1 + text.strlen) ≤ 10000) :
    d.serve a tokens sites mem (Interface.fileWrite f text true) =
      some (some (ascii "-1" ++ [0]), d) := by
  have hcall := h.masterCall_fileWrite hmem hne true hf hsize
  have hr := Interface.finds_fileWrite mem true hsize
  have htype : MsgType.append.code ≠ MsgType.register.code := by decide
  exact serve_of_eval (hr.inside_pInit (by rwa [strlen_genWriteArg]))
    (fun hreg => absurd hreg (hr.not_registers htype tokens))
    (fun io q rest hio => absurd hio (by simp)) (eval_handleClient_of_append hcall)

/-- **DELETE.** -/
theorem exists_serve_delete (hne : s.workers ≠ []) (hfits : s.ListingsFit a) {f : CString}
    (hf : IsFileName f) (hsize : headerSize + f.strlen ≤ 10000) : ∃ d',
    d.serve a tokens sites mem (Interface.fileDelete f) = some (some (ascii "1" ++ [0]), d') ∧
    d'.Represents sites (s.after (.delete f)) := by
  have hr := Interface.finds_fileDelete mem hsize
  have htype : (pDecode ((Interface.fileDelete f).delivery mem).buffer).val.msgType =
      MsgType.delete.code := by
    rw [hr.decode]
    rfl
  have hfile : CString.ofMemory (argMemory ((Interface.fileDelete f).delivery mem) mem.heap) =
      f := by
    obtain ⟨behind, harg⟩ := exists_cons_of_head? hmem.behindArg
    rw [argMemory, hr.decode, harg]
    exact CString.ofMemory_append_zero f behind
  have heval := eval_handleClient_delete tokens mem.heap d.workerId
    ((workersPeer a tokens sites mem.hops).env d.files) [] hr.pos (h.table ▸ hne) htype
  have hsearched : ∀ i, (workersPeer a tokens sites mem.hops).after d.files
      (searchHistory tokens [] d.table i) = d.files := by
    intro i
    rw [searchHistory, List.nil_append, h.table]
    exact h.after_ls tokens hmem hfits (List.take_subset i s.workers)
  have hreply : deleteReply = ascii "1" ++ [0] := by decide
  have hinside := hr.inside_pInit hsize
  have hregisters : Registers tokens ((Interface.fileDelete f).delivery mem) →
      AddressFits a mem.heap (argMemory ((Interface.fileDelete f).delivery mem) mem.heap) :=
    fun hreg => absurd hreg (hr.not_registers
      (show MsgType.delete.code ≠ MsgType.register.code by decide) tokens)
  rw [hfile, hreply] at heval
  cases hholder : s.holder f with
  | none =>
    have hstop := h.searchStop_of_holder_eq_none tokens hmem hfits hf hholder
    simp only [hstop] at heval
    refine ⟨d, ?_, ?_⟩
    · rw [serve_of_eval hinside hregisters ?_ heval, hsearched]
      exact fun io q rest =>
        h.fits_of_map_ls tokens hmem hfits (h.table ▸ List.take_subset _ _)
    · simp only [Store.after, hholder, Option.elim_none]
      exact h
  | some w =>
    obtain ⟨i, hi, hstop⟩ := h.exists_searchStop_of_holder tokens hmem hfits hf hholder
    obtain ⟨ls, -, hlisting⟩ := h.exists_listing tokens hmem hfits hi
    simp only [hstop, hlisting, h.table, hi, Option.map_some, Option.toList_some] at heval
    have hkeeps := (h.files w.location).exchange_delete (a := a) tokens
      (hmem.hops (searchHistory tokens [] d.table (i + 1)).length) w hf hsize
    simp only [Store.after, hholder, Option.elim_some]
    refine ⟨_, ?_, h.put hkeeps⟩
    rw [serve_of_eval hinside hregisters ?_ heval, Peer.after_concat, hsearched]
    · rfl
    · intro io q rest hio
      -- the last request is the DELETE, and the others are for listings
      obtain rfl | ⟨rest, last, rfl⟩ := List.eq_nil_or_concat rest
      · obtain ⟨-, hq⟩ := List.append_inj' hio rfl
        obtain ⟨rfl, -⟩ := List.cons.inj hq
        exact fits_deleteRequest a tokens w _
      · rw [List.concat_eq_append, ← List.cons_append, ← List.append_assoc] at hio
        exact h.fits_of_map_ls tokens hmem hfits (h.table ▸ List.take_subset _ _)
          (List.append_inj' hio rfl).1

/-- **REGISTER.** -/
theorem exists_serve_register {q : DottedQuad} (hq : q.text.strlen ≤ 12)
    (hroom : s.workers.length < 65535) : ∃ d',
    d.serve a tokens sites mem ⟨registerPacket tokens q.text, registerLen⟩ = some (none, d') ∧
    d'.Represents sites (s.after (.register q)) := by
  have hcount : d.table.serverCount.toNat < 65535 := by
    rw [← d.table.count_eq, h.table]
    exact hroom
  obtain ⟨t, hadd⟩ := ServerTable.add_isSome
    ⟨d.workerId.toUInt64, 0, ⟨q.text, getPort⟩⟩ hcount
  have hr := finds_register mem tokens hq
  have hinside : DecodeSite.masterClient.Inside
      ((⟨registerPacket tokens q.text, registerLen⟩ : Outgoing).delivery mem) := by
    refine hr.inside ?_
    rw [← length_arg_registerPacket tokens q.text (by omega)]
    change 22 + (registerMsg q.text).bytes.length ≤ 10000
    rw [length_registerMsg]
    omega
  refine ⟨⟨t, d.workerId + 1, d.files⟩, serve_of_eval hinside
    (fun _ => addressFits_registerPacket hr hq hmem.behindArg hmem.behindIp a)
    (fun io q rest hio => absurd hio (by simp))
    (eval_handleClient_of_registerPacket hr hq hmem.behindArg hmem.behindIp hadd), ?_, ?_, h.files⟩
  · rw [ServerTable.serverTable_add hadd, h.table, h.workerId]
    rfl
  · rw [h.workerId]
    rfl

/-! ### Every step -/

omit hmem in
/-- Without a registered worker, every request of a client is refused. -/
theorem step_of_nil (hnil : s.workers = []) {op : StoreOp} (hreq : op.isRequest = true)
    (hadmits : s.Admits a op) : d.step a tokens sites (op, mem) =
      some (some (ascii "Service unavailable." ++ [0]), d) ∧ s.after op = s := by
  have hholder : ∀ f, s.holder f = none := fun f => by rw [Store.holder, hnil]; rfl
  have hhead : s.workers.head? = none := by rw [hnil]; rfl
  cases op with
  | ls =>
    have hr := Interface.finds_ls mem
    exact ⟨h.serve_of_nil tokens hnil hr (hr.inside_pInit (show 22 ≤ 10000 by decide))
      (by decide), rfl⟩
  | write f text =>
    have hr := Interface.finds_fileWrite mem false hadmits.2
    refine ⟨h.serve_of_nil tokens hnil hr
      (hr.inside_pInit (by rw [strlen_genWriteArg]; exact hadmits.2)) ?_, ?_⟩
    · exact show MsgType.write.code ≠ MsgType.register.code by decide
    · simp only [Store.after, hhead, Option.elim_none]
  | append f text =>
    have hr := Interface.finds_fileWrite mem true hadmits.2
    refine ⟨h.serve_of_nil tokens hnil hr
      (hr.inside_pInit (by rw [strlen_genWriteArg]; exact hadmits.2)) ?_, rfl⟩
    exact show MsgType.append.code ≠ MsgType.register.code by decide
  | delete f =>
    have hr := Interface.finds_fileDelete mem hadmits.1.2
    refine ⟨h.serve_of_nil tokens hnil hr (hr.inside_pInit hadmits.1.2) ?_, ?_⟩
    · exact show MsgType.delete.code ≠ MsgType.register.code by decide
    · simp only [Store.after, hholder, Option.elim_none]
  | register q => exact absurd hreq (by simp [StoreOp.isRequest])
  | remove id => exact absurd hreq (by simp [StoreOp.isRequest])

/-- **One step.** -/
theorem exists_step {op : StoreOp} (hadmits : s.Admits a op) : ∃ r d',
    d.step a tokens sites (op, mem) = some (r, d') ∧ s.Answers op r ∧
      d'.Represents sites (s.after op) := by
  by_cases hrefused : s.workers = [] ∧ op.isRequest = true
  · obtain ⟨hstep, hafter⟩ := h.step_of_nil tokens hrefused.1 hrefused.2
      hadmits
    exact ⟨_, d, hstep, by rw [Store.Answers, if_pos hrefused], hafter.symm ▸ h⟩
  · simp only [Store.Answers, if_neg hrefused]
    cases op with
    | ls =>
      have hne : s.workers ≠ [] := fun hnil => hrefused ⟨hnil, rfl⟩
      obtain ⟨ls, hls, hserve⟩ := h.exists_serve_ls tokens hmem hne hadmits
      exact ⟨_, d, hserve, ⟨ls, hls, rfl⟩, h⟩
    | write f text =>
      obtain ⟨w, ws, hw⟩ := List.exists_cons_of_ne_nil fun hnil => hrefused ⟨hnil, rfl⟩
      obtain ⟨d', hserve, hd'⟩ :=
        h.exists_serve_write tokens hmem hw hadmits.1 hadmits.2
      have hhead : s.workers.head? = some w := by rw [hw]; rfl
      refine ⟨_, d', hserve, rfl, ?_⟩
      simp only [Store.after, hhead, Option.elim_some]
      exact hd'
    | append f text =>
      have hne : s.workers ≠ [] := fun hnil => hrefused ⟨hnil, rfl⟩
      exact ⟨_, d, h.serve_append tokens hmem hne hadmits.1 hadmits.2, rfl, h⟩
    | delete f =>
      have hne : s.workers ≠ [] := fun hnil => hrefused ⟨hnil, rfl⟩
      obtain ⟨d', hserve, hd'⟩ :=
        h.exists_serve_delete tokens hmem hne hadmits.2 hadmits.1.1 hadmits.1.2
      exact ⟨_, d', hserve, rfl, hd'⟩
    | register q =>
      obtain ⟨d', hserve, hd'⟩ :=
        h.exists_serve_register (a := a) tokens hmem hadmits.1 hadmits.2
      exact ⟨_, d', hserve, rfl, hd'⟩
    | remove id =>
      refine ⟨none, _, rfl, rfl, ?_, h.workerId, h.files⟩
      rw [ServerTable.serverTable_remove, h.table]
      rfl

end Drive.Represents

end PekarDrive
