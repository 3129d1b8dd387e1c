import PekarDrive.Client.Interface
import PekarDrive.Master.Dispatch
import PekarDrive.System.Authorization

/-!
# From the sender's argument to the receiver's

A sender passes an argument to `p_init` and writes the packet with one `conn_write`; the receiving
`handle_client` does one `conn_read` of at most 10000 bytes and decodes what it has. The stream may
deliver the packet in any number of pieces (`PekarDrive.Segmentation`), and the receiver looks at
the first one only.

The argument bytes of the decoded packet are those of the sender, or no operation is executed,
exactly when the first piece holds the header and the whole argument, or tells the length zero
(`PekarDrive.faithful_iff`). The block of the argument carries no terminator, so the string that an
operation finds there is the sender's for LS only, which does not look at it
(`PekarDrive.readsSent_iff`).

## Main definitions

* `PekarDrive.Message`: the messages of clients and those of the master for workers.
* `PekarDrive.Segmentation`: a stream cut into the results of successive reads.
* `PekarDrive.Operates`: the receiver executes an operation.
* `PekarDrive.Faithful`, `PekarDrive.ReadsSent`, `PekarDrive.Complete`.

## Main results

* `PekarDrive.delivery`.
-/

namespace PekarDrive

open CMemory CText LockedThreads

/-! ### Messages -/

/-- A message: of a client for the master, or of the master for a worker. -/
inductive Message
  /-- `ls`. -/
  | ls
  /-- `file_read`. -/
  | read (fileName : CString)
  /-- `file_write`. -/
  | write (fileName buffer : CString) (append : Bool)
  /-- `file_delete`. -/
  | delete (fileName : CString)
  /-- The packet of `worker_write`. -/
  | workerWrite (file data : CString) (server : FileServer)
  /-- The packet of `worker_delete`. -/
  | workerDelete (file : CString) (server : FileServer)

namespace Message

/-- The type of the packet. -/
def type : Message → MsgType
  | ls => .ls
  | read _ => .read
  | write _ _ append => if append then .append else .write
  | delete _ => .delete
  | workerWrite .. => .write
  | workerDelete .. => .delete

/-- The argument passed to `p_init`. -/
def arg : Message → CString
  | ls => lit ""
  | read fileName => fileName
  | write fileName buffer _ => genWriteArg fileName buffer
  | delete fileName => fileName
  | workerWrite file data _ => (file.append (lit ";")).append data
  | workerDelete file _ => file

/-- The message is for a worker. -/
def toWorker : Message → Bool
  | workerWrite .. => true
  | workerDelete .. => true
  | _ => false

/-- Where the message is decoded. -/
def site (m : Message) : DecodeSite := if m.toWorker then .workerClient else .masterClient

/-- The packet and the length passed to `conn_write`. -/
def outgoing (tokens : Tokens) : Message → Outgoing
  | ls => Interface.ls
  | read fileName => Interface.fileRead fileName
  | write fileName buffer append => Interface.fileWrite fileName buffer append
  | delete fileName => Interface.fileDelete fileName
  | workerWrite file data server =>
    ⟨(writeRequest tokens file data server).packet, (writeRequest tokens file data server).sendLen⟩
  | workerDelete file server =>
    ⟨(deleteRequest tokens file server).packet, (deleteRequest tokens file server).sendLen⟩

/-- The packet. -/
def packet (tokens : Tokens) (m : Message) : Packet := (m.outgoing tokens).packet

/-- The bytes on the wire, when `behind` lies behind the block of `p_encode`. -/
def wire (tokens : Tokens) (m : Message) (behind : Mem) : List UInt8 :=
  (m.outgoing tokens).wire behind

variable (tokens : Tokens) (m : Message)

theorem isRequest_type : m.type.IsRequest := by
  cases m with
  | write _ _ append => cases append <;> simp [type, MsgType.IsRequest]
  | _ => simp [type, MsgType.IsRequest]

theorem arg_packet : (m.packet tokens).arg = m.arg.bytes := by
  cases m <;> rfl

theorem msgLen_packet : (m.packet tokens).msgLen = UInt32.ofNat m.arg.strlen := by
  cases m <;> rfl

theorem msgType_packet : (m.packet tokens).msgType = m.type.code := by
  cases m with
  | write _ _ append => cases append <;> rfl
  | _ => rfl

theorem token_packet (h : m.toWorker = true) : (m.packet tokens).token = tokens.masterTkn := by
  cases m with
  | workerWrite => rfl
  | workerDelete => rfl
  | _ => exact absurd h (by simp [toWorker])

theorem toNat_msgLen_packet : (m.packet tokens).msgLen.toNat = m.arg.strlen % 2 ^ 32 := by
  rw [msgLen_packet, UInt32.toNat_ofNat']

/-- Every sender passes a length that covers the packet. -/
theorem length_pEncode_le : (pEncode (m.packet tokens)).length ≤ (m.outgoing tokens).len := by
  have hle : (pEncode (m.packet tokens)).length ≤ headerSize + m.arg.strlen := by
    rw [pEncode, List.length_append, length_encodeHeader, arg_packet]
    exact Nat.add_le_add_left (List.length_take_le' _ _) _
  have hlen : headerSize + m.arg.strlen ≤ (m.outgoing tokens).len := by
    cases m <;> simp only [outgoing, arg, Interface.ls, Interface.fileRead, Interface.fileWrite,
      Interface.fileDelete, writeRequest, deleteRequest, sizeofPacket, headerSize] <;>
      first | omega | exact (show (22 : ℕ) ≤ 43 by decide)
  exact le_trans hle hlen

/-- The wire: the header, the argument as far as the length in the header goes, and more. -/
theorem wire_eq (behind : Mem) : ∃ extra, m.wire tokens behind =
    encodeHeader (m.packet tokens) ++
      (m.arg.bytes.take (m.packet tokens).msgLen.toNat ++ extra) := by
  obtain ⟨extra, hwire⟩ := Outgoing.wire_eq (m.length_pEncode_le tokens) behind
  refine ⟨extra, ?_⟩
  rw [wire, hwire, ← arg_packet tokens, ← List.append_assoc]
  rfl

end Message

/-! ### Segmentations -/

/-- A stream of bytes cut into the results of successive reads of at most `size` bytes. -/
structure Segmentation (size : ℕ) (stream : List UInt8) where
  /-- The results. -/
  pieces : List (List UInt8)
  /-- Nothing is lost, added or reordered. -/
  flatten_eq : pieces.flatten = stream
  /-- Before the end of the stream a read delivers at least one byte. -/
  ne_nil : ∀ piece ∈ pieces, piece ≠ []
  /-- A read delivers at most what was asked for. -/
  length_le : ∀ piece ∈ pieces, piece.length ≤ size

namespace Segmentation

variable {size : ℕ} {stream : List UInt8} (seg : Segmentation size stream)

/-- What the first read delivers. -/
def first : List UInt8 := seg.pieces.headD []

theorem first_isPrefix : seg.first <+: stream := by
  have hflat := seg.flatten_eq
  rw [first]
  cases hpieces : seg.pieces with
  | nil => exact List.nil_prefix
  | cons piece pieces =>
    rw [hpieces] at hflat
    exact ⟨pieces.flatten, hflat⟩

theorem length_first_le : seg.first.length ≤ size := by
  have hle := seg.length_le
  rw [first]
  cases hpieces : seg.pieces with
  | nil => exact Nat.zero_le _
  | cons piece pieces => exact hle piece (hpieces ▸ List.mem_cons_self)

theorem first_ne_nil (hstream : stream ≠ []) : seg.first ≠ [] := by
  have hne := seg.ne_nil
  have hflat := seg.flatten_eq
  rw [first]
  cases hpieces : seg.pieces with
  | nil => exact absurd (by rw [← hflat, hpieces]; rfl) hstream
  | cons piece pieces => exact hne piece (hpieces ▸ List.mem_cons_self)

end Segmentation

/-! ### What is asked of a delivery -/

section Delivery

variable (setup : WorkerSetup) (m : Message)

/-- The receiver executes an operation after the read `r`, when `behind` lies behind the argument
block: a worker does a file operation, the master calls a function of `src/worker_admin.c` or
registers a worker. -/
def Operates (r : ReadResult) (behind : List UInt8) : Prop :=
  if m.toWorker then
    ∃ heap uninit fs, heap.behindArg = behind ∧ opsOf (workerRun setup heap uninit r fs).1 ≠ []
  else
    ∃ heap t, heap.behindArg = behind ∧ (masterCall heap t r ≠ none ∨
      ∃ workerId env, ChangesTable setup.tokens heap workerId env t r)

/-- Whatever the rest of the receive buffer and the other memory hold: the argument bytes of the
decoded packet are the bytes passed to `p_init`, or no operation is executed. -/
def Faithful (bs : List UInt8) : Prop :=
  ∀ stale behind, Operates setup m (.delivered bs stale) behind →
    (pDecode (overlay bs stale)).val.arg = m.arg.bytes

/-- For an operation that looks at its argument: the string found at the argument pointer is the
string passed to `p_init`, or no operation is executed. -/
def ReadsSent (bs : List UInt8) : Prop :=
  m.type ≠ .ls → ∀ stale behind, Operates setup m (.delivered bs stale) behind →
    CString.ofMemory ((pDecode (overlay bs stale)).val.arg ++ behind) = m.arg

/-- The first `k` bytes hold the header and the argument, or the argument is empty and they hold
its length. -/
def Complete (k : ℕ) : Prop :=
  headerSize + m.arg.strlen ≤ k ∨ m.arg.strlen = 0 ∧ 8 ≤ k

instance (k : ℕ) : Decidable (Complete m k) := inferInstanceAs (Decidable (_ ∨ _))

end Delivery

/-! ### A buffer that completes a packet -/

/-- A receive buffer that held the header of `p`, and then the byte `x` throughout. -/
def filledStale (p : Packet) (x : UInt8) : Mem := overlay (encodeHeader p) fun _ => x

section Filled

variable {p : Packet} {bs : List UInt8} (hbs : bs.take headerSize <+: encodeHeader p) (x : UInt8)

include hbs

theorem overlay_filledStale : overlay bs (filledStale p x) =
    overlay (encodeHeader p ++ bs.drop headerSize) fun _ => x := by
  have hbs' : bs.take (encodeHeader p).length <+: encodeHeader p := by
    rwa [length_encodeHeader]
  rw [filledStale, overlay_overlay hbs', length_encodeHeader]

/-- Delivered bytes that start the header of `p` are decoded with the fields of `p`. -/
theorem header_filledStale :
    (pDecode (overlay bs (filledStale p x))).val.msgLen = p.msgLen ∧
      (pDecode (overlay bs (filledStale p x))).val.msgType = p.msgType ∧
      (pDecode (overlay bs (filledStale p x))).val.token = p.token := by
  obtain ⟨-, hlen, htype, -, htoken⟩ := pDecode_header p (bs.drop headerSize) fun _ => x
  rw [overlay_filledStale hbs]
  exact ⟨hlen, htype, htoken⟩

/-- The argument: what was delivered behind the header, then the filling. -/
theorem arg_filledStale : (pDecode (overlay bs (filledStale p x))).val.arg =
    (bs.drop headerSize).take p.msgLen.toNat ++
      List.replicate (p.msgLen.toNat - (bs.length - headerSize)) x := by
  have hlen : (encodeHeader p).length = 22 := length_encodeHeader p
  have hwindow := window_overlay_append_left (encodeHeader p) (bs.drop headerSize) (fun _ => x)
    p.msgLen.toNat
  rw [hlen, window_overlay_zero, window_const, List.length_drop] at hwindow
  rw [arg_pDecode, (header_filledStale hbs x).1, overlay_filledStale hbs, hwindow]

end Filled

section Operates

variable (setup : WorkerSetup) (m : Message) {p : Packet} {bs : List UInt8} {x : UInt8}

/-- Bytes that start the header of a message are acted on, when the buffer completes the header
and a separator lies behind the argument. -/
theorem operates_filledStale (hne : bs ≠ []) (hbs : bs.take headerSize <+: encodeHeader p)
    (htype : p.msgType = m.type.code)
    (htoken : m.toWorker = true → p.token = setup.tokens.masterTkn)
    (h0 : 0 ∉ (bs.drop headerSize).take p.msgLen.toNat) (hx : x ≠ 0) :
    Operates setup m (.delivered bs (filledStale p x)) [semicolon] := by
  obtain ⟨hlen, htype', htoken'⟩ := header_filledStale hbs x
  have hr : 0 < (ReadResult.delivered bs (filledStale p x)).bytes :=
    Int.natCast_pos.mpr (List.length_pos_iff.mpr hne)
  have harg : 0 ∉ (pDecode (overlay bs (filledStale p x))).val.arg := by
    rw [arg_filledStale hbs, List.mem_append, not_or]
    exact ⟨h0, fun hmem => hx (List.eq_of_mem_replicate hmem).symm⟩
  rw [Operates]
  by_cases hworker : m.toWorker = true
  · rw [if_pos hworker]
    refine ⟨{ zeroWorkerHeap with behindArg := [semicolon] }, ⟨fileRead, ⟨1, none, 0⟩⟩, emptyFs,
      rfl, opsOf_ne_nil_of_workerAccepts setup _ emptyFs ?_ ?_ (.inl rfl)⟩
    · have hping : m.type.code ≠ MsgType.ping.code := code_ne_of_ne m.isRequest_type.1
      simp only [workerAccepts, Bool.and_eq_true, decide_eq_true_eq]
      exact ⟨⟨hr, htoken'.trans (htoken hworker)⟩, fun heq => hping (htype ▸ htype' ▸ heq)⟩
    · have hle : ((pDecode (overlay bs (filledStale p x))).val.arg ++ [semicolon]).length ≤
          2 ^ 32 := by
        rw [List.length_append, length_arg_pDecode]
        exact (pDecode (overlay bs (filledStale p x))).val.msgLen.toNat_lt
      simp only [ReadResult.delivered, sepIndex]
      rw [List.take_of_length_le hle, List.findIdx?_isSome]
      simp [semicolon]
  · rw [if_neg hworker]
    obtain ⟨call, hcall⟩ := exists_masterCall (t := oneServer) hr (by decide)
      (htype'.trans htype) m.isRequest_type harg
      (show ({ zeroHeap with behindArg := [semicolon] } : Heap).behindArg = [semicolon] from rfl)
    exact ⟨{ zeroHeap with behindArg := [semicolon] }, oneServer, rfl, .inl (by simp [hcall])⟩

end Operates

/-! ### Pieces of a message -/

theorem announced_append {bs : List UInt8} (post : List UInt8) (h : 8 ≤ bs.length) :
    announced (bs ++ post) = announced bs := by
  rw [announced, announced, List.drop_append_of_le_length (by omega),
    List.take_append_of_le_length (by simp; omega)]

theorem announced_encodeHeader (p : Packet) (post : List UInt8) :
    announced (encodeHeader p ++ post) = p.msgLen.toNat := by
  have h8 : 8 ≤ (encodeHeader p ++ post).length := by
    rw [List.length_append, length_encodeHeader, headerSize]
    omega
  rw [← msgLen_pDecode_overlay (fun _ => 0) h8, (pDecode_header p post _).2.1]

section Pieces

variable {setup : WorkerSetup} {m : Message} {behind : Mem} {bs : List UInt8}
  (hbs : bs <+: m.wire setup.tokens behind)

include hbs

theorem take_prefix_encodeHeader :
    bs.take headerSize <+: encodeHeader (m.packet setup.tokens) := by
  obtain ⟨extra, hwire⟩ := m.wire_eq setup.tokens behind
  have htake := hbs.take headerSize
  rwa [hwire, List.take_left' (length_encodeHeader _)] at htake

theorem take_drop_prefix_arg :
    (bs.drop headerSize).take (m.packet setup.tokens).msgLen.toNat <+: m.arg.bytes := by
  obtain ⟨extra, hwire⟩ := m.wire_eq setup.tokens behind
  have hlen : (m.packet setup.tokens).msgLen.toNat ≤ m.arg.bytes.length := by
    rw [m.toNat_msgLen_packet]
    exact Nat.mod_le _ _
  have htake := (hbs.drop headerSize).take (m.packet setup.tokens).msgLen.toNat
  rw [hwire, List.drop_left' (length_encodeHeader _),
    List.take_left' (List.length_take_of_le hlen)] at htake
  exact htake.trans (List.take_prefix _ _)

theorem operates_of_isPrefix (hne : bs ≠ []) {x : UInt8} (hx : x ≠ 0) :
    Operates setup m (.delivered bs (filledStale (m.packet setup.tokens) x)) [semicolon] :=
  operates_filledStale setup m hne (take_prefix_encodeHeader hbs) (m.msgType_packet setup.tokens)
    (m.token_packet setup.tokens)
    (fun h0 => m.arg.nulFree ((take_drop_prefix_arg hbs).subset h0)) hx

/-- A piece that holds the header and the argument is decoded to the argument. -/
theorem arg_pDecode_of_complete (hlen : bs.length ≤ 10000) (hcomplete : Complete m bs.length)
    (stale : Mem) : (pDecode (overlay bs stale)).val.arg = m.arg.bytes := by
  obtain ⟨extra, hwire⟩ := m.wire_eq setup.tokens behind
  have harg := m.arg_packet setup.tokens
  rcases hcomplete with hfull | ⟨hnil, h8⟩
  · have hn : (m.packet setup.tokens).msgLen.toNat = m.arg.bytes.length := by
      rw [m.toNat_msgLen_packet]
      exact Nat.mod_eq_of_lt (by omega)
    have hp : (m.packet setup.tokens).arg.length = (m.packet setup.tokens).msgLen.toNat := by
      rw [harg, hn]
    have hpre : pEncode (m.packet setup.tokens) <+: m.wire setup.tokens behind :=
      ⟨extra, by rw [hwire, pEncode, harg, List.append_assoc]⟩
    obtain ⟨post, rfl⟩ := List.prefix_of_prefix_length_le hpre hbs (by
      rw [length_pEncode hp, hn]
      exact hfull)
    rw [pDecode_overlay_pEncode hp, harg]
  · obtain ⟨post, hpost⟩ := hbs
    have hannounced : announced bs = 0 := by
      rw [← announced_append post h8, hpost, hwire, announced_encodeHeader,
        m.toNat_msgLen_packet, hnil, Nat.zero_mod]
    have hdecoded : (pDecode (overlay bs stale)).val.arg.length = 0 := by
      rw [length_arg_pDecode, msgLen_pDecode_overlay stale h8, hannounced]
    rw [List.length_eq_zero_iff.mp hdecoded, List.length_eq_zero_iff.mp hnil]

/-- A piece that lacks a byte of a nonempty argument, over a buffer that holds another byte
there. -/
theorem not_faithful_of_pos (hne : bs ≠ []) (hpos : m.arg.strlen ≠ 0)
    (hshort : bs.length < headerSize + m.arg.strlen) :
    ¬ Faithful setup m bs := by
  intro hfaithful
  have hn := m.toNat_msgLen_packet setup.tokens
  generalize hN : (m.packet setup.tokens).msgLen.toNat = n at hn
  -- the byte that the sender has put where the buffer begins to be read
  let j := bs.length - headerSize
  let x : UInt8 := if m.arg.bytes[j]? = some 65 then 66 else 65
  have hx : x ≠ 0 := by
    simp only [x]
    split_ifs <;> decide
  have harg := hfaithful _ _ (operates_of_isPrefix hbs hne hx)
  rw [arg_filledStale (take_prefix_encodeHeader hbs), hN] at harg
  have hlen : m.arg.bytes.length = n := by
    rw [← harg, List.length_append, List.length_take, List.length_drop, List.length_replicate]
    omega
  have hj : j < n := by
    simp only [CString.strlen] at hshort hpos hn
    simp only [j]
    omega
  have hbyte := congrArg (fun l => l[j]?) harg
  have hleft : ((bs.drop headerSize).take n).length = j := by
    rw [List.length_take, List.length_drop]
    omega
  simp only [List.getElem?_append_right hleft.le, hleft, Nat.sub_self] at hbyte
  rw [List.getElem?_replicate, if_pos (by omega)] at hbyte
  simp only [x] at hbyte
  split_ifs at hbyte with h65
  · exact absurd (hbyte.trans h65) (by decide)
  · exact h65 hbyte.symm

/-- A piece that lacks a byte of the length, over a buffer that completes another length. -/
theorem not_faithful_of_lt (hne : bs ≠ []) (hnil : m.arg.strlen = 0) (h8 : bs.length < 8) :
    ¬ Faithful setup m bs := by
  intro hfaithful
  obtain ⟨extra, hwire⟩ := m.wire_eq setup.tokens behind
  have hlen : (m.packet setup.tokens).msgLen = 0 := by
    rw [m.msgLen_packet, hnil]
    rfl
  let p : Packet := { m.packet setup.tokens with msgLen := 0x1000000 }
  have hheader : (encodeHeader p).take 7 = (encodeHeader (m.packet setup.tokens)).take 7 := by
    simp only [encodeHeader, hlen, p]
    rfl
  have hpre : bs.take headerSize <+: encodeHeader p := by
    have htake := hbs.take 7
    rw [hwire, List.take_append_of_le_length (by rw [length_encodeHeader]; decide), ← hheader,
      List.take_of_length_le (by omega)] at htake
    exact (List.take_prefix _ _).trans (htake.trans (List.take_prefix _ _))
  have hdrop : bs.drop headerSize = [] := List.drop_eq_nil_of_le (by
    rw [headerSize]
    omega)
  have hoperates : Operates setup m (.delivered bs (filledStale p 65)) [semicolon] :=
    operates_filledStale setup m hne hpre (m.msgType_packet setup.tokens)
      (m.token_packet setup.tokens) (by rw [hdrop]; simp) (by decide)
  have harg := congrArg List.length (hfaithful _ _ hoperates)
  rw [length_arg_pDecode, (header_filledStale hpre 65).1] at harg
  have hn : (0x1000000 : UInt32).toNat = 0 := harg.trans hnil
  exact absurd hn (by decide)

/-- The argument that an operation sees, with a separator behind it, is not the one sent. -/
theorem not_readsSent (hne : bs ≠ []) (htype : m.type ≠ .ls) : ¬ ReadsSent setup m bs := by
  intro hreads
  have h65 : (65 : UInt8) ≠ 0 := by decide
  have hstring := congrArg CString.strlen
    (hreads htype _ _ (operates_of_isPrefix hbs hne h65))
  have hzero : 0 ∉ (pDecode (overlay bs (filledStale (m.packet setup.tokens) 65))).val.arg ++
      [semicolon] := by
    rw [arg_filledStale (take_prefix_encodeHeader hbs)]
    simp only [List.mem_append, List.mem_singleton, not_or]
    exact ⟨⟨fun h0 => m.arg.nulFree ((take_drop_prefix_arg hbs).subset h0),
      fun h0 => absurd (List.eq_of_mem_replicate h0) (by decide)⟩, by decide⟩
  have hbytes := CString.bytes_ofMemory_append hzero []
  rw [List.append_nil] at hbytes
  rw [CString.strlen, hbytes, List.length_append, List.length_append, length_arg_pDecode,
    (header_filledStale (take_prefix_encodeHeader hbs) 65).1, m.toNat_msgLen_packet] at hstring
  simp at hstring
  omega

end Pieces

/-! ### The condition -/

variable (setup : WorkerSetup) (m : Message) {behind : Mem}
  (seg : Segmentation m.site.bufferSize (m.wire setup.tokens behind))

theorem Message.wire_ne_nil (tokens : Tokens) (behind : Mem) : m.wire tokens behind ≠ [] := by
  obtain ⟨extra, hwire⟩ := m.wire_eq tokens behind
  intro hnil
  have hlen := congrArg List.length (hwire.symm.trans hnil)
  rw [List.length_append, length_encodeHeader, List.length_nil, headerSize] at hlen
  omega

theorem Message.bufferSize_site : m.site.bufferSize = 10000 := by
  rw [Message.site]
  split_ifs <;> rfl

/-- The argument bytes, for every message and every segmentation. -/
theorem faithful_iff : Faithful setup m seg.first ↔ Complete m seg.first.length := by
  have hne := seg.first_ne_nil (m.wire_ne_nil setup.tokens behind)
  have hlen : seg.first.length ≤ 10000 := m.bufferSize_site ▸ seg.length_first_le
  constructor
  · intro hfaithful
    by_contra hcomplete
    rw [Complete, not_or, not_and] at hcomplete
    by_cases hnil : m.arg.strlen = 0
    · exact not_faithful_of_lt seg.first_isPrefix hne hnil (not_le.mp (hcomplete.2 hnil)) hfaithful
    · exact not_faithful_of_pos seg.first_isPrefix hne hnil (not_le.mp hcomplete.1) hfaithful
  · exact fun hcomplete stale _ _ => arg_pDecode_of_complete seg.first_isPrefix hlen hcomplete stale

/-- The strings that operations find, for every message and every segmentation. -/
theorem readsSent_iff : ReadsSent setup m seg.first ↔ m.type = .ls := by
  have hne := seg.first_ne_nil (m.wire_ne_nil setup.tokens behind)
  constructor
  · intro hreads
    by_contra htype
    exact not_readsSent seg.first_isPrefix hne htype hreads
  · exact fun htype hls => absurd htype hls

/-- **From the sender's argument to the receiver's.** For every message and every segmentation of
the stream: the receiver decodes the argument that was sent, or executes no operation, if and only
if the first piece is complete; and the string that the operation finds at the argument pointer is
the one that was sent, or no operation is executed, if and only if the message is an LS. -/
theorem delivery :
    (Faithful setup m seg.first ↔ Complete m seg.first.length) ∧
      (ReadsSent setup m seg.first ↔ m.type = .ls) :=
  ⟨faithful_iff setup m seg, readsSent_iff setup m seg⟩

/-- The READ of the file `ab`, cut behind the 23rd of its 42 bytes. -/
def exampleSegmentation : Segmentation 10000
    ((Message.read (lit "ab")).wire exampleSetup.tokens fun _ => 0) where
  pieces := [((Message.read (lit "ab")).wire exampleSetup.tokens fun _ => 0).take 23,
    ((Message.read (lit "ab")).wire exampleSetup.tokens fun _ => 0).drop 23]
  flatten_eq := by simp
  ne_nil := by decide
  length_le := by decide

/-- The second byte of the argument is then taken from the buffer. -/
theorem not_faithful_exampleSegmentation :
    ¬ ∀ (setup : WorkerSetup) (m : Message) (behind : Mem)
      (seg : Segmentation m.site.bufferSize (m.wire setup.tokens behind)),
      Faithful setup m seg.first := by
  intro h
  have hfaithful := h exampleSetup (.read (lit "ab")) (fun _ => 0) exampleSegmentation
  exact absurd ((faithful_iff _ _ _).1 hfaithful) (by decide)

end PekarDrive
