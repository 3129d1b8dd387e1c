import PekarDrive.WorkerAdmin.Listings
import Mathlib.Algebra.Order.BigOperators.Group.Finset

/-!
# The names in a listing of all workers

A worker joins the names in its directory by newlines, behind what lies in a fresh block of one
byte, and sends the text as the argument of a packet. The master reads once, at most 5040 bytes,
into a buffer, decodes what lies there, and takes the block of the argument, which has no
terminator, for a string. What it collects it appends to a fresh block of one byte.

So the listing of all workers has the names, and nothing else, when the fresh bytes and the bytes
behind the arguments happen to be zero and every read delivers the whole listing of the worker.
Otherwise its result depends on memory that nobody has written: filled with newlines the memory
adds nothing to the names, and filled with letters it adds more (`CText.length_filter_fillGaps`).

## Main definitions

* `PekarDrive.LsWorker`, `PekarDrive.LsOutcome`: what becomes of the request to a worker.
* `PekarDrive.LsMemory`: memory that nobody has written.
* `PekarDrive.ListsNames`, `PekarDrive.LsWorker.InFull`.

## Main results

* `PekarDrive.listsNames_iff`.
-/

namespace PekarDrive

open CMemory CText LockedThreads

/-! ### Workers that are asked -/

/-- A name in the directory of a worker. -/
structure FileName where
  /-- The name. -/
  text : CString
  /-- It is not empty. -/
  ne_nil : text.bytes ≠ []
  /-- It has no newline. -/
  newline_notMem : 10 ∉ text.bytes

/-- A worker that answers the LS. -/
structure LsWorker where
  /-- The names in its directory, in the order in which it reads them. -/
  names : List FileName
  /-- The fresh byte to which `file_list_to_str` appends them. -/
  freshByte : UInt8
  /-- The number of bytes up to which the read of the master delivers the answer. -/
  delivered : ℕ
  /-- The read delivers something. -/
  delivered_pos : 0 < delivered
  /-- The buffer has room for it. -/
  delivered_le : delivered ≤ DecodeSite.lsIndex.bufferSize
  /-- The byte behind the block of the decoded argument. -/
  behindByte : UInt8

/-- What becomes of the LS to an entry of the table. -/
inductive LsOutcome
  /-- The request cannot be sent, or nothing is read. -/
  | unreached (r : Reply) (h : r.written ≤ 0 ∨ r.read.bytes ≤ 0)
  /-- The worker answers. -/
  | answered (w : LsWorker)

/-- Memory that plays a part in an answer though nobody has written it. -/
structure LsMemory where
  /-- Behind the fresh byte of `file_list_to_str`. -/
  behindList : List UInt8
  /-- Behind the block of the encoded answer. -/
  behindSent : Mem
  /-- In the receive buffer before the read. -/
  stale : Mem
  /-- Behind the byte behind the argument. -/
  behindArg : List UInt8

namespace LsWorker

variable (w : LsWorker)

/-- The names, joined by newlines. -/
def listing : List UInt8 := [10].intercalate (w.names.map fun name => name.text.bytes)

variable (mem : LsMemory)

/-- The text that the worker makes of the names. -/
def lsOutput : CString :=
  fileListToStr (w.names.map FileName.text) (w.freshByte :: mem.behindList)

/-- The answer to an LS packet with the sequence number 0. -/
def packet : Packet := pInit 1 (w.lsOutput mem) MsgType.ls.code

/-- The bytes that the worker sends. -/
def sent : List UInt8 :=
  connWrite (overlay (pEncode (w.packet mem)) mem.behindSent)
    ((w.lsOutput mem).strlen + sizeofPacket)

/-- The exchange with the worker. -/
def reply : Reply where
  written := sizeofPacket + 1
  read := .delivered ((w.sent mem).take w.delivered) mem.stale
  behind := w.behindByte :: mem.behindArg

/-- The receive buffer after the read. -/
def buffer : Mem := overlay ((w.sent mem).take w.delivered) mem.stale

/-- The answer arrives in full, and is read as what it is. -/
structure InFull : Prop where
  /-- The read delivers the announced length. -/
  announced : 8 ≤ w.delivered
  /-- The names are appended to an empty string, and the read delivers all of them. -/
  whole : w.names ≠ [] → w.freshByte = 0 ∧ headerSize + w.listing.length ≤ w.delivered
  /-- The byte behind the argument terminates it. -/
  terminated : w.behindByte = 0

end LsWorker

namespace LsOutcome

/-- The exchange. -/
def reply (mem : LsMemory) : LsOutcome → Reply
  | unreached r _ => r
  | answered w => w.reply mem

/-- The names that are sent. -/
def names : LsOutcome → List (List UInt8)
  | unreached _ _ => []
  | answered w => w.names.map fun name => name.text.bytes

end LsOutcome

/-! ### What `worker_ls` is to return -/

/-- The lines of a text that are not empty. -/
def entries (s : CString) : List (List UInt8) := (lines s).filter fun l => decide (l ≠ [])

/-- The exchanges with the entries of the table, one after the other. -/
def lsEnv (workers : ℕ → LsOutcome) (mem : ℕ → LsMemory) (h : List Request) (_ : Request) : Reply :=
  (workers h.length).reply (mem h.length)

/-- Whatever lies in other memory, the lines of the result are the names that the workers send, in
the order of the table. -/
def ListsNames (tokens : Tokens) (t : ServerTable) (workers : ℕ → LsOutcome) (freshByte : UInt8) :
    Prop :=
  ∀ behind mem, ∃ result,
    ((workerLs tokens (freshByte :: behind)).eval (lsEnv workers mem) [] t).2 = some (result, t) ∧
    entries result = (List.range t.serverTable.length).flatMap fun i => (workers i).names

/-! ### The text of a worker -/

namespace LsWorker

variable (w : LsWorker) (mem : LsMemory)

/-- The answer of `handle_client` to an LS packet with the sequence number 0. -/
theorem eval_handleWorkerClient {setup : WorkerSetup} {heap : WorkerHeap} {uninit : Uninit}
    {r : ReadResult} {env : List WorkerEvent → WorkerEvent → Unit} {h h' : List WorkerEvent}
    {fs fs' : FileSystem} (hr : 0 < r.bytes)
    (htoken : (pDecode r.buffer).val.token = setup.tokens.masterTkn)
    (hls : (pDecode r.buffer).val.msgType = MsgType.ls.code)
    (hseq : (pDecode r.buffer).val.seqNumber = 0)
    (hlist : heap.lsBlock = w.freshByte :: mem.behindList)
    (hsent : heap.behindSent = mem.behindSent)
    (hnames : (fileList setup setup.workerDir).eval env h fs =
      (h', some (w.names.map FileName.text, fs'))) :
    (handleWorkerClient setup heap uninit r).eval env h fs =
      (h' ++ [.send (w.sent mem)], some ((), fs')) := by
  rw [handleWorkerClient_of_ls hr htoken hls, Prog.eval_bind_of_eq hnames, hseq, hlist, sendPacket,
    hsent]
  rfl

theorem bytes_fileListLoop_names (files : CString) :
    (fileListLoop (w.names.map FileName.text) files).bytes = files.bytes ++ w.listing := by
  have hmap : (w.names.map FileName.text).map CString.bytes =
      w.names.map fun name => name.text.bytes := List.map_map
  rw [bytes_fileListLoop, hmap, listing]

theorem bytes_lsOutput : (w.lsOutput mem).bytes = if w.names = [] then [] else
    (CString.ofMemory (w.freshByte :: mem.behindList)).bytes ++ w.listing := by
  have hempty : (lit "").bytes = [] := rfl
  rw [lsOutput, fileListToStr, List.length_map]
  by_cases hnames : w.names = []
  · rw [if_pos (by rw [hnames]; rfl), if_pos hnames, hempty]
  · rw [if_neg (by simpa using hnames), if_neg hnames, bytes_fileListLoop_names]

theorem listing_of_nil (h : w.names = []) : w.listing = [] := by
  rw [listing, h]
  rfl

theorem zero_notMem_listing : 0 ∉ w.listing := by
  have hbytes := w.bytes_fileListLoop_names (lit "")
  have hempty : (lit "").bytes = [] := rfl
  rw [hempty, List.nil_append] at hbytes
  exact hbytes ▸ CString.nulFree _

theorem splitOn_listing (h : w.names ≠ []) :
    w.listing.splitOn 10 = w.names.map fun name => name.text.bytes := by
  refine List.splitOn_intercalate 10 ?_ (by simpa using h)
  intro l hl
  obtain ⟨name, -, rfl⟩ := List.mem_map.mp hl
  exact name.newline_notMem

/-- The lines of the names are the names. -/
theorem filter_splitOn_listing :
    ((w.listing.splitOn 10).filter fun l => decide (l ≠ [])) =
      w.names.map fun name => name.text.bytes := by
  by_cases h : w.names = []
  · rw [w.listing_of_nil h, h]
    rfl
  · rw [w.splitOn_listing h, List.filter_eq_self]
    intro l hl
    obtain ⟨name, -, rfl⟩ := List.mem_map.mp hl
    exact decide_eq_true name.ne_nil

/-! ### The answer of a worker -/

/-- The bytes that are delivered. -/
theorem take_sent : (w.sent mem).take w.delivered =
    window (overlay (pEncode (w.packet mem)) mem.behindSent) 0
      (min w.delivered ((w.lsOutput mem).strlen + sizeofPacket)) := by
  rw [sent, connWrite, take_window]

theorem buffer_of_lt {o : ℕ} (h : o < min w.delivered ((w.lsOutput mem).strlen + sizeofPacket)) :
    w.buffer mem o =
      overlay (pEncode (w.packet mem)) mem.behindSent o := by
  rw [buffer, take_sent, overlay_window_of_lt mem.stale h]

theorem buffer_of_le {o : ℕ} (h : min w.delivered ((w.lsOutput mem).strlen + sizeofPacket) ≤ o) :
    w.buffer mem o = mem.stale o := by
  rw [buffer, take_sent, overlay_of_le _ (by rwa [length_window])]

theorem lsAnswer_reply : lsAnswer (w.reply mem) = some (CString.ofMemory
    ((pDecode (w.buffer mem)).val.arg ++ w.behindByte :: mem.behindArg)) := by
  have hbytes : 0 < (w.reply mem).read.bytes := by
    have hpos := w.delivered_pos
    rw [reply, ReadResult.delivered, take_sent, length_window]
    simp only [sizeofPacket]
    omega
  rw [lsAnswer, if_neg (by simp [reply, sizeofPacket]), DecodeSite.decode_of_pos _ hbytes]
  rfl

/-- A header of which the length has been delivered announces the length of the text. -/
theorem msgLen_buffer (h : 8 ≤ w.delivered) :
    (pDecode (w.buffer mem)).val.msgLen = UInt32.ofNat (w.lsOutput mem).strlen := by
  have hheader := (pDecode_header (w.packet mem)
    ((w.packet mem).arg.take (w.packet mem).msgLen.toNat) mem.behindSent).2.1
  have hwindow : window (w.buffer mem) 4 4 =
      window (overlay (pEncode (w.packet mem)) mem.behindSent) 4 4 :=
    window_congr fun o _ ho => w.buffer_of_lt mem (by rw [sizeofPacket]; omega)
  rw [msgLen_pDecode, hwindow, ← msgLen_pDecode, pEncode, hheader]
  rfl

/-- An answer that arrives in full has the names as its argument. -/
theorem arg_of_inFull (h : w.InFull) : (pDecode (w.buffer mem)).val.arg = w.listing := by
  by_cases hnames : w.names = []
  · have hzero : (pDecode (w.buffer mem)).val.msgLen = 0 := by
      rw [w.msgLen_buffer mem h.announced, CString.strlen, bytes_lsOutput, if_pos hnames]
      rfl
    rw [arg_pDecode, hzero, w.listing_of_nil hnames]
    rfl
  · obtain ⟨hfresh, hle⟩ := h.whole hnames
    have hbytes : (w.lsOutput mem).bytes = w.listing := by
      rw [bytes_lsOutput, if_neg hnames, hfresh]
      rfl
    have hlen : (w.lsOutput mem).strlen = w.listing.length := congrArg List.length hbytes
    have hlt : w.listing.length < 2 ^ 32 := by
      have hmax : w.delivered ≤ 5040 := w.delivered_le
      rw [headerSize] at hle
      omega
    have hmsgLen : (w.packet mem).msgLen.toNat = w.listing.length := by
      rw [packet, pInit, UInt32.toNat_ofNat', hlen, Nat.mod_eq_of_lt hlt]
    have hsent := pDecode_overlay_pEncode (p := w.packet mem)
      (by rw [hmsgLen, ← hlen]; rfl) [] mem.behindSent
    rw [List.append_nil] at hsent
    have hagree : ∀ o < headerSize +
        (pDecode (overlay (pEncode (w.packet mem)) mem.behindSent)).val.msgLen.toNat,
        overlay (pEncode (w.packet mem)) mem.behindSent o = w.buffer mem o := by
      intro o ho
      rw [hsent, hmsgLen] at ho
      refine (w.buffer_of_lt mem ?_).symm
      rw [hlen, sizeofPacket]
      rw [headerSize] at ho hle
      omega
    rw [← pDecode_congr hagree, hsent]
    exact hbytes

/-- **A worker in full.** The lines of its answer are its names. -/
theorem entries_of_inFull (h : w.InFull) : ∃ ls, lsAnswer (w.reply mem) = some ls ∧
    entries ls = w.names.map fun name => name.text.bytes := by
  refine ⟨_, w.lsAnswer_reply mem, ?_⟩
  rw [w.arg_of_inFull mem h, h.terminated, entries, lines,
    CString.bytes_ofMemory_append w.zero_notMem_listing]
  have hnil : (CString.ofMemory (0 :: mem.behindArg)).bytes = [] := rfl
  rw [hnil, List.append_nil, filter_splitOn_listing]

end LsWorker

/-! ### Memory that is filled with one byte -/

/-- What is read from a byte on, with `n` bytes of other memory behind it. -/
def freshGaps (b : UInt8) (n : ℕ) : List (Option UInt8) :=
  if b = 0 then [] else some b :: List.replicate n none

theorem bytes_ofMemory_fresh {x : UInt8} (hx : x ≠ 0) (b : UInt8) (n : ℕ) :
    (CString.ofMemory (b :: List.replicate n x)).bytes = fillGaps x (freshGaps b n) := by
  rw [freshGaps]
  split_ifs with hb
  · rw [hb]
    rfl
  · have hzero : 0 ∉ b :: List.replicate n x := by
      simp [List.mem_replicate, Ne.symm hb, Ne.symm hx]
    have hread := CString.bytes_ofMemory_append hzero []
    rw [List.append_nil] at hread
    rw [hread, fillGaps_cons, fillGaps_replicate]
    exact List.append_nil _

theorem eq_zero_of_count_freshGaps {b : UInt8} {n : ℕ} (hn : 0 < n)
    (h : (freshGaps b n).count none = 0) : b = 0 := by
  by_contra hb
  rw [freshGaps, if_neg hb, List.count_cons_of_ne (by simp), List.count_replicate_self] at h
  omega

namespace LsWorker

variable (w : LsWorker)

/-- A length of other memory that brings the length of the text of the names to 2 in 32 bits. -/
def gapLength : ℕ := 2 ^ 32 + 1 - w.listing.length % 2 ^ 32

/-- Memory that is filled with one byte; every byte of a header that is not delivered is 1. -/
def fill (x : UInt8) : LsMemory where
  behindList := List.replicate w.gapLength x
  behindSent _ := x
  stale o := if o < headerSize then 1 else x
  behindArg := [x]

/-- The text of the names, with gaps for other memory. -/
def outputGaps : List (Option UInt8) :=
  if w.names = [] then [] else freshGaps w.freshByte w.gapLength ++ w.listing.map some

variable {x : UInt8}

theorem bytes_lsOutput_fill (hx : x ≠ 0) :
    (w.lsOutput (w.fill x)).bytes = fillGaps x w.outputGaps := by
  rw [bytes_lsOutput, outputGaps, fill]
  split_ifs
  · rfl
  · rw [bytes_ofMemory_fresh hx, fillGaps_append, fillGaps_map_some]

theorem strlen_lsOutput_fill (hx : x ≠ 0) :
    (w.lsOutput (w.fill x)).strlen = w.outputGaps.length := by
  rw [CString.strlen, w.bytes_lsOutput_fill hx, length_fillGaps]

theorem msgLen_packet_fill (hx : x ≠ 0) :
    (w.packet (w.fill x)).msgLen = UInt32.ofNat w.outputGaps.length := by
  rw [packet, pInit, w.strlen_lsOutput_fill hx]

/-- The header is the same, whatever the memory is filled with. -/
theorem buffer_fill_congr (hx : x ≠ 0) {o : ℕ} (ho : o < headerSize) :
    w.buffer (w.fill x) o = w.buffer (w.fill 1) o := by
  have hone : (1 : UInt8) ≠ 0 := by decide
  have hheader : encodeHeader (w.packet (w.fill x)) = encodeHeader (w.packet (w.fill 1)) := by
    rw [encodeHeader, encodeHeader, w.msgLen_packet_fill hx, w.msgLen_packet_fill hone]
    rfl
  have henc : ∀ y, overlay (pEncode (w.packet (w.fill y))) (w.fill y).behindSent o =
      ((encodeHeader (w.packet (w.fill y)))[o]?).getD 0 := by
    intro y
    have hlt : o < (encodeHeader (w.packet (w.fill y))).length := by rwa [length_encodeHeader]
    rw [overlay, pEncode, List.getElem?_append_left hlt, List.getElem?_eq_getElem hlt]
    rfl
  rcases Nat.lt_or_ge o (min w.delivered (w.outputGaps.length + sizeofPacket)) with h | h
  · rw [w.buffer_of_lt _ (by rwa [w.strlen_lsOutput_fill hx]),
      w.buffer_of_lt _ (by rwa [w.strlen_lsOutput_fill hone]), henc, henc, hheader]
  · rw [w.buffer_of_le _ (by rwa [w.strlen_lsOutput_fill hx]),
      w.buffer_of_le _ (by rwa [w.strlen_lsOutput_fill hone]), fill, fill]
    simp only [if_pos ho]

/-- The length that is decoded. -/
def announcedLength : ℕ := (pDecode (w.buffer (w.fill 1))).val.msgLen.toNat

theorem msgLen_buffer_fill (hx : x ≠ 0) :
    (pDecode (w.buffer (w.fill x))).val.msgLen.toNat = w.announcedLength := by
  have hwindow : window (w.buffer (w.fill x)) 4 4 = window (w.buffer (w.fill 1)) 4 4 :=
    window_congr fun o _ ho => w.buffer_fill_congr hx (by rw [headerSize]; omega)
  rw [announcedLength, msgLen_pDecode, msgLen_pDecode, hwindow]

/-- The length is that of the text, in 32 bits, when it has been delivered. -/
theorem announcedLength_eq (h : 8 ≤ w.delivered) :
    w.announcedLength = w.outputGaps.length % 2 ^ 32 := by
  rw [announcedLength, w.msgLen_buffer _ h, w.strlen_lsOutput_fill (by decide),
    UInt32.toNat_ofNat']

/-- Otherwise it is positive. -/
theorem announcedLength_pos (h : w.delivered < 8) : 0 < w.announcedLength := by
  have hbyte : w.buffer (w.fill 1) 7 = 1 := by
    rw [w.buffer_of_le _ (by omega), fill]
    rfl
  have hwindow : window (w.buffer (w.fill 1)) 4 4 = [w.buffer (w.fill 1) 4,
      w.buffer (w.fill 1) 5, w.buffer (w.fill 1) 6, w.buffer (w.fill 1) 7] := rfl
  have hone : (1 : UInt8).toNat = 1 := rfl
  rw [announcedLength, toNat_msgLen_pDecode, hwindow, hbyte]
  simp only [leNat, hone]
  omega

/-- The part of the text that is delivered. -/
def deliveredGaps : List (Option UInt8) :=
  (w.outputGaps.take (w.outputGaps.length % 2 ^ 32)).take (w.delivered - headerSize)

/-- The argument, with gaps for what is not delivered. -/
def argGaps : List (Option UInt8) :=
  w.deliveredGaps ++ List.replicate (w.announcedLength - w.deliveredGaps.length) none

/-- The answer that is read, with gaps. -/
def gaps : List (Option UInt8) := w.argGaps ++ freshGaps w.behindByte 1

theorem length_deliveredGaps_le :
    w.deliveredGaps.length ≤ min (w.delivered - headerSize) w.outputGaps.length := by
  rw [deliveredGaps, List.length_take, List.length_take]
  omega

/-- Behind the header lies what is delivered of the text, and then the byte. -/
theorem buffer_fill_add (hx : x ≠ 0) (j : ℕ) : w.buffer (w.fill x) (headerSize + j) =
    overlay (fillGaps x w.deliveredGaps) (fun _ => x) j := by
  have hlength := w.length_deliveredGaps_le
  rcases Nat.lt_or_ge (headerSize + j)
    (min w.delivered (w.outputGaps.length + sizeofPacket)) with h | h
  · have harg : (w.packet (w.fill x)).arg = fillGaps x w.outputGaps := w.bytes_lsOutput_fill hx
    have hheader := length_encodeHeader (w.packet (w.fill x))
    have htake : (fillGaps x w.deliveredGaps)[j]? =
        ((fillGaps x w.outputGaps).take (w.outputGaps.length % 2 ^ 32))[j]? := by
      rw [deliveredGaps, fillGaps_take, fillGaps_take]
      exact List.getElem?_take_of_lt (by omega)
    rw [w.buffer_of_lt _ (by rwa [w.strlen_lsOutput_fill hx]), overlay, overlay, pEncode,
      List.getElem?_append_right (by rw [hheader]; omega), hheader, Nat.add_sub_cancel_left, harg,
      w.msgLen_packet_fill hx, UInt32.toNat_ofNat', htake, fill]
  · have hj : w.deliveredGaps.length ≤ j := by
      rw [headerSize] at hlength h
      rw [sizeofPacket] at h
      omega
    rw [w.buffer_of_le _ (by rwa [w.strlen_lsOutput_fill hx]), fill,
      overlay_of_le _ (by rwa [length_fillGaps])]
    exact if_neg (by omega)

theorem length_deliveredGaps_le_announcedLength :
    w.deliveredGaps.length ≤ w.announcedLength := by
  rcases Nat.lt_or_ge w.delivered 8 with h | h
  · have hlength := w.length_deliveredGaps_le
    rw [headerSize] at hlength
    omega
  · rw [w.announcedLength_eq h, deliveredGaps, List.length_take, List.length_take]
    omega

theorem arg_fill (hx : x ≠ 0) :
    (pDecode (w.buffer (w.fill x))).val.arg = fillGaps x w.argGaps := by
  have hwindow : window (w.buffer (w.fill x)) headerSize w.announcedLength =
      window (overlay (fillGaps x w.deliveredGaps) fun _ => x) 0 w.announcedLength := by
    refine List.map_congr_left fun j _ => ?_
    rw [w.buffer_fill_add hx, Nat.zero_add]
  have hlength := w.length_deliveredGaps_le_announcedLength
  rw [arg_pDecode, w.msgLen_buffer_fill hx, argGaps, fillGaps_append, fillGaps_replicate]
  refine hwindow.trans ?_
  rw [window_overlay_zero, length_fillGaps, window_const,
    List.take_of_length_le (by rwa [length_fillGaps])]

theorem zero_notMem_argGaps (hx : x ≠ 0) : 0 ∉ fillGaps x w.argGaps := by
  rw [argGaps, fillGaps_append, fillGaps_replicate, deliveredGaps, fillGaps_take, fillGaps_take,
    ← w.bytes_lsOutput_fill hx]
  intro h
  rcases List.mem_append.mp h with h | h
  · exact (w.lsOutput (w.fill x)).nulFree (List.mem_of_mem_take (List.mem_of_mem_take h))
  · exact hx (List.mem_replicate.mp h).2.symm

/-- The answer that is read when the memory is filled with one byte. -/
theorem exists_lsAnswer_fill (hx : x ≠ 0) : ∃ ls, lsAnswer (w.reply (w.fill x)) = some ls ∧
    ls.bytes = fillGaps x w.gaps := by
  refine ⟨_, w.lsAnswer_reply _, ?_⟩
  rw [w.arg_fill hx, CString.bytes_ofMemory_append (w.zero_notMem_argGaps hx), gaps,
    fillGaps_append, ← bytes_ofMemory_fresh hx]
  rfl

/-! ### Answers without gaps -/

/-- The text starts with a gap when the fresh byte is not zero, and is then announced as two
bytes. -/
theorem take_outputGaps (hnames : w.names ≠ []) (hfresh : w.freshByte ≠ 0) :
    w.outputGaps.take (w.outputGaps.length % 2 ^ 32) = [some w.freshByte, none] := by
  have hlt := Nat.mod_lt w.listing.length (show 0 < 2 ^ 32 by decide)
  obtain ⟨k, hk⟩ : ∃ k, w.gapLength = k + 1 := ⟨w.gapLength - 1, by rw [gapLength]; omega⟩
  have houtput : w.outputGaps = some w.freshByte :: none ::
      (List.replicate k none ++ w.listing.map some) := by
    rw [outputGaps, if_neg hnames, freshGaps, if_neg hfresh, hk, List.replicate_succ,
      List.cons_append, List.cons_append]
  have hlength : w.outputGaps.length % 2 ^ 32 = 2 := by
    rw [houtput, List.length_cons, List.length_cons, List.length_append, List.length_replicate,
      List.length_map]
    rw [gapLength] at hk
    omega
  rw [hlength, houtput]
  rfl

/-- Without the gap, the text consists of the names. -/
theorem outputGaps_eq (h : w.names ≠ [] → w.freshByte = 0) :
    w.outputGaps = w.listing.map some := by
  rw [outputGaps]
  split_ifs with hnames
  · rw [w.listing_of_nil hnames, List.map_nil]
  · rw [freshGaps, if_pos (h hnames), List.nil_append]

/-- An answer without gaps consists of names, and all that is announced is delivered. -/
theorem gaps_of_count (h : w.gaps.count none = 0) :
    8 ≤ w.delivered ∧ (w.names ≠ [] → w.freshByte = 0) ∧ w.behindByte = 0 ∧
      w.listing.length % 2 ^ 32 ≤ w.delivered - headerSize ∧
      w.gaps = (w.listing.take (w.listing.length % 2 ^ 32)).map some := by
  rw [gaps, List.count_append, argGaps, List.count_append, List.count_replicate_self] at h
  obtain ⟨⟨hgap, hmissing⟩, hbehind⟩ :
      (w.deliveredGaps.count none = 0 ∧ w.announcedLength - w.deliveredGaps.length = 0) ∧
        (freshGaps w.behindByte 1).count none = 0 := by
    omega
  have hlength := w.length_deliveredGaps_le
  have hannounced : 8 ≤ w.delivered := by
    by_contra hlt
    have hpos := w.announcedLength_pos (by omega)
    rw [headerSize] at hlength
    omega
  have hmod := w.announcedLength_eq hannounced
  have hwhole : w.deliveredGaps = w.outputGaps.take (w.outputGaps.length % 2 ^ 32) := by
    rw [deliveredGaps, List.take_of_length_le]
    rw [List.length_take]
    omega
  have hfresh : w.names ≠ [] → w.freshByte = 0 := by
    intro hnames
    by_contra hne
    rw [hwhole, w.take_outputGaps hnames hne] at hgap
    simp at hgap
  have houtput := w.outputGaps_eq hfresh
  have hzero : w.behindByte = 0 := eq_zero_of_count_freshGaps Nat.one_pos hbehind
  rw [houtput, List.length_map] at hmod
  refine ⟨hannounced, hfresh, hzero, by omega, ?_⟩
  rw [gaps, argGaps, hmissing, hwhole, houtput, hzero, List.length_map, ← List.map_take]
  exact (List.append_nil _).trans (List.append_nil _)

/-- The number of bytes of the names. -/
theorem length_filter_listing : (w.listing.filter fun b => decide (b ≠ 10)).length =
    (w.names.map fun name => name.text.bytes).flatten.length := by
  rw [← flatten_filter_splitOn, filter_splitOn_listing]

/-- The text ends with a byte of a name. -/
theorem exists_listing_eq (h : w.names ≠ []) : ∃ pre b, w.listing = pre ++ [b] ∧ b ≠ 10 := by
  obtain ⟨names, name, hnames⟩ := (List.eq_nil_or_concat' w.names).resolve_left h
  obtain ⟨bytes, b, hbytes⟩ := (List.eq_nil_or_concat' name.text.bytes).resolve_left name.ne_nil
  obtain ⟨pre, hpre⟩ :=
    suffix_intercalate_append [10] (names.map fun name => name.text.bytes) name.text.bytes
  refine ⟨pre ++ bytes, b, ?_, ?_⟩
  · rw [listing, hnames, List.map_append, List.map_singleton, ← hpre, hbytes, List.append_assoc]
  · rintro rfl
    exact name.newline_notMem (by rw [hbytes]; simp)

/-- A start of the text with all bytes of the names is the text. -/
theorem length_listing_le {n : ℕ}
    (h : (w.listing.filter fun b => decide (b ≠ 10)).length ≤
      ((w.listing.take n).filter fun b => decide (b ≠ 10)).length) : w.listing.length ≤ n := by
  by_cases hnames : w.names = []
  · rw [w.listing_of_nil hnames]
    exact Nat.zero_le n
  · obtain ⟨pre, b, hlisting, hb⟩ := w.exists_listing_eq hnames
    by_contra hlt
    rw [hlisting, List.length_append, List.length_singleton] at hlt
    rw [hlisting, List.take_append_of_le_length (by omega), List.filter_append,
      List.length_append, List.filter_cons_of_pos (by simpa using hb), List.length_cons] at h
    have hle := ((List.take_sublist n pre).filter fun b => decide (b ≠ 10)).length_le
    omega

/-- An answer without gaps that has all bytes of the names has arrived in full. -/
theorem inFull_of_count (hgaps : w.gaps.count none = 0)
    (hbytes : (w.listing.filter fun b => decide (b ≠ 10)).length ≤
      ((fillGaps 10 w.gaps).filter fun b => decide (b ≠ 10)).length) : w.InFull := by
  obtain ⟨hannounced, hfresh, hzero, hle, hgaps⟩ := w.gaps_of_count hgaps
  rw [hgaps, fillGaps_map_some] at hbytes
  have hlength := w.length_listing_le hbytes
  refine ⟨hannounced, fun hnames => ⟨hfresh hnames, ?_⟩, hzero⟩
  obtain ⟨pre, b, hlisting, -⟩ := w.exists_listing_eq hnames
  have hpos : 0 < w.listing.length := by rw [hlisting]; simp
  have hmod := Nat.mod_le w.listing.length (2 ^ 32)
  omega

end LsWorker

namespace LsOutcome

variable (o : LsOutcome)

/-- Memory that is filled with one byte. -/
def fill (x : UInt8) : LsOutcome → LsMemory
  | unreached _ _ => ⟨[], fun _ => x, fun _ => x, []⟩
  | answered w => w.fill x

/-- The answer that is read, with gaps. -/
def gaps : LsOutcome → List (Option UInt8)
  | unreached _ _ => []
  | answered w => w.gaps

/-- The bytes of the names. -/
theorem length_names_le (h : o.gaps.count none = 0) :
    ((fillGaps 10 o.gaps).filter fun b => decide (b ≠ 10)).length ≤ o.names.flatten.length := by
  cases o with
  | unreached r hr => exact Nat.zero_le _
  | answered w =>
    obtain ⟨-, -, -, -, hgaps⟩ := w.gaps_of_count h
    rw [gaps, hgaps, fillGaps_map_some, names, ← w.length_filter_listing]
    exact ((List.take_sublist _ w.listing).filter _).length_le

end LsOutcome

/-! ### The run of `worker_ls` -/

/-- The lines of an answer that are not empty. -/
def answerEntries (answer : Option CString) : List (List UInt8) :=
  (answerLines answer).filter fun l => decide (l ≠ [])

theorem entries_joinLs (result : CString) (answers : List (Option CString)) :
    entries (joinLs result answers) = entries result ++ answers.flatMap answerEntries := by
  rw [entries, lines_joinLs, List.filter_append, List.filter_flatMap]
  rfl

theorem lsAnswer_of_unreached {r : Reply} (h : r.written ≤ 0 ∨ r.read.bytes ≤ 0) :
    lsAnswer r = none := by
  rw [lsAnswer]
  split_ifs with hwritten
  · rfl
  · have hbytes : r.read.bytes ≤ 0 := h.resolve_left hwritten
    rw [DecodeSite.decode, DecodeSite.refuses, if_pos (decide_eq_true hbytes)]

section Run

variable (tokens : Tokens) (t : ServerTable) (workers : ℕ → LsOutcome) (mem : ℕ → LsMemory)

theorem lsAnswers_lsEnv (h : List Request) (ws : List FileServer) :
    lsAnswers tokens (lsEnv workers mem) h ws =
      (List.range' h.length ws.length).map fun i => lsAnswer ((workers i).reply (mem i)) := by
  induction ws generalizing h with
  | nil => rfl
  | cons w ws ih =>
    rw [lsAnswers, ih, List.length_append, List.length_singleton, List.length_cons,
      List.range'_succ, List.map_cons]
    rfl

/-- The lines of the result are those of the fresh block and of the answers. -/
theorem listsNames_iff_forall (freshByte : UInt8) : ListsNames tokens t workers freshByte ↔
    ∀ (behind : List UInt8) (mem : ℕ → LsMemory),
      entries (CString.ofMemory (freshByte :: behind)) ++ (List.range t.serverTable.length).flatMap
        (fun i => answerEntries (lsAnswer ((workers i).reply (mem i)))) =
      (List.range t.serverTable.length).flatMap fun i => (workers i).names := by
  refine forall_congr' fun behind => forall_congr' fun mem => ?_
  rw [eval_workerLs]
  have hentries : entries (joinLs (CString.ofMemory (freshByte :: behind))
      (lsAnswers tokens (lsEnv workers mem) [] t.serverTable)) =
      entries (CString.ofMemory (freshByte :: behind)) ++
        (List.range t.serverTable.length).flatMap
          (fun i => answerEntries (lsAnswer ((workers i).reply (mem i)))) := by
    rw [entries_joinLs, lsAnswers_lsEnv, List.flatMap_map, List.length_nil,
      ← List.range_eq_range']
  rw [← hentries]
  simp

end Run

/-! ### The bytes of the names -/

theorem length_flatten_entries (s : CString) : (entries s).flatten.length =
    (s.bytes.filter fun b => decide (b ≠ 10)).length := by
  rw [entries, lines, flatten_filter_splitOn]

theorem length_flatten_flatMap_range (f : ℕ → List (List UInt8)) (n : ℕ) :
    ((List.range n).flatMap f).flatten.length =
      ∑ i ∈ Finset.range n, (f i).flatten.length := by
  induction n with
  | zero => rfl
  | succ n ih =>
    rw [List.range_succ, List.flatMap_append, List.flatten_append, List.length_append, ih,
      Finset.sum_range_succ, List.flatMap_singleton]

/-- The bytes of an answer when the memory is filled with one byte. -/
theorem length_answerEntries_fill {x : UInt8} (hx : x ≠ 0) (o : LsOutcome) :
    (answerEntries (lsAnswer (o.reply (o.fill x)))).flatten.length =
      ((fillGaps x o.gaps).filter fun b => decide (b ≠ 10)).length := by
  cases o with
  | unreached r h =>
    rw [LsOutcome.reply, lsAnswer_of_unreached h]
    rfl
  | answered w =>
    obtain ⟨ls, hls, hbytes⟩ := w.exists_lsAnswer_fill hx
    rw [LsOutcome.reply, LsOutcome.fill, hls, LsOutcome.gaps, ← hbytes]
    exact length_flatten_entries ls

section Names

variable {tokens : Tokens} {t : ServerTable} {workers : ℕ → LsOutcome} {freshByte : UInt8}

/-- The bytes of the result, when the memory is filled with one byte. -/
theorem sum_of_listsNames (h : ListsNames tokens t workers freshByte) {x : UInt8} (hx : x ≠ 0) :
    ((fillGaps x (freshGaps freshByte 1)).filter fun b => decide (b ≠ 10)).length +
      ∑ i ∈ Finset.range t.serverTable.length,
        ((fillGaps x (workers i).gaps).filter fun b => decide (b ≠ 10)).length =
      ∑ i ∈ Finset.range t.serverTable.length, (workers i).names.flatten.length := by
  have hentries := (listsNames_iff_forall tokens t workers freshByte).mp h (List.replicate 1 x)
    fun i => (workers i).fill x
  have hbytes := congrArg (fun ls => ls.flatten.length) hentries
  simp only [List.flatten_append, List.length_append, length_flatten_flatMap_range,
    length_answerEntries_fill hx, length_flatten_entries, bytes_ofMemory_fresh hx] at hbytes
  exact hbytes

/-- Nothing that is read has gaps. -/
theorem count_of_listsNames (h : ListsNames tokens t workers freshByte) :
    (freshGaps freshByte 1).count none = 0 ∧
      ∀ i < t.serverTable.length, (workers i).gaps.count none = 0 := by
  have hletters := sum_of_listsNames h (x := 65) (by decide)
  have hnewlines := sum_of_listsNames h (x := 10) (by decide)
  simp only [length_filter_fillGaps (show (65 : UInt8) ≠ 10 by decide),
    Finset.sum_add_distrib] at hletters
  obtain ⟨hfresh, hsum⟩ : (freshGaps freshByte 1).count none = 0 ∧
      ∑ i ∈ Finset.range t.serverTable.length, (workers i).gaps.count none = 0 := by
    omega
  exact ⟨hfresh, fun i hi => Finset.sum_eq_zero_iff.mp hsum i (Finset.mem_range.mpr hi)⟩

theorem inFull_of_listsNames (h : ListsNames tokens t workers freshByte) {i : ℕ}
    (hi : i < t.serverTable.length) {w : LsWorker} (hw : workers i = .answered w) : w.InFull := by
  obtain ⟨hfresh, hcount⟩ := count_of_listsNames h
  have hnewlines := sum_of_listsNames h (x := 10) (by decide)
  have hzero := eq_zero_of_count_freshGaps Nat.one_pos hfresh
  rw [hzero] at hnewlines
  have hempty : ((fillGaps 10 (freshGaps 0 1)).filter fun b => decide (b ≠ 10)).length = 0 := rfl
  rw [hempty, Nat.zero_add] at hnewlines
  have hle : ∀ j ∈ Finset.range t.serverTable.length,
      ((fillGaps 10 (workers j).gaps).filter fun b => decide (b ≠ 10)).length ≤
        (workers j).names.flatten.length :=
    fun j hj => (workers j).length_names_le (hcount j (Finset.mem_range.mp hj))
  -- the bytes of all answers are those of all names, so no answer has fewer
  have heq := (Finset.sum_eq_sum_iff_of_le hle).mp hnewlines i (Finset.mem_range.mpr hi)
  have hgaps := hcount i hi
  rw [hw] at heq hgaps
  refine w.inFull_of_count hgaps (le_of_eq ?_)
  rw [w.length_filter_listing]
  exact heq.symm

/-- **The names.** For every table, all names and all outcomes of the requests, the lines of the
result are the names that the workers send, whatever lies in other memory, if and only if the fresh
byte of the result is zero and every answer arrives in full. -/
theorem listsNames_iff (tokens : Tokens) (t : ServerTable) (workers : ℕ → LsOutcome)
    (freshByte : UInt8) : ListsNames tokens t workers freshByte ↔
      freshByte = 0 ∧ ∀ i < t.serverTable.length, ∀ w, workers i = .answered w → w.InFull := by
  constructor
  · exact fun h => ⟨eq_zero_of_count_freshGaps Nat.one_pos (count_of_listsNames h).1,
      fun i hi w hw => inFull_of_listsNames h hi hw⟩
  · rintro ⟨rfl, hfull⟩
    rw [listsNames_iff_forall]
    intro behind mem
    have hempty : entries (CString.ofMemory (0 :: behind)) = [] := rfl
    rw [hempty, List.nil_append]
    refine List.flatMap_congr fun i hi => ?_
    cases hw : workers i with
    | unreached r h =>
      rw [LsOutcome.reply, lsAnswer_of_unreached h]
      rfl
    | answered w =>
      obtain ⟨ls, hls, hentries⟩ :=
        w.entries_of_inFull (mem i) (hfull i (List.mem_range.mp hi) w hw)
      rw [LsOutcome.reply, hls]
      exact hentries

end Names

/-! ### Listings that do not fit the buffer -/

/-- A listing of more than 5018 bytes does not arrive in full. -/
theorem LsWorker.InFull.length_listing_le {w : LsWorker} (h : w.InFull) :
    w.listing.length ≤ 5018 := by
  by_cases hnames : w.names = []
  · rw [w.listing_of_nil hnames]
    exact Nat.zero_le _
  · have hwhole := (h.whole hnames).2
    have hmax : w.delivered ≤ 5040 := w.delivered_le
    rw [headerSize] at hwhole
    omega

/-- A name of one letter, repeated. -/
def repeatedName (n : ℕ) : FileName where
  text := ⟨List.replicate (n + 1) 97, by simp [List.mem_replicate]⟩
  ne_nil := by simp
  newline_notMem := by simp [List.mem_replicate]

/-- A worker with 30 files, whose answer fills the buffer. -/
def longLister : LsWorker where
  names := (List.range 30).map fun i => repeatedName (170 + i)
  freshByte := 0
  delivered := DecodeSite.lsIndex.bufferSize
  delivered_pos := by decide
  delivered_le := le_rfl
  behindByte := 0

theorem lt_length_listing_longLister : 5018 < longLister.listing.length := by
  have hfilter := longLister.length_filter_listing
  have hle := List.length_filter_le (fun b => decide (b ≠ 10)) longLister.listing
  have hsum : (longLister.names.map fun name => name.text.bytes).flatten.length = 5565 := by
    rw [List.length_flatten, longLister, List.map_map, List.map_map]
    simp only [repeatedName, Function.comp_def, List.length_replicate]
    decide
  omega

/-- The names of one worker with a long listing are not returned, though the fresh bytes and the
byte behind the argument are zero. -/
theorem not_forall_listsNames : ¬ ∀ (tokens : Tokens) (t : ServerTable)
    (workers : ℕ → LsOutcome) (freshByte : UInt8), ListsNames tokens t workers freshByte := by
  intro h
  have hfull := inFull_of_listsNames
    (h exampleTokens ⟨[exampleServer 1], 1, rfl⟩ (fun _ => .answered longLister) 0)
    Nat.one_pos rfl
  exact absurd hfull.length_listing_le (not_le.mpr lt_length_listing_longLister)

end PekarDrive
