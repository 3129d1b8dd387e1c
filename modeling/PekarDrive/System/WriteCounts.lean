import PekarDrive.System.ReadAll
import PekarDrive.System.SendLengths

/-!
# The number of bytes written

The number that `fs_write_file` returns is printed by the worker, read by `written_bytes` of the
master, printed again by `long2str` and read by `file_write` of the client. The argument that the
master decodes has no terminator, so `atol` goes on with the digits that happen to lie behind its
block. Without a response `written_bytes` gives up when the read fails, and decodes its buffer when
the connection is closed; `file_write` reads the block of `read_all` in either case.

## Main definitions

* `PekarDrive.WriteCount`: the numbers that `fs_write_file` returns.
* `PekarDrive.WriteExchange`: what is received, `PekarDrive.ExchangeMemory`: what is not.
* `PekarDrive.fileWriteResult`: what `file_write` returns.

## Main results

* `PekarDrive.eval_writeFile`, `PekarDrive.eval_answerClient_countOutput`: the answer of a worker.
* `PekarDrive.fileWriteResult_iff`.
-/

namespace PekarDrive

open CMemory CText LockedThreads

/-! ### The exchange -/

/-- The numbers that `fs_write_file` returns. -/
structure WriteCount where
  /-- The number. -/
  val : ℤ
  /-- It is `-1` or counts bytes. -/
  le : -1 ≤ val
  /-- It is an `int`. -/
  lt : val < 2 ^ 31

/-- The results of a `conn_read` that delivers nothing. -/
inductive Silence
  /-- The connection is closed. -/
  | closed
  /-- The read fails. -/
  | failed
  deriving DecidableEq

/-- The return value. -/
def Silence.result : Silence → ℤ
  | closed => 0
  | failed => -1

/-- What the master and the client receive. -/
inductive WriteExchange
  /-- The answer of the worker, and that of the master. -/
  | answered
  /-- The master receives no answer. -/
  | masterSilent (s : Silence)
  /-- The client receives no answer. -/
  | clientSilent
  deriving DecidableEq

/-- Memory that plays a part though nobody has written it. -/
structure ExchangeMemory where
  /-- Behind the packet of the worker. -/
  behindSent : Mem
  /-- The buffer of `written_bytes`, and what lies behind it. -/
  stale : Mem
  /-- Behind the argument block of `p_decode`. -/
  behindArg : List UInt8
  /-- The blocks of `read_all`. -/
  fresh : ℕ → Mem
  /-- Behind the block that `read_all` returns. -/
  behindBlock : List UInt8

/-- The result of `write_file` of a worker. -/
def countOutput (n : ℤ) : FileOutput :=
  ⟨0, some (decimalInt n ++ [0]), UInt32.ofNat (decimalInt n).length⟩

/-- What the worker sends. -/
def countAnswer (tokens : Tokens) (seqNumber : UInt32) (n : ℤ) : Outgoing where
  packet := createPacket tokens seqNumber MsgType.write.code
    (CString.ofMemory (decimalInt n ++ [0]))
  len := sizeofPacket + (countOutput n).len.toNat + 1

section Exchange

variable (tokens : Tokens) (seqNumber : UInt32) (n : ℤ) (mem : ExchangeMemory)

/-- What `written_bytes` receives. -/
def countReply (read : ReadResult) : Reply where
  written := 1
  read := read
  behind := mem.behindArg

/-- The read of `written_bytes`. -/
def countRead : WriteExchange → ReadResult
  | .masterSilent s => .failed s.result mem.stale
  | _ => .delivered (((countAnswer tokens seqNumber n).wire mem.behindSent).take
      DecodeSite.writtenBytes.bufferSize) mem.stale

/-- The reads of `read_all`, when the master returns the number `val`. -/
def replyReads (val : ℤ) : WriteExchange → List (List UInt8)
  | .clientSilent => []
  | _ => [(long2str val).bytes ++ [0]]

/-- What `file_write` returns. -/
def fileWriteResult (x : WriteExchange) : Option ℤ :=
  let val := writtenBytes (countReply mem (countRead tokens seqNumber n mem x))
  (readAll mem.fresh (replyReads val x)).map fun block =>
    Interface.written (block ++ mem.behindBlock)

end Exchange

/-! ### The worker -/

/-- `write_file` prints the number that `fs_write_file` returns. -/
theorem eval_writeFile (setup : WorkerSetup) (env : List WorkerEvent → WorkerEvent → Unit)
    (h : List WorkerEvent) (fs : FileSystem) (fileName buffer : CString) (isappend : Bool) :
    (writeFile setup fileName buffer isappend).eval env h fs =
      (h ++ [.op (if isappend then .append fileName buffer else .write fileName buffer)],
        some (countOutput (fsWriteFile setup.workDir fileName buffer isappend fs).1,
          (fsWriteFile setup.workDir fileName buffer isappend fs).2)) := rfl

/-- The number is sent as the argument of one packet. -/
theorem eval_answerClient_countOutput (setup : WorkerSetup) (heap : WorkerHeap)
    (env : List WorkerEvent → WorkerEvent → Unit) (h : List WorkerEvent) (fs : FileSystem)
    (seqNumber : UInt32) (n : ℤ) :
    (answerClient setup heap seqNumber MsgType.write.code (countOutput n)).eval env h fs =
      (h ++ [.send ((countAnswer setup.tokens seqNumber n).wire heap.behindSent)],
        some ((), fs)) := rfl

/-! ### The master -/

/-- A WRITE is answered with the number that `written_bytes` returns. -/
theorem eval_handleClient_of_write {tokens : Tokens} {heap : Heap} {workerId : UInt32}
    {r : ReadResult} {env : List Request → Request → Reply} {h : List Request} {t : ServerTable}
    {file data : CString} {w : FileServer}
    (hcall : masterCall heap t r = some (.write file data)) (hw : t.serverTable[0]? = some w) :
    (handleClient tokens heap workerId r).eval env h t =
      (h ++ [writeRequest tokens file data w],
        some (⟨some ((long2str (writtenBytes (env h (writeRequest tokens file data w)))).bytes ++
          [0]), workerId⟩, t)) := by
  have hperform : ((AdminCall.write file data).perform tokens heap).eval env h t =
      (h ++ [writeRequest tokens file data w],
        some (some (long2str (writtenBytes (env h (writeRequest tokens file data w)))), t)) :=
    Prog.eval_bind_of_eq (eval_workerWrite tokens env h file data hw) _
  rw [eval_handleClient_of_some tokens workerId env h hcall, Prog.eval_bind_of_eq hperform]
  rfl

section Answered

variable (tokens : Tokens) (seqNumber : UInt32) (mem : ExchangeMemory)

theorem length_decimalInt_le_twenty {v : ℤ} (hlow : -2 ^ 63 ≤ v) (hhigh : v < 2 ^ 63) :
    (decimalInt v).length ≤ 20 :=
  (length_decimalInt_le_iff (by decide)).mpr ⟨by omega, by omega⟩

theorem arg_countAnswer (n : ℤ) :
    (countAnswer tokens seqNumber n).packet.arg = decimalInt n := bytes_ofMemory_decimalInt n []

theorem length_arg_countAnswer {n : ℤ} (hlow : -2 ^ 63 ≤ n) (hhigh : n < 2 ^ 63) :
    (countAnswer tokens seqNumber n).packet.arg.length =
      (countAnswer tokens seqNumber n).packet.msgLen.toNat := by
  have hlen := length_decimalInt_le_twenty hlow hhigh
  change (countAnswer tokens seqNumber n).packet.arg.length =
    (UInt32.ofNat (countAnswer tokens seqNumber n).packet.arg.length).toNat
  rw [arg_countAnswer, toNat_counter (by omega)]

/-- The answer of the worker fits the buffer of `written_bytes`. -/
theorem exists_countRead_answered {n : ℤ} (hlow : -2 ^ 63 ≤ n) (hhigh : n < 2 ^ 63) :
    ∃ extra, countRead tokens seqNumber n mem .answered =
      .delivered (pEncode (countAnswer tokens seqNumber n).packet ++ extra) mem.stale := by
  have hlen := length_decimalInt_le_twenty hlow hhigh
  have harg := length_arg_countAnswer tokens seqNumber hlow hhigh
  have hencoded := length_pEncode harg
  rw [← harg, arg_countAnswer, headerSize] at hencoded
  have hsent : (countAnswer tokens seqNumber n).len = sizeofPacket + (decimalInt n).length + 1 := by
    rw [countAnswer, countOutput, toNat_counter (by omega)]
  rw [sizeofPacket] at hsent
  obtain ⟨extra, hwire⟩ := @Outgoing.wire_eq (countAnswer tokens seqNumber n) (by omega)
    mem.behindSent
  have hroom : (pEncode (countAnswer tokens seqNumber n).packet).length ≤
      DecodeSite.writtenBytes.bufferSize := by
    rw [hencoded, DecodeSite.bufferSize, sizeofPacket]
    omega
  refine ⟨extra.take (DecodeSite.writtenBytes.bufferSize -
    (pEncode (countAnswer tokens seqNumber n).packet).length), ?_⟩
  change ReadResult.delivered (((countAnswer tokens seqNumber n).wire mem.behindSent).take
    DecodeSite.writtenBytes.bufferSize) mem.stale = _
  rw [hwire, List.take_append, List.take_of_length_le hroom]

/-- It is decoded inside this buffer. -/
theorem inside_countRead_answered {n : ℤ} (hlow : -2 ^ 63 ≤ n) (hhigh : n < 2 ^ 63) :
    DecodeSite.writtenBytes.Inside (countRead tokens seqNumber n mem .answered) := by
  obtain ⟨extra, hread⟩ := exists_countRead_answered tokens seqNumber mem hlow hhigh
  have harg := length_arg_countAnswer tokens seqNumber hlow hhigh
  have hlen := length_decimalInt_le_twenty hlow hhigh
  rw [DecodeSite.inside_iff, hread, ReadResult.delivered, pDecode_overlay_pEncode harg, ← harg,
    arg_countAnswer]
  refine .inr ?_
  change 22 + (decimalInt n).length ≤ 50
  omega

/-- The digits behind the argument end where the string does. -/
theorem takeWhile_isDigit_ofMemory (m : List UInt8) :
    (CString.ofMemory m).bytes.takeWhile isDigit = m.takeWhile isDigit := by
  have hdigit : (fun b : UInt8 => decide (isDigit b = true ∧ (b != 0) = true)) = isDigit := by
    funext b
    by_cases hb : isDigit b = true
    · simp [hb, (isDigit_facts hb).2.2.2]
    · simp [hb]
  rw [CString.bytes_ofMemory, List.takeWhile_takeWhile, hdigit]

/-- `written_bytes` reads the number, and the digits behind the argument. -/
theorem writtenBytes_answered {n : ℤ} (hlow : -2 ^ 63 ≤ n) (hhigh : n < 2 ^ 63) :
    writtenBytes (countReply mem (countRead tokens seqNumber n mem .answered)) =
      max (-2 ^ 63) (min (2 ^ 63 - 1) (extended n (mem.behindArg.takeWhile isDigit))) := by
  obtain ⟨extra, hread⟩ := exists_countRead_answered tokens seqNumber mem hlow hhigh
  have harg := length_arg_countAnswer tokens seqNumber hlow hhigh
  have hpos : 0 < (countRead tokens seqNumber n mem .answered).bytes := by
    have hencoded := length_pEncode harg
    rw [hread, ReadResult.delivered, List.length_append, hencoded, headerSize]
    push_cast
    omega
  rw [writtenBytes, countReply, DecodeSite.decode_of_pos _ hpos]
  simp only
  rw [hread, ReadResult.delivered, pDecode_overlay_pEncode harg, arg_countAnswer, atol,
    CString.bytes_ofMemory_append (zero_notMem_decimalInt n), leadingInt_decimalInt_append,
    takeWhile_isDigit_ofMemory]

end Answered

/-! ### The client -/

/-- `file_write` returns the low 32 bits of the number that the master returns. -/
theorem fileWriteResult_of_reply (tokens : Tokens) (seqNumber : UInt32) (n : ℤ)
    (mem : ExchangeMemory) {x : WriteExchange} {val : ℤ} (hx : x ≠ .clientSilent)
    (hval : writtenBytes (countReply mem (countRead tokens seqNumber n mem x)) = val)
    (hlow : -2 ^ 63 ≤ val) (hhigh : val < 2 ^ 63) :
    fileWriteResult tokens seqNumber n mem x = some (val.bmod (2 ^ 32) % 2 ^ 64) := by
  have hlen := length_decimalInt_le_twenty hlow hhigh
  have hreads : replyReads val x = [decimalInt val ++ [0]] := by
    rw [← bytes_long2str]
    cases x with
    | answered => rfl
    | masterSilent s => rfl
    | clientSilent => exact absurd rfl hx
  have hshort : ((replyReads val x).headD []).length < 1000 := by
    rw [hreads, List.headD_cons, List.length_append, List.length_singleton]
    omega
  rw [fileWriteResult]
  simp only [hval]
  rw [readAll_of_short mem.fresh hshort, hreads, List.headD_cons, slot, Option.map_some,
    Interface.written, atoi, List.append_assoc, List.append_assoc, List.singleton_append,
    atol_of_bytes hlow hhigh (bytes_ofMemory_decimalInt val _)]

/-! ### The number that is returned -/

theorem extended_nonneg {v : ℤ} (hv : 0 ≤ v) (ds : List UInt8) : 0 ≤ extended v ds := by
  rw [extended, if_neg (not_lt.mpr hv)]
  positivity

theorem extended_neg {v : ℤ} (hv : v < 0) (ds : List UInt8) : extended v ds < 0 := by
  have hshift : v * 10 ^ ds.length < 0 := mul_neg_of_neg_of_pos hv (by positivity)
  rw [extended, if_pos hv]
  omega

/-- The low 32 bits of a number that is clamped to 64 bits. -/
theorem bmod_clamp_iff {n e : ℤ} (hlow : -1 ≤ n) (hhigh : n < 2 ^ 31) (hsign : n < 0 ↔ e < 0) :
    (max (-2 ^ 63) (min (2 ^ 63 - 1) e)).bmod (2 ^ 32) % 2 ^ 64 = n % 2 ^ 64 ↔
      -2 ^ 63 ≤ e ∧ e < 2 ^ 63 ∧ (2 ^ 32 : ℤ) ∣ e - n := by
  rw [Int.bmod_def]
  split_ifs <;> omega

/-- The digits that lie behind the argument do not show. -/
def ExchangeMemory.KeepsNumber (mem : ExchangeMemory) (n : ℤ) : Prop :=
  -2 ^ 63 ≤ extended n (mem.behindArg.takeWhile isDigit) ∧
    extended n (mem.behindArg.takeWhile isDigit) < 2 ^ 63 ∧
    (2 ^ 32 : ℤ) ∣ extended n (mem.behindArg.takeWhile isDigit) - n

/-- Memory that is filled with zeros. -/
def zeroMemory : ExchangeMemory := ⟨fun _ => 0, fun _ => 0, [], fun _ _ => 0, []⟩

section Results

variable (tokens : Tokens) (seqNumber : UInt32) (n : WriteCount)

theorem fileWriteResult_answered_iff (mem : ExchangeMemory) :
    fileWriteResult tokens seqNumber n.val mem .answered = some (n.val % 2 ^ 64) ↔
      mem.KeepsNumber n.val := by
  have hlow := n.le
  have hhigh := n.lt
  have hsign : n.val < 0 ↔ extended n.val (mem.behindArg.takeWhile isDigit) < 0 :=
    ⟨fun h => extended_neg h _, fun h => not_le.mp fun hle => not_lt.mpr (extended_nonneg hle _) h⟩
  rw [fileWriteResult_of_reply tokens seqNumber n.val mem (by decide)
    (writtenBytes_answered tokens seqNumber mem (by omega) (by omega)) (by omega) (by omega),
    Option.some_inj]
  exact bmod_clamp_iff hlow hhigh hsign

/-- A read that fails is told from an answer, a closed connection is not. -/
theorem fileWriteResult_masterSilent_iff (s : Silence) :
    (∀ mem, fileWriteResult tokens seqNumber n.val mem (.masterSilent s) = some ((-1) % 2 ^ 64)) ↔
      s = .failed := by
  cases s with
  | closed =>
    refine iff_of_false (fun h => ?_) (by decide)
    have hzero : writtenBytes (countReply zeroMemory (countRead tokens seqNumber n.val zeroMemory
        (.masterSilent .closed))) = 0 := by
      change writtenBytes ⟨1, .failed 0 fun _ => 0, []⟩ = 0
      decide
    have hresult := fileWriteResult_of_reply tokens seqNumber n.val zeroMemory
      (by decide) hzero (by decide) (by decide)
    rw [h zeroMemory] at hresult
    exact absurd hresult (by decide)
  | failed =>
    refine iff_of_true (fun mem => ?_) rfl
    exact @fileWriteResult_of_reply tokens seqNumber n.val mem (.masterSilent .failed) (-1)
      (by decide) rfl (by decide) (by decide)

/-- A block that starts with a terminator is read as zero. -/
theorem written_zero_cons (rest : List UInt8) : Interface.written (0 :: rest) = 0 := by
  have hnil : (CString.ofMemory (0 :: rest)).bytes = [] := rfl
  rw [Interface.written, atoi, atol, hnil]
  decide

/-- Without a reply, `file_write` reads the fresh block. -/
theorem not_fileWriteResult_clientSilent :
    ¬ ∀ mem, fileWriteResult tokens seqNumber n.val mem .clientSilent = some ((-1) % 2 ^ 64) := by
  intro h
  have hslot : slot 1000 (fun _ => 0) 0 [] = 0 :: window (fun _ => 0) 1 999 := by
    rw [slot, List.nil_append, List.length_nil, Nat.sub_zero, window_succ]
  have hblock : readAll zeroMemory.fresh [] = some (0 :: window (fun _ => 0) 1 999) := by
    rw [@readAll_of_short zeroMemory.fresh [] (Nat.zero_lt_succ 999), List.headD_nil, ← hslot]
    rfl
  have hresult := h zeroMemory
  rw [fileWriteResult] at hresult
  simp only [replyReads, hblock, Option.map_some, List.cons_append, written_zero_cons] at hresult
  exact absurd hresult (by decide)

end Results

/-- **The number of bytes written.** For every number that `fs_write_file` returns: `file_write`
returns it if and only if the digits behind the block of the decoded argument do not show. When
the master receives no answer, `-1` is returned whatever the memory contains if and only if the
read fails; when the client receives none, it is not. -/
theorem fileWriteResult_iff (tokens : Tokens) (seqNumber : UInt32) (n : WriteCount) :
    (∀ mem, fileWriteResult tokens seqNumber n.val mem .answered = some (n.val % 2 ^ 64) ↔
      mem.KeepsNumber n.val) ∧
    (∀ s, (∀ mem, fileWriteResult tokens seqNumber n.val mem (.masterSilent s) =
      some ((-1) % 2 ^ 64)) ↔ s = .failed) ∧
    ¬ ∀ mem, fileWriteResult tokens seqNumber n.val mem .clientSilent = some ((-1) % 2 ^ 64) :=
  ⟨fileWriteResult_answered_iff tokens seqNumber n,
    fileWriteResult_masterSilent_iff tokens seqNumber n,
    not_fileWriteResult_clientSilent tokens seqNumber n⟩

/-- Five bytes, with the digit `7` behind the argument. -/
theorem not_forall_fileWriteResult : ¬ ∀ (tokens : Tokens) (seqNumber : UInt32) (n : WriteCount)
    (mem : ExchangeMemory),
    fileWriteResult tokens seqNumber n.val mem .answered = some (n.val % 2 ^ 64) := by
  intro h
  have hresult := h ⟨0, 0⟩ 1 ⟨5, by decide, by decide⟩ { zeroMemory with behindArg := [55] }
  rw [fileWriteResult_answered_iff] at hresult
  exact absurd hresult.2.2 (by decide)

end PekarDrive
