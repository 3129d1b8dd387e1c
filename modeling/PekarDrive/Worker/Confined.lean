import PekarDrive.Foundation.Blocks
import PekarDrive.Foundation.Confined
import PekarDrive.Worker.Frame
import PekarDrive.Worker.ReadFile
import PekarDrive.Worker.Server

/-!
# Serving a request in bounded memory

`handle_client` of a worker, stopped where the process would leave its memory. `p_decode` copies as
many bytes as the packet announces; `fs_read_file` resizes its block at certain characters only;
`read_file` and `file_name` take the sizes of their blocks modulo `2 ^ 32`; `write_file` prints
into 10 bytes; `file_list` leaves no room for the terminator of a name, and `file_list_to_str` none
for a newline; and `p_encode` adds one to the length of the argument with 32 bits. Whether a store
beyond the size of a block does harm is up to the allocator.

The sizes of the other blocks are those of what is stored in them.

## Main definitions

* `PekarDrive.CarriedOut`: operations that can be carried out.
* `PekarDrive.ContentFits`, `PekarDrive.CopyFits`, `PekarDrive.NumberFits`, `PekarDrive.NameFits`,
  `PekarDrive.NamesFit`, `PekarDrive.JoinFits`, `PekarDrive.EncodeFits`: what has room in the block
  of a function.
* `PekarDrive.FileOp.HasRoom`, `PekarDrive.FileOp.AnswerFits`: the blocks of an operation, and of its
  answer.
* `PekarDrive.readText`, `PekarDrive.lsText`: the texts that are answered.
* `PekarDrive.fExecConfined`, `PekarDrive.handleWorkerClientConfined`.

## Main results

* `PekarDrive.fsWriteFile_cases`: what a write stores and returns.
* `PekarDrive.eval_handleWorkerClientConfined_eq_some_iff`: the runs in bounded memory.
-/

namespace PekarDrive

open CMemory CText LockedThreads

/-! ### What a write returns -/

/-- The operation can be carried out: the file that is read, appended to or deleted exists, and
every open succeeds. -/
def CarriedOut (workDir : Option CString) (fs : FileSystem) : FileOp → Prop
  | .read file => (fs.fopenRead (setPath workDir file)).isSome
  | .write file _ => (fs.fopenWrite (setPath workDir file)).isSome
  | .append file _ => fileExists fs (setPath workDir file) ∧
      (fs.fopenAppend (setPath workDir file)).isSome
  | .delete file => fileExists fs (setPath workDir file)
  | .list _ => False

instance decidableCarriedOut (workDir : Option CString) (fs : FileSystem) :
    (o : FileOp) → Decidable (CarriedOut workDir fs o)
  | .read _ => inferInstanceAs (Decidable (_ = true))
  | .write _ _ => inferInstanceAs (Decidable (_ = true))
  | .append _ _ => inferInstanceAs (Decidable (_ = true ∧ _ = true))
  | .delete _ => inferInstanceAs (Decidable (_ = true))
  | .list _ => inferInstanceAs (Decidable False)

/-- The operation of a WRITE or an APPEND. -/
def writeOp (isappend : Bool) (file data : CString) : FileOp :=
  if isappend then .append file data else .write file data

section Writes

open FileSystem

variable {fs : FileSystem} {workDir : Option CString} {file buffer : CString}

/-- Opening for appending a file that can be read. -/
theorem exists_fopenAppend {path : CString} (hexists : fileExists fs path = true)
    (hopen : (fs.fopenAppend path).isSome) : ∃ p content, p ≠ [] ∧ fs.resolve path = some p ∧
      fs.fopenRead path = some content ∧
      fs.fopenAppend path = some (p, fs.setNode p (.file content true true)) := by
  obtain ⟨content, hread⟩ := Option.isSome_iff_exists.mp hexists
  obtain ⟨⟨p, fs'⟩, happend⟩ := Option.isSome_iff_exists.mp hopen
  obtain ⟨hp, hne, -⟩ := exists_of_fopenFile happend
  refine ⟨p, content, hne, hp, hread, ?_⟩
  have hboth := And.intro hread happend
  simp only [fopenRead, fopenAppend, fopenFile, hp] at hboth ⊢
  split at hboth
  · rename_i content' readable writable hnode
    obtain ⟨hread', hwrite'⟩ := hboth
    split_ifs at hread' hwrite' with hr hw
    obtain rfl := Option.some.inj hread'
    rw [if_pos hw, hr, hw]
  · exact absurd hboth.2 (by simp)
  · exact absurd hboth.1 (by simp)

/-- An append leaves its text behind the content. -/
theorem exists_node_fsWriteFile_append (hexists : fileExists fs (setPath workDir file) = true)
    (hopen : (fs.fopenAppend (setPath workDir file)).isSome) (buffer : CString) :
    (fsWriteFile workDir file buffer true fs).1 =
      (if buffer.strlen < 2 ^ 31 then (buffer.strlen : ℤ) else -1) ∧
    ∃ p content, fs.resolve (setPath workDir file) = some p ∧
      fs.fopenRead (setPath workDir file) = some content ∧
      (fsWriteFile workDir file buffer true fs).2.node p =
        some (.file (content ++ buffer.bytes) true true) := by
  obtain ⟨p, content, hne, hp, hread, happend⟩ := exists_fopenAppend hexists hopen
  simp only [fsWriteFile, hexists, happend, fprintf, node_setNode_self hne, Bool.not_true,
    Bool.and_false, Bool.false_eq_true, if_false, if_true, true_and]
  exact ⟨p, content, hp, hread, node_setNode_self hne⟩

/-- **What is stored.** The string at the pointer, when the operation can be carried out; the result
is its length if it is an `int`, and negative otherwise. -/
theorem fsWriteFile_cases (workDir : Option CString) (file buffer : CString) (isappend : Bool)
    (fs : FileSystem) :
    (¬ CarriedOut workDir fs (writeOp isappend file buffer) ∧
      (fsWriteFile workDir file buffer isappend fs).1 = -1) ∨
    (CarriedOut workDir fs (writeOp isappend file buffer) ∧
      (fsWriteFile workDir file buffer isappend fs).1 =
        (if buffer.strlen < 2 ^ 31 then (buffer.strlen : ℤ) else -1) ∧
      ∃ p readable, fs.resolve (setPath workDir file) = some p ∧
        (fsWriteFile workDir file buffer isappend fs).2.node p =
          some (.file ((if isappend then (fs.fopenRead (setPath workDir file)).getD [] else []) ++
            buffer.bytes) readable true)) := by
  cases isappend with
  | false =>
    cases hopen : fs.fopenWrite (setPath workDir file) with
    | none =>
      refine .inl ⟨?_, congrArg Prod.fst (fsWriteFile_of_none hopen false)⟩
      simp [writeOp, CarriedOut, hopen]
    | some opened =>
      obtain ⟨p, fs'⟩ := opened
      obtain ⟨hresult, readable, hnode⟩ := exists_node_fsWriteFile hopen buffer
      refine .inr ⟨by simp [writeOp, CarriedOut, hopen], hresult, p, readable, ?_, hnode⟩
      exact (exists_of_fopenFile hopen).1
  | true =>
    by_cases hcarried : CarriedOut workDir fs (writeOp true file buffer)
    · obtain ⟨hexists, hopen⟩ := hcarried
      obtain ⟨hresult, p, content, hp, hread, hnode⟩ :=
        exists_node_fsWriteFile_append hexists hopen buffer
      exact .inr ⟨⟨hexists, hopen⟩, hresult, p, true, hp, by rw [hnode, hread]; rfl⟩
    · refine .inl ⟨hcarried, ?_⟩
      by_cases hexists : fileExists fs (setPath workDir file) = true
      · have hnone : fs.fopenAppend (setPath workDir file) = none := by
          by_contra hsome
          exact hcarried ⟨hexists, Option.isSome_iff_ne_none.mpr hsome⟩
        have hwrite : fs.fopenWrite (setPath workDir file) = none :=
          (fopenFile_eq_none_iff _).mp hnone
        exact congrArg Prod.fst (fsWriteFile_of_none hwrite true)
      · simp [fsWriteFile, hexists]

end Writes

/-! ### Blocks -/

section Blocks

variable (a : Allocator)

/-- Every character of a file is stored in the block of `fs_read_file` as it is then. -/
def ContentFits (content : List UInt8) : Prop := ∀ i < content.length,
  i < a.usable (blockSize content (i + 1))

/-- A text of this length has room in the block `out` of `read_file`. -/
def CopyFits (readLen : UInt32) : Prop := readLen.toNat ≤ a.usable (readLen + 1).toNat

/-- A number has room in the block `out` of `write_file`. -/
def NumberFits (n : ℤ) : Prop := (decimalInt n).length + 1 ≤ a.usable 10

/-- The name in an argument has room in the block of `file_name`, whose size is a number of 32
bits. -/
def NameFits (arg : List UInt8) : Prop := ∀ sep ∈ sepIndex arg, sep ≤ a.usable ((sep + 2) % 2 ^ 32)

/-- Every name has room in its block in `file_list`. -/
def NamesFit (names : List CString) : Prop := ∀ name ∈ names, name.strlen + 1 ≤ a.usable name.strlen

/-- Every name and the newline behind it have room in the block of `file_list_to_str` as it is
then. -/
def JoinFits : List CString → CString → Prop
  | [], _ => True
  | [_], _ => True
  | name :: names, files =>
    files.strlen + name.strlen + 2 ≤ a.usable (files.strlen + 1 + name.strlen) ∧
      JoinFits names ((files.append name).append (lit "\n"))

/-- A packet with an argument of this length has room in the block of `p_encode`. -/
def EncodeFits (msgLen : UInt32) : Prop :=
  headerSize + msgLen.toNat ≤ a.usable ((msgLen + 1).toNat + headerSize)

/-- The text of a result has room in the packet that it is answered with. -/
def FileOutput.Encodes (output : FileOutput) : Prop := output.error = 0 → ∀ out ∈ output.out,
  EncodeFits a (UInt32.ofNat (CString.ofMemory out).strlen)

instance (msgLen : UInt32) : Decidable (EncodeFits a msgLen) :=
  inferInstanceAs (Decidable (_ ≤ _))

instance (content : List UInt8) : Decidable (ContentFits a content) :=
  inferInstanceAs (Decidable (∀ i < _, _))

instance (readLen : UInt32) : Decidable (CopyFits a readLen) :=
  inferInstanceAs (Decidable (_ ≤ _))

instance (n : ℤ) : Decidable (NumberFits a n) := inferInstanceAs (Decidable (_ ≤ _))

instance (arg : List UInt8) : Decidable (NameFits a arg) :=
  inferInstanceAs (Decidable (∀ sep ∈ sepIndex arg, _))

instance (names : List CString) : Decidable (NamesFit a names) :=
  inferInstanceAs (Decidable (∀ name ∈ names, _))

instance decidableJoinFits : (names : List CString) → (files : CString) →
    Decidable (JoinFits a names files)
  | [], _ => isTrue trivial
  | [_], _ => isTrue trivial
  | name :: name' :: names, files =>
    have : Decidable (JoinFits a (name' :: names) ((files.append name).append (lit "\n"))) :=
      decidableJoinFits (name' :: names) _
    inferInstanceAs (Decidable (_ ∧ _))

end Blocks

/-! ### Answers -/

/-- The text that an LS is answered with. -/
def lsText (setup : WorkerSetup) (heap : WorkerHeap) (fs : FileSystem) : CString :=
  fileListToStr (listedNames setup fs setup.workerDir) heap.lsBlock

/-- What lies at the block `out` of `read_file` for a content. -/
def readText (heap : WorkerHeap) (content : List UInt8) : List UInt8 :=
  let text := CString.ofMemory (content ++ heap.behindRead)
  text.bytes.take (UInt32.ofNat text.strlen).toNat ++ heap.behindOut

section Answers

theorem strlen_readText (heap : WorkerHeap) (content : List UInt8) :
    (CString.ofMemory (readText heap content)).strlen =
      (CString.ofMemory (content ++ heap.behindRead)).strlen % 2 ^ 32 +
        (CString.ofMemory heap.behindOut).strlen := by
  let text := CString.ofMemory (content ++ heap.behindRead)
  let n := (UInt32.ofNat text.strlen).toNat
  have hn : n = text.strlen % 2 ^ 32 := UInt32.toNat_ofNat'
  have hle : n ≤ text.bytes.length := hn ▸ Nat.mod_le _ _
  have hnul : 0 ∉ text.bytes.take n := fun hmem => text.nulFree (List.mem_of_mem_take hmem)
  change (CString.ofMemory (text.bytes.take n ++ heap.behindOut)).strlen = text.strlen % 2 ^ 32 + _
  rw [CString.strlen, CString.bytes_ofMemory_append hnul, List.length_append,
    List.length_take_of_le hle, hn]
  rfl

variable {setup : WorkerSetup} {heap : WorkerHeap} {env : List WorkerEvent → WorkerEvent → Unit}
  {h : List WorkerEvent} {fs : FileSystem}

/-- A file that can be opened is read to its end. -/
theorem exists_eval_readFile {file : CString} {content : List UInt8}
    (hopen : fs.fopenRead (setPath setup.workDir file) = some content) : ∃ len,
    (readFile setup heap file).eval env h fs =
      (h ++ [.op (.read file)], some (⟨0, some (readText heap content), len⟩, fs)) := by
  have hread : fsReadFile setup.workDir file fs = some (content.foldl readStep ⟨[], 100⟩) := by
    rw [fsReadFile, hopen]
  have hbytes := bytes_foldl_readStep content ⟨[], 100⟩
  rw [List.nil_append] at hbytes
  simp only [readFile, Prog.ask_bind, Prog.read_bind, Prog.eval_call, Prog.eval_get, hread, hbytes]
  exact ⟨_, rfl⟩

theorem doesOnce_readFile {file : CString}
    (hopen : (fs.fopenRead (setPath setup.workDir file)).isSome) :
    DoesOnce env h fs .read (readFile setup heap file) := by
  obtain ⟨content, hcontent⟩ := Option.isSome_iff_exists.mp hopen
  obtain ⟨len, hread⟩ := @exists_eval_readFile setup heap env h fs file content hcontent
  exact ⟨.read file, _, fs, hread, rfl, rfl, rfl⟩

end Answers

/-! ### Operations with room -/

section Room

variable (a : Allocator) (setup : WorkerSetup) (heap : WorkerHeap)

/-- Everything that an operation stores has room in its block. For a listing this is also what
`file_list_to_str` makes of the names. -/
def FileOp.HasRoom (fs : FileSystem) : FileOp → Prop
  | .read file => ∀ content ∈ fs.fopenRead (setPath setup.workDir file), ContentFits a content ∧
      CopyFits a (UInt32.ofNat (CString.ofMemory (content ++ heap.behindRead)).strlen)
  | .write file data => NumberFits a (fsWriteFile setup.workDir file data false fs).1
  | .append file data => NumberFits a (fsWriteFile setup.workDir file data true fs).1
  | .delete _ => True
  | .list dir => ∀ names ∈ fs.opendir dir,
      NamesFit a (setup.os.readdirOrder (names.map CString.ofMemory)) ∧
      JoinFits a (setup.os.readdirOrder (names.map CString.ofMemory))
        (CString.ofMemory heap.lsBlock)

/-- The text that is answered has room in the packet: for a READ the text of the file, with what lies
behind its copy, and for a listing the names, with what lies in the fresh block before them. -/
def FileOp.AnswerFits (fs : FileSystem) : FileOp → Prop
  | .read file => ∀ content ∈ fs.fopenRead (setPath setup.workDir file), EncodeFits a (UInt32.ofNat
      ((CString.ofMemory (content ++ heap.behindRead)).strlen % 2 ^ 32 +
        (CString.ofMemory heap.behindOut).strlen))
  | .list dir => ∀ names ∈ fs.opendir dir, EncodeFits a (UInt32.ofNat
      ((CString.ofMemory heap.lsBlock).strlen + ([10].intercalate ((setup.os.readdirOrder
        (names.map CString.ofMemory)).map CString.bytes)).length))
  | _ => True

instance decidableHasRoom (fs : FileSystem) : (o : FileOp) → Decidable (o.HasRoom a setup heap fs)
  | .read _ => inferInstanceAs (Decidable (∀ content ∈ fs.fopenRead _, _ ∧ _))
  | .write _ _ => inferInstanceAs (Decidable (NumberFits _ _))
  | .append _ _ => inferInstanceAs (Decidable (NumberFits _ _))
  | .delete _ => isTrue trivial
  | .list dir => inferInstanceAs (Decidable (∀ names ∈ fs.opendir dir, _ ∧ _))

/-- What a worker does stays in its blocks. -/
def StaysInside (fs : FileSystem) : WorkerEvent → Unit → Prop
  | .op o, _ => o.HasRoom a setup heap fs
  | .send bytes, _ => EncodeFits a (UInt32.ofNat (announced bytes))

instance decidableStaysInside (fs : FileSystem) : (e : WorkerEvent) → (u : Unit) →
    Decidable (StaysInside a setup heap fs e u)
  | .op o, _ => decidableHasRoom a setup heap fs o
  | .send _, _ => inferInstanceAs (Decidable (EncodeFits a _))

/-- `file_name` has room, for an operation that calls it. -/
def ArgFits (op : UInt16) (arg : List UInt8) : Prop :=
  op &&& (fileWrite ||| fileAppend) ≠ 0 → NameFits a arg

instance (op : UInt16) (arg : List UInt8) : Decidable (ArgFits a op arg) :=
  inferInstanceAs (Decidable (_ → _))

/-- `f_exec`, in the memory that an allocator gives. -/
def fExecConfined (op : UInt16) (arg : List UInt8) (uninit : FileOutput) :
    WorkerProg FileOutput := do
  Prog.require (ArgFits a op arg)
  (fExec setup heap op arg uninit).confined (StaysInside a setup heap)

/-- The operation that the `switch` of `handle_client` comes to. -/
def opCode (type : UInt32) (uninit : UInt16) : UInt16 :=
  match MsgType.ofCode type with
  | some .read => fileRead
  | some .write => fileWrite
  | some .append => fileAppend
  | some .delete => fileDelete
  | _ => uninit

/-- The argument of a WRITE or an APPEND has room: the name in its block, and the length of the text
in the block of the result, where the text can be stored. -/
def WriteFits (fs : FileSystem) (arg : List UInt8) (isappend : Bool) : Prop :=
  ∀ sep ∈ sepIndex arg,
    let file := CString.ofMemory (strncpy arg sep ++ heap.behindName)
    let data := CString.ofMemory (arg.drop ((sep + 1) % 2 ^ 32))
    sep ≤ a.usable ((sep + 2) % 2 ^ 32) ∧
      (CarriedOut setup.workDir fs (writeOp isappend file data) → data.strlen < 2 ^ 31 →
        NumberFits a data.strlen)

/-- The packet has the token of the master and is handed to `f_exec`. -/
def Executes (r : ReadResult) : Prop :=
  0 < r.bytes ∧ (pDecode r.buffer).val.token = setup.tokens.masterTkn ∧
    (pDecode r.buffer).val.msgType ≠ MsgType.ping.code ∧
    (pDecode r.buffer).val.msgType ≠ MsgType.ls.code

instance (r : ReadResult) : Decidable (Executes setup r) :=
  inferInstanceAs (Decidable (_ ∧ _ ∧ _ ∧ _))

/-- `handle_client`, in the memory that an allocator gives. -/
def handleWorkerClientConfined (uninit : Uninit) (r : ReadResult) : WorkerProg Unit := do
  Prog.require (DecodeSite.workerClient.Inside r)
  Prog.require (Executes setup r → ArgFits a (opCode (pDecode r.buffer).val.msgType uninit.op)
    ((pDecode r.buffer).val.arg ++ heap.behindArg))
  (handleWorkerClient setup heap uninit r).confined (StaysInside a setup heap)

end Room

/-! ### What has room -/

section Fits

variable {a : Allocator}

/-- The sizes are those of `fs_read_file`. -/
theorem contentFits_iff {content : List UInt8} : ContentFits a content ↔ ∀ i < content.length,
    i < a.usable ((content.take (i + 1)).foldl readStep ⟨[], 100⟩).allocated :=
  forall₂_congr fun _ hi => by rw [allocated_take content (Nat.succ_le_of_lt hi)]

/-- A block that is resized in time has room. -/
theorem ResizedInTime.contentFits {content : List UInt8} (h : ResizedInTime content) :
    ContentFits a content := contentFits_iff.mpr fun i hi =>
  ((resizedInTime_iff content).mp h i hi).trans_le (a.le_usable _)

/-- Numbers of at most nine digits have room. -/
theorem numberFits_of_lt {n : ℕ} (h : n < 10 ^ 9) : NumberFits a n := by
  have hlen : (decimalInt n).length ≤ 9 := (length_decimal_le_iff (by decide)).mpr h
  have hten : 10 ≤ a.usable 10 := a.le_usable 10
  rw [NumberFits]
  omega

/-- The result of a write that fails has room. -/
theorem numberFits_neg_one : NumberFits a (-1) := by
  have hlen : (decimalInt (-1)).length = 2 := by decide
  have hten : 10 ≤ a.usable 10 := a.le_usable 10
  rw [NumberFits]
  omega

/-- Arguments of less than `2 ^ 32 - 1` bytes have room. -/
theorem encodeFits_of_lt {n : ℕ} (h : n < 2 ^ 32 - 1) : EncodeFits a (UInt32.ofNat n) := by
  have hsucc : (UInt32.ofNat n + 1).toNat = n + 1 := by
    rw [counter_add_one, toNat_counter (by omega)]
  have hsize := a.le_usable (n + 1 + headerSize)
  rw [EncodeFits, toNat_counter (by omega), hsucc]
  omega

/-- The text that is answered to an LS. -/
theorem encodeFits_lsText_iff {setup : WorkerSetup} {heap : WorkerHeap} {fs : FileSystem} :
    EncodeFits a (UInt32.ofNat (lsText setup heap fs).strlen) ↔
      (FileOp.list setup.workerDir).AnswerFits a setup heap fs := by
  rw [lsText, listedNames, FileOp.AnswerFits]
  cases hopen : fs.opendir setup.workerDir with
  | none =>
    refine iff_of_true ?_ fun names hnames => absurd hnames (by simp)
    exact encodeFits_of_lt (show (lit "").strlen < 2 ^ 32 - 1 by decide)
  | some names =>
    have hperm := setup.os.perm_readdirOrder (names.map CString.ofMemory)
    have hne : (setup.os.readdirOrder (names.map CString.ofMemory)).length ≠ 0 := by
      rw [hperm.length_eq, List.length_map]
      exact mt List.length_eq_zero_iff.mp (FileSystem.ne_nil_of_opendir hopen)
    simp only [fileListToStr, if_neg hne, CString.strlen, bytes_fileListLoop, List.length_append,
      Option.mem_def, Option.some.injEq, forall_eq']

/-- The number of a write has room in an answer. -/
theorem encodes_of_fsWriteFile (workDir : Option CString) (file data : CString) (isappend : Bool)
    (fs : FileSystem) (len : UInt32) :
    (FileOutput.mk 0 (some (decimalInt (fsWriteFile workDir file data isappend fs).1 ++ [0]))
      len).Encodes a := by
  have hrange : -1 ≤ (fsWriteFile workDir file data isappend fs).1 ∧
      (fsWriteFile workDir file data isappend fs).1 < 2 ^ 31 := by
    rcases fsWriteFile_cases workDir file data isappend fs with ⟨-, hresult⟩ | ⟨-, hresult, -⟩
    · rw [hresult]
      decide
    · rw [hresult]
      split_ifs <;> omega
  intro _ out hout
  obtain rfl := Option.some.inj hout
  rw [CString.strlen, bytes_ofMemory_decimalInt]
  refine encodeFits_of_lt (lt_of_le_of_lt ?_ (show 11 < 2 ^ 32 - 1 by decide))
  exact (length_decimalInt_le_iff (by decide)).mpr (by omega)

/-- The result of a write has room if the length of what has been written has. -/
theorem numberFits_fsWriteFile_iff {workDir : Option CString} {file data : CString}
    {isappend : Bool} {fs : FileSystem} :
    NumberFits a (fsWriteFile workDir file data isappend fs).1 ↔
      (CarriedOut workDir fs (writeOp isappend file data) → data.strlen < 2 ^ 31 →
        NumberFits a data.strlen) := by
  rcases fsWriteFile_cases workDir file data isappend fs with
    ⟨hnot, hresult⟩ | ⟨hcarried, hresult, -⟩
  · rw [hresult]
    exact iff_of_true numberFits_neg_one fun hcarried => absurd hcarried hnot
  · rw [hresult, forall_prop_of_true hcarried]
    split_ifs with hlen
    · exact ⟨fun hfits _ => hfits, fun hfits => hfits hlen⟩
    · exact iff_of_true numberFits_neg_one fun hlt => absurd hlt hlen

end Fits

/-! ### Runs in bounded memory -/

section Runs

variable {a : Allocator} {setup : WorkerSetup} {heap : WorkerHeap}
  {env : List WorkerEvent → WorkerEvent → Unit} {h : List WorkerEvent} {fs : FileSystem}

theorem keeps_sendPacket_iff (p : Packet) {len : ℕ} (hlen : 8 ≤ len) :
    (sendPacket heap p len).Keeps (StaysInside a setup heap) env h fs ↔
      EncodeFits a p.msgLen := by
  have hmsgLen : (pDecode (overlay (pEncode p) heap.behindSent)).val.msgLen = p.msgLen :=
    (pDecode_header p _ _).2.1
  refine (and_iff_left trivial).trans ?_
  rw [StaysInside, connWrite, announced_window _ hlen, hmsgLen, UInt32.ofNat_toNat]

/-- A result is answered inside the block of the packet if its text has room. -/
theorem keeps_answerClient_iff (seqNumber type : UInt32) (output : FileOutput) :
    (answerClient setup heap seqNumber type output).Keeps (StaysInside a setup heap) env h fs ↔
      output.Encodes a := by
  have hlen : 8 ≤ sizeofPacket + output.len.toNat + 1 := by
    have hsize : 8 ≤ sizeofPacket := by decide
    omega
  obtain ⟨error, out, len⟩ := output
  unfold answerClient
  split_ifs with herror
  · refine iff_of_true ((keeps_sendPacket_iff _ hlen).mpr ?_) fun hzero => absurd hzero herror
    have htext : (errorText type).strlen < 2 ^ 32 - 1 := by
      unfold errorText
      split_ifs <;> decide
    exact encodeFits_of_lt htext
  · cases out with
    | none => exact iff_of_true trivial fun _ out hout => absurd hout (by simp)
    | some out =>
      refine (keeps_sendPacket_iff _ hlen).trans ?_
      rw [FileOutput.Encodes, forall_prop_of_true (not_not.mp herror)]
      simp only [Option.mem_def, Option.some.injEq, forall_eq']
      rfl

theorem keeps_locked_iff {p : WorkerProg FileOutput} :
    (locked p).Keeps (StaysInside a setup heap) env h fs ↔
      p.Keeps (StaysInside a setup heap) env h fs :=
  Prog.keeps_bind.trans (and_iff_left fun _ _ _ _ => trivial)

/-- An operation and its answer. -/
theorem keeps_locked_bind_iff {p : WorkerProg FileOutput} (seqNumber type : UInt32) :
    (locked p >>= fun output => answerClient setup heap seqNumber type output).Keeps
        (StaysInside a setup heap) env h fs ↔
      p.Keeps (StaysInside a setup heap) env h fs ∧
      ∀ io output fs', p.eval env h fs = (io, some (output, fs')) → output.Encodes a := by
  rw [Prog.keeps_bind, keeps_locked_iff]
  simp only [keeps_answerClient_iff]
  refine and_congr_right fun _ => ⟨fun hall io output fs' heval =>
    hall io output fs' (Prog.eval_bind_of_eq heval _), fun hall io output fs' heval => ?_⟩
  cases hp : p.eval env h fs with
  | mk io' result =>
    cases result with
    | none =>
      rw [eval_locked_of_fault hp] at heval
      exact absurd (congrArg Prod.snd heval) (by simp)
    | some x =>
      have hlocked : (locked p).eval env h fs = (io', some x) := Prog.eval_bind_of_eq hp _
      obtain ⟨rfl, hx⟩ := Prod.mk.inj (hlocked.symm.trans heval)
      obtain rfl := Option.some.inj hx
      exact hall io' output fs' hp

theorem keeps_readFile_iff (fileName : CString) :
    (readFile setup heap fileName).Keeps (StaysInside a setup heap) env h fs ↔
      (FileOp.read fileName).HasRoom a setup heap fs := by
  simp only [readFile, Prog.ask_bind, Prog.read_bind]
  refine and_iff_left ?_
  rw [Prog.Keeps]
  split <;> exact trivial

/-- What a READ is answered with. -/
theorem forall_encodes_readFile_iff (file : CString) :
    (∀ io output fs', (readFile setup heap file).eval env h fs = (io, some (output, fs')) →
        output.Encodes a) ↔ (FileOp.read file).AnswerFits a setup heap fs := by
  rw [FileOp.AnswerFits]
  cases hopen : fs.fopenRead (setPath setup.workDir file) with
  | none =>
    refine iff_of_true (fun io output fs' heval => ?_) fun content hcontent =>
      absurd hcontent (by simp)
    rw [eval_readFile_of_none hopen] at heval
    exact absurd (congrArg Prod.snd heval) (by simp)
  | some content =>
    obtain ⟨len, hread⟩ := @exists_eval_readFile setup heap env h fs file content hopen
    simp only [hread, Option.mem_def, Option.some.injEq, forall_eq', ← strlen_readText]
    constructor
    · exact fun hall => hall _ _ _ rfl rfl _ rfl
    · intro hfits io output fs' heval _ out hout
      obtain ⟨rfl, -⟩ := Prod.mk.inj (Option.some.inj (Prod.mk.inj heval).2)
      obtain rfl := Option.some.inj hout
      exact hfits

theorem keeps_writeFile_iff (fileName buffer : CString) (isappend : Bool) :
    (writeFile setup fileName buffer isappend).Keeps (StaysInside a setup heap) env h fs ↔
      NumberFits a (fsWriteFile setup.workDir fileName buffer isappend fs).1 := by
  cases isappend <;> exact and_iff_left trivial

theorem keeps_writeParts_iff (arg : List UInt8) (isappend : Bool) :
    (writeParts setup heap arg isappend).Keeps (StaysInside a setup heap) env h fs ↔
      ∀ sep ∈ sepIndex arg, NumberFits a (fsWriteFile setup.workDir
        (CString.ofMemory (strncpy arg sep ++ heap.behindName))
        (CString.ofMemory (arg.drop ((sep + 1) % 2 ^ 32))) isappend fs).1 := by
  unfold writeParts
  cases sepIndex arg with
  | none => exact iff_of_true trivial fun sep hsep => absurd hsep (by simp)
  | some sep =>
    rw [keeps_writeFile_iff]
    simp

/-- A write is answered with a number, which has room. -/
theorem encodes_of_eval_writeParts {arg : List UInt8} {isappend : Bool} {io : List WorkerEvent}
    {output : FileOutput} {fs' : FileSystem}
    (heval : (writeParts setup heap arg isappend).eval env h fs = (io, some (output, fs'))) :
    output.Encodes a := by
  unfold writeParts at heval
  cases hsep : sepIndex arg with
  | none =>
    rw [hsep] at heval
    exact absurd (congrArg Prod.snd heval) (by simp)
  | some sep =>
    rw [hsep] at heval
    let file := CString.ofMemory (strncpy arg sep ++ heap.behindName)
    let data := CString.ofMemory (arg.drop ((sep + 1) % 2 ^ 32))
    let out := decimalInt (fsWriteFile setup.workDir file data isappend fs).1
    have hwrite : ((writeFile setup file data isappend).eval env h fs).2 =
        some (⟨0, some (out ++ [0]), UInt32.ofNat out.length⟩,
          (fsWriteFile setup.workDir file data isappend fs).2) := rfl
    obtain ⟨rfl, -⟩ :=
      Prod.mk.inj (Option.some.inj (hwrite.symm.trans (congrArg Prod.snd heval)))
    exact encodes_of_fsWriteFile _ _ _ _ _ _

theorem keeps_deleteFile (fileName : CString) :
    (deleteFile setup fileName).Keeps (StaysInside a setup heap) env h fs := ⟨trivial, trivial⟩

theorem encodes_of_eval_deleteFile {file : CString} {io : List WorkerEvent} {output : FileOutput}
    {fs' : FileSystem}
    (heval : (deleteFile setup file).eval env h fs = (io, some (output, fs'))) :
    output.Encodes a := by
  obtain ⟨rfl, -⟩ := Prod.mk.inj (Option.some.inj (congrArg Prod.snd heval))
  intro _ out hout
  obtain rfl := Option.some.inj hout
  exact encodeFits_of_lt (by decide)

theorem keeps_fileList_iff (dir : CString) :
    (fileList setup dir).Keeps (StaysInside a setup heap) env h fs ↔
      (FileOp.list dir).HasRoom a setup heap fs := by
  simp only [fileList, Prog.acquire_bind, Prog.ask_bind, Prog.read_bind]
  refine and_iff_left ?_
  rw [Prog.Keeps]
  split <;> exact trivial

/-- A WRITE or an APPEND stays inside its blocks. -/
theorem writeFits_iff (arg : List UInt8) (isappend : Bool) :
    NameFits a arg ∧
      (writeParts setup heap arg isappend).Keeps (StaysInside a setup heap) env h fs ↔
      WriteFits a setup heap fs arg isappend := by
  simp only [keeps_writeParts_iff, numberFits_fsWriteFile_iff, NameFits, WriteFits, ← forall₂_and]

/-- `f_exec` returns where it stays inside its blocks. -/
theorem eval_fExecConfined_eq_some_iff {op : UInt16} {arg : List UInt8} {uninit : FileOutput}
    {io : List WorkerEvent} {x : FileOutput × FileSystem} :
    (fExecConfined a setup heap op arg uninit).eval env h fs = (io, some x) ↔ ArgFits a op arg ∧
      (fExec setup heap op arg uninit).Keeps (StaysInside a setup heap) env h fs ∧
      (fExec setup heap op arg uninit).eval env h fs = (io, some x) := by
  rw [fExecConfined, Prog.eval_require_bind_eq_some_iff, Prog.eval_confined_eq_some_iff]

/-- **Runs of `handle_client`.** In bounded memory it returns where it stays inside its blocks. -/
theorem eval_handleWorkerClientConfined_eq_some_iff {uninit : Uninit} {r : ReadResult}
    {io : List WorkerEvent} {x : Unit × FileSystem} :
    (handleWorkerClientConfined a setup heap uninit r).eval env h fs = (io, some x) ↔
      DecodeSite.workerClient.Inside r ∧
      (Executes setup r → ArgFits a (opCode (pDecode r.buffer).val.msgType uninit.op)
        ((pDecode r.buffer).val.arg ++ heap.behindArg)) ∧
      (handleWorkerClient setup heap uninit r).Keeps (StaysInside a setup heap) env h fs ∧
      (handleWorkerClient setup heap uninit r).eval env h fs = (io, some x) := by
  rw [handleWorkerClientConfined, Prog.eval_require_bind_eq_some_iff,
    Prog.eval_require_bind_eq_some_iff, Prog.eval_confined_eq_some_iff]

end Runs

end PekarDrive
