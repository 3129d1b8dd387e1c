import PekarDrive.Foundation.Threads
import PekarDrive.Packet.Codec
import PekarDrive.Worker.FileSystem

/-!
# File operations of a worker

`src/server/file_exec.c`. Everything here runs under the one mutex of that file. A file operation
and a packet sent are calls of the program (`PekarDrive.WorkerEvent`), so a run keeps a record of
them, in order; the state is the file system.

`f_exec` tests the bits of the operation one after the other, and leaves its result unset when
none of the four is set.

Allocated sizes are not limits here: what is stored past the end of a block stays readable behind
it, and what has not been stored is given by `PekarDrive.WorkerHeap`. The functions that stop where
they leave their blocks are those of `PekarDrive.Worker.Confined`.

## Main definitions

* `PekarDrive.FileOp`, `PekarDrive.WorkerEvent`, `PekarDrive.WorkerProg`, `PekarDrive.WorkerHeap`.
* `PekarDrive.FileOutput`, `PekarDrive.Uninit`.
* `PekarDrive.fExec`, `PekarDrive.fileList`.

## Main results

* `PekarDrive.fExec_fileRead` and its siblings: `f_exec` for one operation.
* `PekarDrive.DoesOnce`: an operation that is carried out once, and its result can be answered.
-/

namespace PekarDrive

open CMemory CText LockedThreads

/-! ### Programs of a worker -/

/-- A file operation. -/
inductive FileOp
  | read (file : CString)
  | write (file data : CString)
  | append (file data : CString)
  | delete (file : CString)
  | list (dir : CString)
  deriving DecidableEq

/-- The type of request that names the operation. -/
def FileOp.type : FileOp → MsgType
  | read _ => .read
  | write _ _ => .write
  | append _ _ => .append
  | delete _ => .delete
  | list _ => .ls

/-- What a worker does that others can see. -/
inductive WorkerEvent
  /-- A file operation. -/
  | op (o : FileOp)
  /-- Bytes sent to the client. -/
  | send (bytes : List UInt8)

/-- A program of a worker. -/
abbrev WorkerProg (α : Type) := Prog WorkerEvent Unit FileSystem α

/-- What a worker is set up with. -/
structure WorkerSetup where
  /-- The tokens. -/
  tokens : Tokens
  /-- The operating system. -/
  os : Os
  /-- The static variable `work_dir`. -/
  workDir : Option CString
  /-- `WORKER_DIR`. -/
  workerDir : CString

/-- The memory around the blocks that the functions of a worker allocate. -/
structure WorkerHeap where
  /-- Behind the argument block of `p_decode`. -/
  behindArg : List UInt8
  /-- Behind the block of `file_name`. -/
  behindName : List UInt8
  /-- Behind the bytes stored by `fs_read_file`. -/
  behindRead : List UInt8
  /-- Behind the block `out` of `read_file`. -/
  behindOut : List UInt8
  /-- From the fresh block of `file_list_to_str` on. -/
  lsBlock : List UInt8
  /-- Behind the block of `p_encode`. -/
  behindSent : Mem

/-- The struct `file_output`; `out` is the memory at the pointer, if it points to any. -/
structure FileOutput where
  /-- Nonzero when the operation is to be reported as failed. -/
  error : Int16
  /-- The output. -/
  out : Option (List UInt8)
  /-- The length of the output. -/
  len : UInt32

/-- What the uninitialised local variables hold. -/
structure Uninit where
  /-- `op` in `handle_client`. -/
  op : UInt16
  /-- `output` in `f_exec`. -/
  output : FileOutput

/-- `FILE_READ`. -/
def fileRead : UInt16 := 1

/-- `FILE_WRITE`. -/
def fileWrite : UInt16 := 2

/-- `FILE_APPEND`. -/
def fileAppend : UInt16 := 4

/-- `FILE_DELETE`. -/
def fileDelete : UInt16 := 8

/-! ### The operations -/

section Operations

variable (setup : WorkerSetup) (heap : WorkerHeap)

/-- Where the loops of `file_name` and `buffer` find the separator. Their counter has 32 bits; a
search that does not end before it goes round never ends. -/
def sepIndex (ptr : List UInt8) : Option ℕ := (ptr.take (2 ^ 32)).findIdx? fun b => b == 59

/-- `read_file`. As many bytes are copied as the 32 bits of the length say; whether they have room is
the question of `PekarDrive.CopyFits`. -/
def readFile (fileName : CString) : WorkerProg FileOutput := do
  let _ ← Prog.ask (.op (.read fileName))
  let fs ← Prog.read
  match fsReadFile setup.workDir fileName fs with
  | none => Prog.fault
  | some read =>
    let text := CString.ofMemory (read.bytes ++ heap.behindRead)
    let readLen := UInt32.ofNat text.strlen
    return ⟨0, some (text.bytes.take readLen.toNat ++ heap.behindOut), readLen⟩

/-- `write_file`. -/
def writeFile (fileName buffer : CString) (isappend : Bool) : WorkerProg FileOutput := do
  let _ ← Prog.ask (.op (if isappend then .append fileName buffer else .write fileName buffer))
  let fs ← Prog.read
  let (bytes, fs') := fsWriteFile setup.workDir fileName buffer isappend fs
  Prog.write fs'
  let out := decimalInt bytes
  return ⟨0, some (out ++ [0]), UInt32.ofNat out.length⟩

/-- `delete_file`. -/
def deleteFile (fileName : CString) : WorkerProg FileOutput := do
  let _ ← Prog.ask (.op (.delete fileName))
  let fs ← Prog.read
  Prog.write (fsDeleteFile setup.os setup.workDir fileName fs)
  return ⟨0, some [0], 0⟩

/-- `write_file` on the two parts of the argument, as `f_exec` calls it. The text is what lies
behind the counter of `buffer`, which is one more than the index. -/
def writeParts (arg : List UInt8) (isappend : Bool) : WorkerProg FileOutput :=
  match sepIndex arg with
  | none => Prog.fault
  | some sep => writeFile setup (CString.ofMemory (strncpy arg sep ++ heap.behindName))
      (CString.ofMemory (arg.drop ((sep + 1) % 2 ^ 32))) isappend

/-- `f_exec`. -/
def fExec (op : UInt16) (arg : List UInt8) (uninit : FileOutput) : WorkerProg FileOutput := do
  Prog.acquire
  let output ← if op &&& fileRead ≠ 0 then readFile setup heap (CString.ofMemory arg)
    else pure uninit
  let output ← if op &&& fileWrite ≠ 0 then writeParts setup heap arg false else pure output
  let output ← if op &&& fileAppend ≠ 0 then writeParts setup heap arg true else pure output
  let output ← if op &&& fileDelete ≠ 0 then deleteFile setup (CString.ofMemory arg)
    else pure output
  Prog.release
  return output

/-- `file_list`: the names, or none when the directory cannot be opened. The blocks of the names are
those of `PekarDrive.NamesFit`. -/
def fileList (dir : CString) : WorkerProg (List CString) := do
  Prog.acquire
  let _ ← Prog.ask (.op (.list dir))
  let fs ← Prog.read
  match fs.opendir dir with
  | none =>
    Prog.release
    return []
  | some names =>
    Prog.release
    return setup.os.readdirOrder (names.map CString.ofMemory)

/-! ### What the operations may do -/

section Within

variable {P : WorkerEvent → Prop} (hP : ∀ o, P (.op o))

include hP

theorem within_readFile (fileName : CString) : (readFile setup heap fileName).Within True P := by
  simp only [readFile, Prog.ask_bind, Prog.read_bind]
  refine ⟨hP _, fun _ fs => ?_⟩
  beta_reduce
  split <;> exact trivial

theorem within_writeParts (arg : List UInt8) (isappend : Bool) :
    (writeParts setup heap arg isappend).Within True P := by
  unfold writeParts
  split
  · exact trivial
  · exact ⟨hP _, fun _ _ => ⟨trivial, trivial⟩⟩

theorem within_fExec (op : UInt16) (arg : List UInt8) (uninit : FileOutput) :
    (fExec setup heap op arg uninit).Within True P := by
  -- an operation that its bit selects, and what follows it in either case
  have hif : ∀ {c : Prop} {_ : Decidable c} {p : WorkerProg FileOutput} {output : FileOutput}
      {k : FileOutput → WorkerProg FileOutput}, p.Within True P → (∀ o, (k o).Within True P) →
      (if c then p >>= k else pure output >>= k).Within True P := by
    intro c _ p output k hp hk
    split
    · exact hp.bind hk
    · exact hk output
  have hdelete : (deleteFile setup (CString.ofMemory arg)).Within True P :=
    ⟨hP _, fun _ _ => ⟨trivial, trivial⟩⟩
  rw [fExec, Prog.acquire_bind, Prog.Within]
  refine hif (within_readFile setup heap hP _) fun _ => ?_
  refine hif (within_writeParts setup heap hP arg false) fun _ => ?_
  refine hif (within_writeParts setup heap hP arg true) fun _ => ?_
  exact hif hdelete fun _ => trivial

theorem within_fileList (dir : CString) : (fileList setup dir).Within True P := by
  simp only [fileList, Prog.acquire_bind, Prog.ask_bind, Prog.read_bind]
  refine ⟨hP _, fun _ fs => ?_⟩
  beta_reduce
  split <;> exact trivial

end Within

/-! ### One operation -/

/-- A program under the mutex. -/
def locked (p : WorkerProg FileOutput) : WorkerProg FileOutput :=
  .lock (p >>= fun output => .unlock (.ret output))

variable (arg : List UInt8) (uninit : FileOutput)

theorem fExec_fileRead : fExec setup heap fileRead arg uninit =
    locked (readFile setup heap (CString.ofMemory arg)) := by
  have hread : fileRead ≠ 0 := by decide
  have hwrite : fileRead &&& fileWrite = 0 := by decide
  have happend : fileRead &&& fileAppend = 0 := by decide
  have hdelete : fileRead &&& fileDelete = 0 := by decide
  simp [fExec, locked, hread, hwrite, happend, hdelete]

theorem fExec_fileWrite :
    fExec setup heap fileWrite arg uninit = locked (writeParts setup heap arg false) := by
  have hread : fileWrite &&& fileRead = 0 := by decide
  have hwrite : fileWrite ≠ 0 := by decide
  have happend : fileWrite &&& fileAppend = 0 := by decide
  have hdelete : fileWrite &&& fileDelete = 0 := by decide
  simp [fExec, locked, hread, hwrite, happend, hdelete]

theorem fExec_fileAppend :
    fExec setup heap fileAppend arg uninit = locked (writeParts setup heap arg true) := by
  have hread : fileAppend &&& fileRead = 0 := by decide
  have hwrite : fileAppend &&& fileWrite = 0 := by decide
  have happend : fileAppend ≠ 0 := by decide
  have hdelete : fileAppend &&& fileDelete = 0 := by decide
  simp [fExec, locked, hread, hwrite, happend, hdelete]

theorem fExec_fileDelete : fExec setup heap fileDelete arg uninit =
    locked (deleteFile setup (CString.ofMemory arg)) := by
  have hread : fileDelete &&& fileRead = 0 := by decide
  have hwrite : fileDelete &&& fileWrite = 0 := by decide
  have happend : fileDelete &&& fileAppend = 0 := by decide
  have hdelete : fileDelete ≠ 0 := by decide
  simp [fExec, locked, hread, hwrite, happend, hdelete]

/-- Without one of the four bits, nothing sets the result. -/
theorem fExec_zero : fExec setup heap 0 arg uninit = locked (.ret uninit) := by
  simp [fExec, locked]

variable {arg} {setup heap} {env : List WorkerEvent → WorkerEvent → Unit} {h : List WorkerEvent}
  {fs : FileSystem}

/-- A result that can be answered: no error, and an output. -/
def FileOutput.Answerable (output : FileOutput) : Prop := output.error = 0 ∧ output.out.isSome

/-- A program that does one file operation and returns a result that can be answered. -/
def DoesOnce (env : List WorkerEvent → WorkerEvent → Unit) (h : List WorkerEvent)
    (fs : FileSystem) (t : MsgType) (p : WorkerProg FileOutput) : Prop :=
  ∃ o output fs', p.eval env h fs = (h ++ [.op o], some (output, fs')) ∧ o.type = t ∧
    output.Answerable

/-- Reading a file that cannot be opened hands `NULL` to `strlen`. -/
theorem eval_readFile_of_none {fileName : CString}
    (hopen : fs.fopenRead (setPath setup.workDir fileName) = none) :
    (readFile setup heap fileName).eval env h fs = (h ++ [.op (.read fileName)], none) := by
  have hread : fsReadFile setup.workDir fileName fs = none := by rw [fsReadFile, hopen]
  simp only [readFile, Prog.ask_bind, Prog.read_bind, Prog.eval_call, Prog.eval_get, hread]
  rfl

theorem doesOnce_writeFile (fileName buffer : CString) (isappend : Bool) :
    DoesOnce env h fs (if isappend then .append else .write)
      (writeFile setup fileName buffer isappend) := by
  refine ⟨if isappend then .append fileName buffer else .write fileName buffer, _, _, rfl, ?_,
    rfl, rfl⟩
  cases isappend <;> rfl

theorem doesOnce_writeParts (isappend : Bool) (hsep : (sepIndex arg).isSome) :
    DoesOnce env h fs (if isappend then .append else .write)
      (writeParts setup heap arg isappend) := by
  obtain ⟨sep, hsep⟩ := Option.isSome_iff_exists.mp hsep
  rw [writeParts, hsep]
  exact doesOnce_writeFile _ _ isappend

theorem writeParts_of_none (isappend : Bool) (hsep : sepIndex arg = none) :
    writeParts setup heap arg isappend = .fault := by
  rw [writeParts, hsep]

theorem doesOnce_deleteFile (fileName : CString) :
    DoesOnce env h fs .delete (deleteFile setup fileName) :=
  ⟨.delete fileName, _, _, rfl, rfl, rfl, rfl⟩

theorem DoesOnce.locked {t : MsgType} {p : WorkerProg FileOutput} (hp : DoesOnce env h fs t p) :
    DoesOnce env h fs t (locked p) := by
  obtain ⟨o, output, fs', heval, ho, hout⟩ := hp
  exact ⟨o, output, fs', Prog.eval_bind_of_eq heval _, ho, hout⟩

theorem eval_locked_of_fault {p : WorkerProg FileOutput} {h' : List WorkerEvent}
    (hp : p.eval env h fs = (h', none)) : (locked p).eval env h fs = (h', none) :=
  Prog.eval_bind_of_fault hp _

variable (setup fs) in
/-- The names that `file_list` returns. -/
def listedNames (dir : CString) : List CString :=
  match fs.opendir dir with
  | none => []
  | some names => setup.os.readdirOrder (names.map CString.ofMemory)

theorem eval_fileList (dir : CString) : (fileList setup dir).eval env h fs =
    (h ++ [.op (.list dir)], some (listedNames setup fs dir, fs)) := by
  simp only [fileList, Prog.acquire_bind, Prog.ask_bind, Prog.read_bind, Prog.eval_lock,
    Prog.eval_call, Prog.eval_get]
  rw [listedNames]
  cases fs.opendir dir <;> rfl

end Operations

end PekarDrive
