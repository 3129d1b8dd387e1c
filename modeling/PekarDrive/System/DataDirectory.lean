import PekarDrive.System.Authorization
import PekarDrive.System.Separators
import PekarDrive.System.WriteCounts
import PekarDrive.Worker.Directory

/-!
# The directory of a worker

`data_init` of `src/server/boot.c` makes the directory `WORKER_DIR` with a command and sets it as
the working directory. Built without `DEBUG`, this is `~/.PekarDrive`. The interpreter of the
command puts the home directory for the tilde; `fopen` and `opendir` look for an entry `~` in the
current directory. As long as there is none, the worker has no files: whatever it receives, it
changes nothing, and a request that is delivered in full is answered as its own bytes say.

## Main definitions

* `PekarDrive.dataInit`, `PekarDrive.releaseDir`, `PekarDrive.bootSetup`.
* `PekarDrive.Lost`: no path behind the working directory leads anywhere.
* `PekarDrive.lostAnswer`: what is answered then.

## Main results

* `PekarDrive.lost_of_opendir_eq_none`: a directory that cannot be opened.
* `PekarDrive.Lost.leaves_handleWorkerClient`, `PekarDrive.Lost.answersWith_confined`: one
  connection.
* `PekarDrive.workerSession_releaseDir`: any number of connections.
-/

namespace PekarDrive

open CMemory CText LockedThreads

/-! ### Booting -/

/-- `WORKER_DIR`, built without `DEBUG`. -/
def releaseDir : CString := lit "~/.PekarDrive"

/-- `data_init`: the static variable `work_dir`, and the file system behind the command. -/
def dataInit (os : Os) (workerDir : CString) (fs : FileSystem) : Option CString × FileSystem :=
  (some workerDir, os.system ((lit "mkdir ").append workerDir) fs)

/-- The worker that `boot` starts. -/
def bootSetup (tokens : Tokens) (os : Os) (workerDir : CString) (fs : FileSystem) : WorkerSetup :=
  ⟨tokens, os, (dataInit os workerDir fs).1, workerDir⟩

/-- The directory cannot be opened, and no path behind it leads anywhere. -/
structure Lost (setup : WorkerSetup) (fs : FileSystem) : Prop where
  /-- The paths. -/
  resolve : ∀ file, fs.resolve (setPath setup.workDir file) = none
  /-- The directory. -/
  opendir : fs.opendir setup.workerDir = none

/-- What is answered to a request, unless it stops the worker. -/
def lostAnswer (tokens : Tokens) (seqNumber : UInt32) (arg : List UInt8) :
    MsgType → Option Outgoing
  | .ping => SendSite.outgoing tokens (.pingReply seqNumber)
  | .ls => SendSite.outgoing tokens (.lsReply seqNumber (lit ""))
  | .write => (sepIndex arg).bind fun _ =>
    SendSite.outgoing tokens (.answerClient seqNumber MsgType.write.code (countOutput (-1)))
  | .append => (sepIndex arg).bind fun _ =>
    SendSite.outgoing tokens (.answerClient seqNumber MsgType.append.code (countOutput (-1)))
  | .delete =>
    SendSite.outgoing tokens (.answerClient seqNumber MsgType.delete.code ⟨0, some [0], 0⟩)
  | _ => none

/-- What lies behind the argument of a WRITE or an APPEND with a separator makes no difference. -/
theorem lostAnswer_append {tokens : Tokens} {seqNumber : UInt32} {arg behind : List UInt8}
    {t : MsgType} (hlen : arg.length < 2 ^ 32)
    (hsep : t = .write ∨ t = .append → semicolon ∈ arg) :
    lostAnswer tokens seqNumber (arg ++ behind) t = lostAnswer tokens seqNumber arg t := by
  cases t with
  | write => rw [lostAnswer, lostAnswer, sepIndex_append (hsep (.inl rfl)) hlen]
  | append => rw [lostAnswer, lostAnswer, sepIndex_append (hsep (.inr rfl)) hlen]
  | _ => rfl

/-! ### Paths -/

section Paths

variable {fs : FileSystem} {dir : CString}

theorem walk_eq_none {p : Path} {names : List Name} (hne : names ≠ [])
    (hp : ∀ writable, fs.node p ≠ some (.dir writable)) : fs.walk p names = none := by
  obtain ⟨name, rest, rfl⟩ := List.exists_cons_of_ne_nil hne
  unfold FileSystem.walk
  split
  · rename_i writable hnode
    exact absurd hnode (hp writable)
  · rfl

/-- What lies behind a path is looked for where the path leads. -/
theorem exists_resolve_append (fs : FileSystem) (hne : dir.bytes ≠ []) :
    ∃ a bs, ∀ (path : CString) rest, path.bytes = dir.bytes ++ rest →
      fs.resolve path = fs.walk a ((bs ++ rest).splitOn 47) := by
  obtain ⟨b, bs, hdir⟩ := List.exists_cons_of_ne_nil hne
  by_cases hb : b = 47
  · refine ⟨[], bs, fun path rest hpath => ?_⟩
    rw [hdir, hb, List.cons_append] at hpath
    rw [FileSystem.resolve, hpath]
    rfl
  · refine ⟨fs.cwd, b :: bs, fun path rest hpath => ?_⟩
    rw [hdir, List.cons_append] at hpath
    rw [FileSystem.resolve, hpath]
    split
    · rename_i h
      exact absurd h (by simp)
    · rename_i h
      exact absurd (List.cons.inj h).1 hb
    · rfl

/-- **A directory that cannot be opened.** No path behind it leads anywhere. -/
theorem resolve_setPath_of_opendir_eq_none (hne : dir.bytes ≠ []) (h : fs.opendir dir = none)
    (file : CString) : fs.resolve (setPath (some dir) file) = none := by
  have hslash : (lit "/").bytes = [47] := by decide
  have hbytes : (setPath (some dir) file).bytes = dir.bytes ++ 47 :: file.bytes := by
    simp [setPath, hslash]
  obtain ⟨a, bs, hresolve⟩ := exists_resolve_append fs hne
  have hdir := hresolve dir [] (List.append_nil _).symm
  rw [List.append_nil] at hdir
  rw [hresolve _ _ hbytes, splitOn_append_cons, FileSystem.walk_append, ← hdir]
  cases hp : fs.resolve dir with
  | none => rfl
  | some p =>
    refine walk_eq_none (List.splitOn_ne_nil 47 file.bytes) fun writable hnode => ?_
    rw [FileSystem.opendir_of_resolve hp hnode] at h
    exact absurd h (by simp)

/-- The directory of the release build, where there is no entry with the name of a tilde. -/
theorem opendir_releaseDir (h : fs.node (fs.cwd ++ [ascii "~"]) = none) :
    fs.opendir releaseDir = none := by
  have hsplit : releaseDir.bytes.splitOn 47 = [ascii "~", ascii ".PekarDrive"] := by decide
  have hwalk : fs.walk (fs.cwd ++ [ascii "~"]) [ascii ".PekarDrive"] = none :=
    walk_eq_none (List.cons_ne_nil _ _) fun writable => by simp [h]
  have hresolve : fs.resolve releaseDir = none := by
    change fs.walk fs.cwd (releaseDir.bytes.splitOn 47) = none
    rw [hsplit, FileSystem.walk]
    split
    · rw [if_neg (by decide), if_neg (by decide)]
      exact hwalk
    · rfl
  rw [FileSystem.opendir, hresolve]

end Paths

/-- The directory of a worker that has been started is lost if it cannot be opened. -/
theorem lost_of_opendir_eq_none {fs fs' : FileSystem} {dir : CString} (hne : dir.bytes ≠ [])
    (h : fs'.opendir dir = none) (tokens : Tokens) (os : Os) :
    Lost (bootSetup tokens os dir fs) fs' :=
  ⟨resolve_setPath_of_opendir_eq_none hne h, h⟩

/-! ### Programs that do not write -/

section ReadOnly

variable (setup : WorkerSetup) (heap : WorkerHeap)

theorem readOnly_sendPacket (p : Packet) (len : ℕ) : (sendPacket heap p len).ReadOnly :=
  fun _ => trivial

theorem readOnly_answerClient (seqNumber type : UInt32) (output : FileOutput) :
    (answerClient setup heap seqNumber type output).ReadOnly := by
  unfold answerClient
  split
  · exact readOnly_sendPacket heap _ _
  · split
    · exact trivial
    · exact readOnly_sendPacket heap _ _

theorem readOnly_switchOp (seqNumber type : UInt32) (uninit : UInt16) :
    (switchOp setup heap seqNumber type uninit).ReadOnly := by
  unfold switchOp
  split
  · exact trivial
  · exact trivial
  · exact trivial
  · exact trivial
  · exact (readOnly_answerClient setup heap _ _ _).bind fun _ => trivial

theorem readOnly_fileList (dir : CString) : (fileList setup dir).ReadOnly := by
  simp only [fileList, Prog.acquire_bind, Prog.ask_bind, Prog.read_bind]
  refine fun _ fs => ?_
  beta_reduce
  split <;> exact trivial

end ReadOnly

/-! ### The functions of `fs.c` -/

namespace Lost

variable {setup : WorkerSetup} {fs : FileSystem} (h : Lost setup fs)

include h

theorem fopenRead (file : CString) : fs.fopenRead (setPath setup.workDir file) = none := by
  rw [FileSystem.fopenRead, h.resolve]

theorem fileExists (file : CString) : fileExists fs (setPath setup.workDir file) = false := by
  rw [PekarDrive.fileExists, h.fopenRead, Option.isSome_none]

theorem fopenFile (file : CString) (f : List UInt8 → List UInt8) :
    fs.fopenFile (setPath setup.workDir file) f = none := by
  rw [FileSystem.fopenFile, h.resolve]

/-- Nothing is written, and `-1` returned. -/
theorem fsWriteFile (file buffer : CString) (isappend : Bool) :
    fsWriteFile setup.workDir file buffer isappend fs = (-1, fs) := by
  cases isappend with
  | false =>
    simp only [PekarDrive.fsWriteFile, fsCreateFile, h.fileExists, FileSystem.fopenWrite,
      h.fopenFile, Bool.false_and, Bool.false_eq_true, if_false]
  | true =>
    simp only [PekarDrive.fsWriteFile, h.fileExists, Bool.not_false, Bool.and_true, if_true]

/-- No command is given to the interpreter. -/
theorem fsDeleteFile (file : CString) : fsDeleteFile setup.os setup.workDir file fs = fs := by
  simp only [PekarDrive.fsDeleteFile, h.fileExists, Bool.false_eq_true, if_false]

/-! ### Programs -/

theorem leaves_readFile (heap : WorkerHeap) (file : CString) :
    (readFile setup heap file).Leaves fs :=
  Prog.leaves_of_eval_eq_none fun env io => by rw [eval_readFile_of_none (h.fopenRead file)]

theorem eval_writeFile (env : List WorkerEvent → WorkerEvent → Unit) (io : List WorkerEvent)
    (file buffer : CString) (isappend : Bool) :
    (writeFile setup file buffer isappend).eval env io fs =
      (io ++ [.op (if isappend then .append file buffer else .write file buffer)],
        some (countOutput (-1), fs)) := by
  rw [PekarDrive.eval_writeFile, h.fsWriteFile]

theorem eval_deleteFile (env : List WorkerEvent → WorkerEvent → Unit) (io : List WorkerEvent)
    (file : CString) : (deleteFile setup file).eval env io fs =
      (io ++ [.op (.delete file)], some (⟨0, some [0], 0⟩, fs)) := by
  simp only [deleteFile, Prog.ask_bind, Prog.read_bind, Prog.eval_call, Prog.eval_get,
    h.fsDeleteFile]
  rfl

theorem eval_fileList (env : List WorkerEvent → WorkerEvent → Unit) (io : List WorkerEvent) :
    (fileList setup setup.workerDir).eval env io fs =
      (io ++ [.op (.list setup.workerDir)], some ([], fs)) := by
  rw [PekarDrive.eval_fileList, listedNames, h.opendir]

/-- Without a separator the worker stops. -/
theorem exists_eval_writeParts (heap : WorkerHeap) (arg : List UInt8) (isappend : Bool) :
    ∃ events, (writeParts setup heap arg isappend).eval (fun _ _ => ()) [] fs =
      (events, ((sepIndex arg).map fun _ => countOutput (-1)).map fun out => (out, fs)) ∧
      sendsOf events = [] := by
  rw [writeParts]
  cases sepIndex arg with
  | none => exact ⟨[], rfl, rfl⟩
  | some sep => exact ⟨_, h.eval_writeFile _ _ _ _ isappend, rfl⟩

theorem leaves_writeParts (heap : WorkerHeap) (arg : List UInt8) (isappend : Bool) :
    (writeParts setup heap arg isappend).Leaves fs := by
  unfold writeParts
  split
  · exact Prog.leaves_of_eval_eq_none fun _ _ => rfl
  · intro env io x hx
    rw [h.eval_writeFile] at hx
    exact (congrArg Prod.snd (Option.some.inj hx)).symm

theorem leaves_deleteFile (file : CString) : (deleteFile setup file).Leaves fs := by
  intro env io x hx
  rw [h.eval_deleteFile] at hx
  exact (congrArg Prod.snd (Option.some.inj hx)).symm

/-- `f_exec`, whatever the operation. -/
theorem leaves_fExec (heap : WorkerHeap) (op : UInt16) (arg : List UInt8) (uninit : FileOutput) :
    (fExec setup heap op arg uninit).Leaves fs := by
  -- an operation that its bit selects, and what follows it in either case
  have hif : ∀ {c : Prop} {_ : Decidable c} {p : WorkerProg FileOutput} {output : FileOutput}
      {k : FileOutput → WorkerProg FileOutput}, p.Leaves fs → (∀ o, (k o).Leaves fs) →
      (if c then p >>= k else pure output >>= k).Leaves fs := by
    intro c _ p output k hp hk
    split
    · exact hp.bind hk
    · exact hk output
  have hlock : ∀ {k : WorkerProg FileOutput}, k.Leaves fs → (Prog.lock k).Leaves fs :=
    fun hk => hk
  rw [fExec, Prog.acquire_bind]
  refine hlock (hif (h.leaves_readFile heap _) fun _ => ?_)
  refine hif (h.leaves_writeParts heap arg false) fun _ => ?_
  refine hif (h.leaves_writeParts heap arg true) fun _ => ?_
  exact hif (h.leaves_deleteFile _) fun _ env io x hx =>
    (congrArg Prod.snd (Option.some.inj hx)).symm

/-- **No connection changes anything**, whatever is received. -/
theorem leaves_handleWorkerClient (heap : WorkerHeap) (uninit : Uninit) (r : ReadResult) :
    (handleWorkerClient setup heap uninit r).Leaves fs := by
  unfold handleWorkerClient
  split
  · exact Prog.leaves_ret fs ()
  · simp only
    split_ifs
    · exact Prog.leaves_ret fs ()
    · exact (readOnly_sendPacket heap _ _).leaves fs
    · exact ((readOnly_fileList setup _).leaves fs).bind fun names =>
        (readOnly_sendPacket heap _ _).leaves fs
    · refine ((readOnly_switchOp setup heap _ _ _).leaves fs).bind fun op => ?_
      exact (h.leaves_fExec heap op _ _).bind fun output =>
        (readOnly_answerClient setup heap _ _ output).leaves fs

end Lost

/-! ### Answers -/

/-- What `answer_client` sends. -/
theorem eval_answerClient (setup : WorkerSetup) (heap : WorkerHeap) (seqNumber type : UInt32)
    (output : FileOutput) (env : List WorkerEvent → WorkerEvent → Unit) (io : List WorkerEvent)
    (fs : FileSystem) : (answerClient setup heap seqNumber type output).eval env io fs =
      (io ++ ((answerOutgoing setup.tokens seqNumber type output).map fun o =>
          .send (o.wire heap.behindSent)).toList,
        (answerOutgoing setup.tokens seqNumber type output).map fun _ => ((), fs)) := by
  unfold answerClient answerOutgoing
  by_cases herr : output.error ≠ 0
  · rw [if_pos herr, if_pos herr]
    rfl
  · rw [if_neg herr, if_neg herr]
    cases output.out with
    | none => exact Prod.ext (List.append_nil io).symm rfl
    | some out => rfl

/-- What has been done and sent, when the answer is `answer`: without one, the worker has
stopped. -/
def AnswersWith (behind : Mem) (fs : FileSystem) (answer : Option Outgoing)
    (run : List WorkerEvent × Option (Unit × FileSystem)) : Prop :=
  sendsOf run.1 = (answer.map fun o => o.wire behind).toList ∧
    run.2 = answer.map fun _ => ((), fs)

namespace Lost

variable {setup : WorkerSetup} {fs : FileSystem} (h : Lost setup fs) {heap : WorkerHeap}
  {r : ReadResult} {t : MsgType} {op : UInt16} {p : WorkerProg FileOutput}
  {events : List WorkerEvent} {output : Option FileOutput}

/-- An operation, and the answer unless it stops the worker. -/
theorem answersWith_of_eval (hr : 0 < r.bytes)
    (htoken : (pDecode r.buffer).val.token = setup.tokens.masterTkn)
    (htype : (pDecode r.buffer).val.msgType = t.code) (hping : t ≠ .ping) (hls : t ≠ .ls)
    (hop : ∀ seq u, switchOp setup heap seq t.code u = .ret op)
    (hexec : ∀ u, fExec setup heap op ((pDecode r.buffer).val.arg ++ heap.behindArg) u = locked p)
    (hp : p.eval (fun _ _ => ()) [] fs = (events, output.map fun out => (out, fs)))
    (hsends : sendsOf events = []) (uninit : Uninit) :
    AnswersWith heap.behindSent fs (output.bind fun out =>
        answerOutgoing setup.tokens ((pDecode r.buffer).val.seqNumber + 1) t.code out)
      (workerRun setup heap uninit r fs) := by
  rw [workerRun_of_switchOp hr htoken htype hping hls hop, hexec]
  cases output with
  | none =>
    rw [Prog.eval_bind_of_fault (eval_locked_of_fault hp)]
    exact ⟨hsends, rfl⟩
  | some out =>
    have hlocked : (locked p).eval (fun _ _ => ()) [] fs = (events, some (out, fs)) :=
      Prog.eval_bind_of_eq hp _
    rw [Prog.eval_bind_of_eq hlocked, eval_answerClient]
    refine ⟨?_, rfl⟩
    rw [sendsOf, List.filterMap_append]
    change sendsOf events ++ sendsOf _ = _
    rw [hsends, Option.bind_some]
    cases answerOutgoing setup.tokens ((pDecode r.buffer).val.seqNumber + 1) t.code out <;> rfl

include h

/-- **One request.** -/
theorem answersWith (hr : 0 < r.bytes)
    (htoken : (pDecode r.buffer).val.token = setup.tokens.masterTkn)
    (htype : (pDecode r.buffer).val.msgType = t.code) (ht : t ≠ .register) (uninit : Uninit) :
    AnswersWith heap.behindSent fs
      (lostAnswer setup.tokens ((pDecode r.buffer).val.seqNumber + 1)
        ((pDecode r.buffer).val.arg ++ heap.behindArg) t)
      (workerRun setup heap uninit r fs) := by
  cases t with
  | ping =>
    rw [workerRun, handleWorkerClient_of_ping hr htoken htype]
    exact ⟨rfl, rfl⟩
  | ls =>
    rw [workerRun, handleWorkerClient_of_ls hr htoken htype,
      Prog.eval_bind_of_eq (h.eval_fileList _ _)]
    exact ⟨rfl, rfl⟩
  | register => exact absurd rfl ht
  | read =>
    have hfault : ∀ file, (readFile setup heap file).eval (fun _ _ => ()) [] fs =
        ([.op (.read file)], (none : Option FileOutput).map fun out => (out, fs)) :=
      fun file => eval_readFile_of_none (h.fopenRead file)
    exact answersWith_of_eval hr htoken htype (by decide) (by decide) (fun _ _ => rfl)
      (fExec_fileRead setup heap _) (hfault _) rfl uninit
  | delete =>
    have hdelete : ∀ file, (deleteFile setup file).eval (fun _ _ => ()) [] fs =
        ([.op (.delete file)], (some ⟨0, some [0], 0⟩ : Option FileOutput).map fun out =>
          (out, fs)) := h.eval_deleteFile _ _
    exact answersWith_of_eval hr htoken htype (by decide) (by decide) (fun _ _ => rfl)
      (fExec_fileDelete setup heap _) (hdelete _) rfl uninit
  | write =>
    obtain ⟨events, heval, hsends⟩ := h.exists_eval_writeParts heap
      ((pDecode r.buffer).val.arg ++ heap.behindArg) false
    have hanswer := answersWith_of_eval hr htoken htype (by decide) (by decide) (fun _ _ => rfl)
      (fExec_fileWrite setup heap _) heval hsends uninit
    rwa [Option.bind_map] at hanswer
  | append =>
    obtain ⟨events, heval, hsends⟩ := h.exists_eval_writeParts heap
      ((pDecode r.buffer).val.arg ++ heap.behindArg) true
    have hanswer := answersWith_of_eval hr htoken htype (by decide) (by decide) (fun _ _ => rfl)
      (fExec_fileAppend setup heap _) heval hsends uninit
    rwa [Option.bind_map] at hanswer

section Room

variable {a : Allocator} (hr : 0 < r.bytes)
  (htoken : (pDecode r.buffer).val.token = setup.tokens.masterTkn)
  (htype : (pDecode r.buffer).val.msgType = t.code) (ht : t ≠ .register) (uninit : Uninit)

include hr htoken htype ht

/-- Nothing is read from a file, written to one or listed, so everything has room. -/
theorem keeps_handleWorkerClient : (handleWorkerClient setup heap uninit r).Keeps
    (StaysInside a setup heap) (fun _ _ => ()) [] fs := by
  have hwrite : ∀ arg isappend, (writeParts setup heap arg isappend).Keeps
      (StaysInside a setup heap) (fun _ _ => ()) [] fs := by
    intro arg isappend
    rw [keeps_writeParts_iff]
    intro sep hsep
    rw [h.fsWriteFile]
    exact numberFits_neg_one
  cases t with
  | ping =>
    exact keeps_handleWorkerClient_of_ping hr htoken htype
  | ls =>
    rw [keeps_handleWorkerClient_of_ls hr htoken htype, FileOp.HasRoom, FileOp.AnswerFits,
      h.opendir]
    simp
  | register => exact absurd rfl ht
  | read =>
    rw [keeps_handleWorkerClient_iff_of_locked hr htoken htype (by decide) (by decide)
      (fun _ _ => rfl) (fExec_fileRead setup heap _), keeps_readFile_iff,
      forall_encodes_readFile_iff, FileOp.HasRoom, FileOp.AnswerFits, h.fopenRead]
    simp
  | delete =>
    rw [keeps_handleWorkerClient_iff_of_locked hr htoken htype (by decide) (by decide)
      (fun _ _ => rfl) (fExec_fileDelete setup heap _)]
    exact ⟨keeps_deleteFile _, fun _ _ _ => encodes_of_eval_deleteFile⟩
  | write =>
    rw [keeps_handleWorkerClient_iff_of_locked hr htoken htype (by decide) (by decide)
      (fun _ _ => rfl) (fExec_fileWrite setup heap _)]
    exact ⟨hwrite _ false, fun _ _ _ => encodes_of_eval_writeParts⟩
  | append =>
    rw [keeps_handleWorkerClient_iff_of_locked hr htoken htype (by decide) (by decide)
      (fun _ _ => rfl) (fExec_fileAppend setup heap _)]
    exact ⟨hwrite _ true, fun _ _ _ => encodes_of_eval_writeParts⟩

/-- **One request, in bounded memory**: a packet that has room in the buffer, with a separator for a
WRITE or an APPEND, is answered as its own argument says. -/
theorem answersWith_confined (hinside : DecodeSite.workerClient.Inside r)
    (hroom : headerSize + (pDecode r.buffer).val.arg.length ≤ 10000)
    (hsep : t = .write ∨ t = .append → semicolon ∈ (pDecode r.buffer).val.arg) :
    AnswersWith heap.behindSent fs
      (lostAnswer setup.tokens ((pDecode r.buffer).val.seqNumber + 1) (pDecode r.buffer).val.arg t)
      (workerRunConfined a setup heap uninit r fs) := by
  rw [headerSize] at hroom
  have harg : Executes setup r → ArgFits a (opCode (pDecode r.buffer).val.msgType uninit.op)
      ((pDecode r.buffer).val.arg ++ heap.behindArg) := by
    intro hexec
    have hjoin : semicolon ∈ (pDecode r.buffer).val.arg → ∀ op,
        ArgFits a op ((pDecode r.buffer).val.arg ++ heap.behindArg) := by
      intro hmem op
      obtain ⟨file, rest, heq, -⟩ := List.eq_append_cons_of_mem hmem
      rw [heq, List.length_append, List.length_cons] at hroom
      rw [heq, List.append_assoc, List.cons_append]
      exact argFits_of_append a op (by omega) _
    rw [htype]
    cases t with
    | ping => exact absurd htype hexec.2.2.1
    | ls => exact absurd htype hexec.2.2.2
    | register => exact absurd rfl ht
    | read =>
      exact argFits_of_eq_zero (show fileRead &&& (fileWrite ||| fileAppend) = 0 by decide) _
    | delete =>
      exact argFits_of_eq_zero (show fileDelete &&& (fileWrite ||| fileAppend) = 0 by decide) _
    | write => exact hjoin (hsep (.inl rfl)) _
    | append => exact hjoin (hsep (.inr rfl)) _
  rw [workerRunConfined_eq hinside harg (h.keeps_handleWorkerClient hr htoken htype ht uninit),
    ← lostAnswer_append (by omega) hsep]
  exact h.answersWith hr htoken htype ht uninit

end Room

end Lost

/-! ### Any number of connections -/

/-- The packet in the bytes, whatever the buffer held before. -/
def WorkerConnection.packet (c : WorkerConnection) : Packet :=
  (pDecode (overlay c.bytes fun _ => 0)).val

/-- A request of the type, with the token of the master, which is delivered in full. A WRITE and an
APPEND have a separator. -/
structure WorkerConnection.Asks (tokens : Tokens) (c : WorkerConnection) (t : MsgType) : Prop where
  /-- The whole packet is delivered. -/
  whole : headerSize + announced c.bytes ≤ c.bytes.length
  /-- It has room in the buffer. -/
  room : headerSize + announced c.bytes ≤ DecodeSite.workerClient.bufferSize
  /-- The token. -/
  token : c.packet.token = tokens.masterTkn
  /-- The type. -/
  type : c.packet.msgType = t.code
  /-- The separator. -/
  separator : t = .write ∨ t = .append → semicolon ∈ c.packet.arg

/-- What is answered on the connection. -/
def WorkerConnection.lostAnswer (tokens : Tokens) (c : WorkerConnection) (t : MsgType) :
    Option Outgoing :=
  PekarDrive.lostAnswer tokens (c.packet.seqNumber + 1) c.packet.arg t

/-- Serving a connection, in the memory that an allocator gives. -/
def WorkerConnection.runConfined (a : Allocator) (setup : WorkerSetup) (c : WorkerConnection)
    (fs : FileSystem) : List WorkerEvent × Option (Unit × FileSystem) :=
  workerRunConfined a setup c.heap c.uninit (.delivered c.bytes c.stale) fs

theorem Lost.forall_workerSession {setup : WorkerSetup} {fs : FileSystem} (h : Lost setup fs)
    (cs : List WorkerConnection) : ∀ x ∈ workerSession setup cs fs, x.2 = fs := by
  induction cs with
  | nil => exact fun x hx => absurd hx List.not_mem_nil
  | cons c cs ih =>
    intro x hx
    rcases List.mem_cons.mp hx with rfl | hrest
    · rfl
    · split at hrest
      · exact absurd hrest List.not_mem_nil
      · rename_i fs' hrun
        obtain rfl : fs' = fs :=
          h.leaves_handleWorkerClient c.heap c.uninit _ _ _ ((), fs') hrun
        exact ih x hrest

/-- A request is answered as its bytes say. -/
theorem Lost.answersWith_runConfined {setup : WorkerSetup} {fs : FileSystem} (h : Lost setup fs)
    (a : Allocator) {c : WorkerConnection} {t : MsgType} (hasks : c.Asks setup.tokens t)
    (ht : t ≠ .register) :
    AnswersWith c.heap.behindSent fs (c.lostAnswer setup.tokens t) (c.runConfined a setup fs) := by
  have hwhole := hasks.whole
  rw [headerSize] at hwhole
  have hpos : 0 < (ReadResult.delivered c.bytes c.stale).bytes :=
    Int.natCast_pos.mpr (by omega)
  have hpacket : (pDecode (ReadResult.delivered c.bytes c.stale).buffer).val = c.packet :=
    pDecode_delivered_congr _ _ hasks.whole
  have hlen : c.packet.msgLen.toNat = announced c.bytes :=
    msgLen_pDecode_overlay _ (by omega)
  have hinside : DecodeSite.workerClient.Inside (.delivered c.bytes c.stale) := by
    rw [DecodeSite.inside_iff_of_pos _ hpos, hpacket, hlen]
    exact hasks.room
  rw [WorkerConnection.lostAnswer, ← hpacket]
  refine h.answersWith_confined hpos ?_ ?_ ht c.uninit hinside ?_ ?_
  · rw [hpacket, hasks.token]
  · rw [hpacket, hasks.type]
  · rw [length_arg_pDecode, hpacket, hlen]
    exact hasks.room
  · rw [hpacket]
    exact hasks.separator

/-- **The directory of the release build.** As long as there is no entry with the name of a tilde
in the current directory, a worker changes nothing, whatever connections it serves. In bounded
memory, it answers each request with the token of the master that is delivered in full as the bytes
of the request say, whatever is on its disk. -/
theorem workerSession_releaseDir (a : Allocator) (tokens : Tokens) (os : Os) (fs : FileSystem)
    (cs : List WorkerConnection) (hno : (dataInit os releaseDir fs).2.node
      ((dataInit os releaseDir fs).2.cwd ++ [ascii "~"]) = none) :
    ∀ x ∈ workerSession (bootSetup tokens os releaseDir fs) cs (dataInit os releaseDir fs).2,
      x.2 = (dataInit os releaseDir fs).2 ∧
      (∀ y ∈ (x.1.run (bootSetup tokens os releaseDir fs) x.2).2, y.2 = x.2) ∧
      ∀ t, t ≠ .register → x.1.Asks tokens t →
        AnswersWith x.1.heap.behindSent x.2 (x.1.lostAnswer tokens t)
          (x.1.runConfined a (bootSetup tokens os releaseDir fs) x.2) := by
  have hlost : Lost (bootSetup tokens os releaseDir fs) (dataInit os releaseDir fs).2 :=
    lost_of_opendir_eq_none (by decide) (opendir_releaseDir hno) tokens os
  intro x hx
  rw [hlost.forall_workerSession cs x hx]
  exact ⟨rfl, hlost.leaves_handleWorkerClient _ _ _ _ _, fun t ht hasks =>
    hlost.answersWith_runConfined a hasks ht⟩

/-- An interpreter that puts `/home` for the tilde, as far as the command of `data_init` goes. -/
def homeOs : Os :=
  ⟨fun _ fs => fs.setNode [ascii "home", ascii ".PekarDrive"] (.dir true), id, List.Perm.refl⟩

/-- A machine with a home directory. -/
def homeFs : FileSystem := ⟨[], [([ascii "home"], .dir true)]⟩

/-- A WRITE and a READ of the file. -/
def writeThenRead : List WorkerConnection :=
  [⟨pEncode (attachToken 2 (pInit 0 (lit "a;b") MsgType.write.code)), fun _ => 0, zeroWorkerHeap,
      ⟨0, ⟨0, none, 0⟩⟩⟩,
    ⟨pEncode (attachToken 2 (pInit 0 (lit "a") MsgType.read.code)), fun _ => 0, zeroWorkerHeap,
      ⟨0, ⟨0, none, 0⟩⟩⟩]

/-- The directory is made, and not used. -/
theorem workerSession_releaseDir_homeOs :
    (dataInit homeOs releaseDir homeFs).2.node [ascii "home", ascii ".PekarDrive"] =
      some (.dir true) ∧
    ∀ x ∈ workerSession (bootSetup ⟨2, 1⟩ homeOs releaseDir homeFs) writeThenRead
        (dataInit homeOs releaseDir homeFs).2,
      x.2 = (dataInit homeOs releaseDir homeFs).2 ∧
      (∀ y ∈ (x.1.run (bootSetup ⟨2, 1⟩ homeOs releaseDir homeFs) x.2).2, y.2 = x.2) ∧
      ∀ t, t ≠ .register → x.1.Asks ⟨2, 1⟩ t →
        AnswersWith x.1.heap.behindSent x.2 (x.1.lostAnswer ⟨2, 1⟩ t)
          (x.1.runConfined roundedAllocator (bootSetup ⟨2, 1⟩ homeOs releaseDir homeFs) x.2) :=
  ⟨by decide,
    workerSession_releaseDir roundedAllocator ⟨2, 1⟩ homeOs homeFs writeThenRead (by decide)⟩

end PekarDrive
