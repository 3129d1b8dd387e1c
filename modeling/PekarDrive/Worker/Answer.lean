import PekarDrive.Worker.Confined

/-!
# What a worker does for one request

For a packet with the token of the master, `handle_client` of a worker is to send one answer and
to do at most the file operation that the type names. It does so exactly for the requests
of `PekarDrive.Servable`: a READ of a file that can be opened, a WRITE or an APPEND with a
separator, and every PING, LS and DELETE, as far as the packet is not longer than the buffer and
what is stored for it has room in its blocks. A READ of another file stops the worker at a `NULL`
pointer, a missing separator sends it through its memory, and every other type is answered twice
or not to the end.

## Main definitions

* `PekarDrive.opsOf`, `PekarDrive.sendsOf`: the file operations and the packets of a run.
* `PekarDrive.workerRun`, `PekarDrive.workerRunConfined`.
* `PekarDrive.ServesOnce`, `PekarDrive.Servable`.

## Main results

* `PekarDrive.servesOnce_iff`.
-/

namespace PekarDrive

open CMemory CText LockedThreads

/-- The file operations among events. -/
def opsOf (events : List WorkerEvent) : List FileOp := events.filterMap fun
  | .op o => some o
  | .send _ => none

/-- The packets sent among events. -/
def sendsOf (events : List WorkerEvent) : List (List UInt8) := events.filterMap fun
  | .op _ => none
  | .send bytes => some bytes

/-- The types that a worker serves. -/
def served (type : UInt32) : Bool :=
  match MsgType.ofCode type with
  | none => false
  | some .register => false
  | _ => true

/-- The run of `handle_client` of a worker on a read. -/
def workerRun (setup : WorkerSetup) (heap : WorkerHeap) (uninit : Uninit) (r : ReadResult)
    (fs : FileSystem) : List WorkerEvent × Option (Unit × FileSystem) :=
  (handleWorkerClient setup heap uninit r).eval (fun _ _ => ()) [] fs

theorem mem_opsOf {events : List WorkerEvent} {o : FileOp} : o ∈ opsOf events ↔ .op o ∈ events := by
  rw [opsOf, List.mem_filterMap]
  constructor
  · rintro ⟨o' | bytes, hmem, heq⟩
    · obtain rfl := Option.some.inj heq
      exact hmem
    · exact absurd heq (by simp)
  · exact fun hmem => ⟨_, hmem, rfl⟩

/-- The run in the memory that an allocator gives. -/
def workerRunConfined (a : Allocator) (setup : WorkerSetup) (heap : WorkerHeap) (uninit : Uninit)
    (r : ReadResult) (fs : FileSystem) : List WorkerEvent × Option (Unit × FileSystem) :=
  (handleWorkerClientConfined a setup heap uninit r).eval (fun _ _ => ()) [] fs

/-- A run on a request of a type that returns, has sent exactly one packet and done at most one file
operation, which the type names, and leaves the file system as it was for a type that is not
served. -/
def AnsweredOnce (fs : FileSystem) (type : UInt32)
    (run : List WorkerEvent × Option (Unit × FileSystem)) : Prop :=
  ∃ events fs', run = (events, some ((), fs')) ∧
    (sendsOf events).length = 1 ∧ (opsOf events).length ≤ 1 ∧
    (∀ o ∈ opsOf events, o.type.code = type) ∧ (served type = false → fs' = fs)

/-- Whatever the uninitialised variables hold, `handle_client` answers once, in bounded memory. -/
def ServesOnce (a : Allocator) (setup : WorkerSetup) (heap : WorkerHeap) (fs : FileSystem)
    (r : ReadResult) : Prop :=
  ∀ uninit, AnsweredOnce fs (pDecode r.buffer).val.msgType
    (workerRunConfined a setup heap uninit r fs)

/-- The condition under which a request is served: a READ names a file that can be opened, a WRITE
or an APPEND has a separator, and the type is one that is served; and what is stored has room, the
text of the answer too. -/
def Servable (a : Allocator) (setup : WorkerSetup) (heap : WorkerHeap) (fs : FileSystem)
    (type : UInt32) (arg : List UInt8) : Prop :=
  match MsgType.ofCode type with
  | some .read => (fs.fopenRead (setPath setup.workDir (CString.ofMemory arg))).isSome ∧
      (FileOp.read (CString.ofMemory arg)).HasRoom a setup heap fs ∧
      (FileOp.read (CString.ofMemory arg)).AnswerFits a setup heap fs
  | some .write => (sepIndex arg).isSome ∧ WriteFits a setup heap fs arg false
  | some .append => (sepIndex arg).isSome ∧ WriteFits a setup heap fs arg true
  | some .ls => (FileOp.list setup.workerDir).HasRoom a setup heap fs ∧
      (FileOp.list setup.workerDir).AnswerFits a setup heap fs
  | some .register => False
  | none => False
  | _ => True

theorem code_ne_of_ne {t t' : MsgType} (h : t ≠ t') : t.code ≠ t'.code := fun heq => by
  have hcode := MsgType.ofCode_code t
  rw [heq, MsgType.ofCode_code] at hcode
  exact h (Option.some.inj hcode).symm

/-- Uninitialised variables with no operation and an output that is marked as an error. -/
def noOperation : Uninit := ⟨0, ⟨1, none, 0⟩⟩

section Serve

variable {a : Allocator} {setup : WorkerSetup} {heap : WorkerHeap} {uninit : Uninit}
  {fs : FileSystem} {r : ReadResult}

/-- In bounded memory a request is answered once if it is answered once and nothing leaves its
block. -/
theorem answeredOnce_confined_iff {type : UInt32} :
    AnsweredOnce fs type (workerRunConfined a setup heap uninit r fs) ↔
      DecodeSite.workerClient.Inside r ∧
      (Executes setup r → ArgFits a (opCode (pDecode r.buffer).val.msgType uninit.op)
        ((pDecode r.buffer).val.arg ++ heap.behindArg)) ∧
      (handleWorkerClient setup heap uninit r).Keeps (StaysInside a setup heap) (fun _ _ => ()) []
        fs ∧
      AnsweredOnce fs type (workerRun setup heap uninit r fs) := by
  simp only [AnsweredOnce, workerRun, workerRunConfined,
    eval_handleWorkerClientConfined_eq_some_iff, and_assoc, exists_and_left]

/-- Where nothing leaves its block, bounded memory makes no difference. -/
theorem workerRunConfined_eq (hinside : DecodeSite.workerClient.Inside r)
    (harg : Executes setup r → ArgFits a (opCode (pDecode r.buffer).val.msgType uninit.op)
      ((pDecode r.buffer).val.arg ++ heap.behindArg))
    (hkeeps : (handleWorkerClient setup heap uninit r).Keeps (StaysInside a setup heap)
      (fun _ _ => ()) [] fs) :
    workerRunConfined a setup heap uninit r fs = workerRun setup heap uninit r fs := by
  rw [workerRunConfined, handleWorkerClientConfined, Prog.require_bind_of_pos _ hinside,
    Prog.require_bind_of_pos _ harg, Prog.eval_confined_of_keeps hkeeps, workerRun]

/-- In bounded memory nothing else is done. -/
theorem fst_workerRunConfined_isPrefix :
    (workerRunConfined a setup heap uninit r fs).1 <+: (workerRun setup heap uninit r fs).1 := by
  rw [workerRunConfined, handleWorkerClientConfined]
  by_cases hinside : DecodeSite.workerClient.Inside r
  · rw [Prog.require_bind_of_pos _ hinside]
    by_cases harg : Executes setup r → ArgFits a (opCode (pDecode r.buffer).val.msgType uninit.op)
        ((pDecode r.buffer).val.arg ++ heap.behindArg)
    · rw [Prog.require_bind_of_pos _ harg]
      exact Prog.fst_eval_confined_isPrefix
    · rw [Prog.require_bind_of_neg _ harg]
      exact List.nil_prefix
  · rw [Prog.require_bind_of_neg _ hinside]
    exact List.nil_prefix

/-- The first thing that is done is done in bounded memory too. -/
theorem exists_fst_workerRunConfined (hinside : DecodeSite.workerClient.Inside r)
    (harg : Executes setup r → ArgFits a (opCode (pDecode r.buffer).val.msgType uninit.op)
      ((pDecode r.buffer).val.arg ++ heap.behindArg)) {e : WorkerEvent} {rest : List WorkerEvent}
    (hrun : (workerRun setup heap uninit r fs).1 = e :: rest) :
    ∃ rest', (workerRunConfined a setup heap uninit r fs).1 = e :: rest' := by
  rw [workerRunConfined, handleWorkerClientConfined, Prog.require_bind_of_pos _ hinside,
    Prog.require_bind_of_pos _ harg]
  exact Prog.exists_fst_eval_confined hrun

/-- A packet that is too long stops the worker. -/
theorem workerRunConfined_of_not_inside (hinside : ¬ DecodeSite.workerClient.Inside r) :
    workerRunConfined a setup heap uninit r fs = ([], none) := by
  rw [workerRunConfined, handleWorkerClientConfined, Prog.require_bind_of_neg _ hinside]
  rfl

section Ping

variable (hr : 0 < r.bytes) (htoken : (pDecode r.buffer).val.token = setup.tokens.masterTkn)
  (hping : (pDecode r.buffer).val.msgType = MsgType.ping.code)

include hr htoken hping

theorem answeredOnce_of_ping :
    AnsweredOnce fs (pDecode r.buffer).val.msgType (workerRun setup heap uninit r fs) := by
  obtain ⟨bytes, heval⟩ := exists_eval_sendPacket heap (fun _ _ => ())
    (pInit ((pDecode r.buffer).val.seqNumber + 1) (lit "1") MsgType.ping.code) 13 [] fs
  refine ⟨[.send bytes], fs, ?_, rfl, Nat.zero_le 1, by simp [opsOf], fun _ => rfl⟩
  rw [workerRun, handleWorkerClient_of_ping hr htoken hping, heval]
  rfl

theorem keeps_handleWorkerClient_of_ping : (handleWorkerClient setup heap uninit r).Keeps
    (StaysInside a setup heap) (fun _ _ => ()) [] fs := by
  rw [handleWorkerClient_of_ping hr htoken hping, keeps_sendPacket_iff _ (by decide)]
  exact encodeFits_of_lt (show (lit "1").strlen < 2 ^ 32 - 1 by decide)

/-- **PING.** -/
theorem servesOnce_iff_of_ping :
    ServesOnce a setup heap fs r ↔ DecodeSite.workerClient.Inside r := by
  constructor
  · exact fun h => (answeredOnce_confined_iff.mp (h noOperation)).1
  · intro hinside uninit
    refine answeredOnce_confined_iff.mpr ⟨hinside, fun hexec => absurd hping hexec.2.2.1, ?_,
      answeredOnce_of_ping hr htoken hping⟩
    exact keeps_handleWorkerClient_of_ping hr htoken hping

end Ping

section Ls

variable (hr : 0 < r.bytes) (htoken : (pDecode r.buffer).val.token = setup.tokens.masterTkn)
  (hls : (pDecode r.buffer).val.msgType = MsgType.ls.code)

include hr htoken hls

theorem answeredOnce_of_ls :
    AnsweredOnce fs (pDecode r.buffer).val.msgType (workerRun setup heap uninit r fs) := by
  obtain ⟨bytes, heval⟩ := exists_eval_sendPacket heap (fun _ _ => ())
    (pInit ((pDecode r.buffer).val.seqNumber + 1) (lsText setup heap fs) MsgType.ls.code)
    ((lsText setup heap fs).strlen + sizeofPacket) ([] ++ [.op (.list setup.workerDir)]) fs
  refine ⟨[.op (.list setup.workerDir), .send bytes], fs, ?_, rfl, le_rfl, ?_, fun _ => rfl⟩
  · rw [workerRun, handleWorkerClient_of_ls hr htoken hls, Prog.eval_bind_of_eq (eval_fileList _)]
    exact heval
  · simp [opsOf, hls, FileOp.type]

theorem keeps_handleWorkerClient_of_ls : (handleWorkerClient setup heap uninit r).Keeps
    (StaysInside a setup heap) (fun _ _ => ()) [] fs ↔
      (FileOp.list setup.workerDir).HasRoom a setup heap fs ∧
        (FileOp.list setup.workerDir).AnswerFits a setup heap fs := by
  have hlen : 8 ≤ (lsText setup heap fs).strlen + sizeofPacket := by
    have hsize : 8 ≤ sizeofPacket := by decide
    omega
  rw [handleWorkerClient_of_ls hr htoken hls, Prog.keeps_bind_of_eq (eval_fileList _),
    keeps_fileList_iff, ← encodeFits_lsText_iff]
  exact and_congr_right fun _ => keeps_sendPacket_iff _ hlen

/-- **LS.** -/
theorem servesOnce_iff_of_ls : ServesOnce a setup heap fs r ↔
    DecodeSite.workerClient.Inside r ∧ (FileOp.list setup.workerDir).HasRoom a setup heap fs ∧
      (FileOp.list setup.workerDir).AnswerFits a setup heap fs := by
  constructor
  · intro h
    obtain ⟨hinside, -, hkeeps, -⟩ := answeredOnce_confined_iff.mp (h noOperation)
    exact ⟨hinside, (keeps_handleWorkerClient_of_ls hr htoken hls).mp hkeeps⟩
  · rintro ⟨hinside, hroom⟩ uninit
    exact answeredOnce_confined_iff.mpr ⟨hinside, fun hexec => absurd hls hexec.2.2.2,
      (keeps_handleWorkerClient_of_ls hr htoken hls).mpr hroom, answeredOnce_of_ls hr htoken hls⟩

end Ls

section Exec

variable {t : MsgType} {op : UInt16} (hr : 0 < r.bytes)
  (htoken : (pDecode r.buffer).val.token = setup.tokens.masterTkn)
  (htype : (pDecode r.buffer).val.msgType = t.code) (hping : t ≠ .ping) (hls : t ≠ .ls)
  (hop : ∀ seq u, switchOp setup heap seq t.code u = .ret op)

include hr htoken htype hping hls hop

theorem handleWorkerClient_of_switchOp : handleWorkerClient setup heap uninit r =
    fExec setup heap op ((pDecode r.buffer).val.arg ++ heap.behindArg) uninit.output >>=
      fun output => answerClient setup heap ((pDecode r.buffer).val.seqNumber + 1) t.code
        output := by
  rw [handleWorkerClient_of_fExec hr htoken (htype ▸ code_ne_of_ne hping)
    (htype ▸ code_ne_of_ne hls), htype, hop, Prog.ret_bind]

theorem workerRun_of_switchOp : workerRun setup heap uninit r fs =
    (fExec setup heap op ((pDecode r.buffer).val.arg ++ heap.behindArg) uninit.output >>=
      fun output => answerClient setup heap ((pDecode r.buffer).val.seqNumber + 1) t.code
        output).eval (fun _ _ => ()) [] fs := by
  rw [workerRun, handleWorkerClient_of_switchOp hr htoken htype hping hls hop]

/-- One operation and its answer. -/
theorem answeredOnce_of_doesOnce (hserved : served t.code = true)
    (hexec : DoesOnce (fun _ _ => ()) [] fs t
      (fExec setup heap op ((pDecode r.buffer).val.arg ++ heap.behindArg) uninit.output)) :
    AnsweredOnce fs (pDecode r.buffer).val.msgType (workerRun setup heap uninit r fs) := by
  obtain ⟨o, output, fs', heval, ho, hout⟩ := hexec
  obtain ⟨bytes, hanswer⟩ := exists_eval_answerClient setup heap hout
    ((pDecode r.buffer).val.seqNumber + 1) t.code ([] ++ [.op o]) fs'
  refine ⟨[.op o, .send bytes], fs', ?_, rfl, le_rfl, ?_, ?_⟩
  · rw [workerRun_of_switchOp hr htoken htype hping hls hop, Prog.eval_bind_of_eq heval, hanswer]
    rfl
  · rw [htype, ← ho]
    simp [opsOf]
  · rw [htype, hserved]
    exact fun h => absurd h (by simp)

/-- An operation that faults leaves the request without an answer. -/
theorem not_answeredOnce_of_fault {h' : List WorkerEvent}
    (hexec : (fExec setup heap op ((pDecode r.buffer).val.arg ++ heap.behindArg)
      uninit.output).eval (fun _ _ => ()) [] fs = (h', none)) :
    ¬ AnsweredOnce fs (pDecode r.buffer).val.msgType (workerRun setup heap uninit r fs) := by
  rintro ⟨events, fs', hrun, -⟩
  rw [workerRun_of_switchOp hr htoken htype hping hls hop, Prog.eval_bind_of_fault hexec] at hrun
  exact absurd (congrArg Prod.snd hrun) (by simp)

section Locked

variable {p : WorkerProg FileOutput}
  (hp : ∀ u, fExec setup heap op ((pDecode r.buffer).val.arg ++ heap.behindArg) u = locked p)

include hp

/-- When the operation is done once under a condition and faults otherwise, the condition decides
whether the request is answered. -/
theorem answeredOnce_iff_of_locked (hserved : served t.code = true) {P : Prop}
    (hdoes : P → DoesOnce (fun _ _ => ()) [] fs t p)
    (hfault : ¬ P → ∃ h', p.eval (fun _ _ => ()) [] fs = (h', none)) :
    AnsweredOnce fs (pDecode r.buffer).val.msgType (workerRun setup heap uninit r fs) ↔ P := by
  constructor
  · intro hserves
    by_contra hP
    obtain ⟨h', heval⟩ := hfault hP
    have hnone : (fExec setup heap op ((pDecode r.buffer).val.arg ++ heap.behindArg)
        uninit.output).eval (fun _ _ => ()) [] fs = (h', none) := by
      rw [hp]
      exact eval_locked_of_fault heval
    exact not_answeredOnce_of_fault hr htoken htype hping hls hop hnone hserves
  · intro hP
    refine answeredOnce_of_doesOnce hr htoken htype hping hls hop hserved ?_
    rw [hp]
    exact (hdoes hP).locked

theorem keeps_handleWorkerClient_iff_of_locked : (handleWorkerClient setup heap uninit r).Keeps
    (StaysInside a setup heap) (fun _ _ => ()) [] fs ↔
      p.Keeps (StaysInside a setup heap) (fun _ _ => ()) [] fs ∧
      ∀ io output fs', p.eval (fun _ _ => ()) [] fs = (io, some (output, fs')) →
        output.Encodes a := by
  rw [handleWorkerClient_of_switchOp hr htoken htype hping hls hop, hp, keeps_locked_bind_iff]

/-- **One operation.** The request is served when the operation is done, and it and its answer have
room. -/
theorem servesOnce_iff_of_locked (hcode : ∀ u, opCode t.code u = op)
    (hserved : served t.code = true) {P : Prop} (hdoes : P → DoesOnce (fun _ _ => ()) [] fs t p)
    (hfault : ¬ P → ∃ h', p.eval (fun _ _ => ()) [] fs = (h', none)) :
    ServesOnce a setup heap fs r ↔ DecodeSite.workerClient.Inside r ∧ P ∧
      (ArgFits a op ((pDecode r.buffer).val.arg ++ heap.behindArg) ∧
        p.Keeps (StaysInside a setup heap) (fun _ _ => ()) [] fs) ∧
      ∀ io output fs', p.eval (fun _ _ => ()) [] fs = (io, some (output, fs')) →
        output.Encodes a := by
  have hexec : Executes setup r :=
    ⟨hr, htoken, htype ▸ code_ne_of_ne hping, htype ▸ code_ne_of_ne hls⟩
  have hone : ∀ uninit, AnsweredOnce fs (pDecode r.buffer).val.msgType
      (workerRunConfined a setup heap uninit r fs) ↔ DecodeSite.workerClient.Inside r ∧
        ArgFits a op ((pDecode r.buffer).val.arg ++ heap.behindArg) ∧
        (p.Keeps (StaysInside a setup heap) (fun _ _ => ()) [] fs ∧
          ∀ io output fs', p.eval (fun _ _ => ()) [] fs = (io, some (output, fs')) →
            output.Encodes a) ∧ P := by
    intro uninit
    rw [answeredOnce_confined_iff, forall_prop_of_true hexec, htype, hcode, ← htype,
      keeps_handleWorkerClient_iff_of_locked hr htoken htype hping hls hop hp,
      answeredOnce_iff_of_locked hr htoken htype hping hls hop hp hserved hdoes hfault]
  constructor
  · intro h
    obtain ⟨hinside, harg, ⟨hkeeps, hencodes⟩, hP⟩ := (hone noOperation).mp (h noOperation)
    exact ⟨hinside, hP, ⟨harg, hkeeps⟩, hencodes⟩
  · rintro ⟨hinside, hP, ⟨harg, hkeeps⟩, hencodes⟩ uninit
    exact (hone uninit).mpr ⟨hinside, harg, ⟨hkeeps, hencodes⟩, hP⟩

end Locked

end Exec

theorem switchOp_of_not_served {type : UInt32} (hserved : served type = false) (seq : UInt32)
    (u : UInt16) : switchOp setup heap seq type u =
      answerClient setup heap seq noType ⟨1, none, 0⟩ >>= fun _ => .ret u := by
  unfold served at hserved
  unfold switchOp
  cases hcode : MsgType.ofCode type with
  | none => rfl
  | some t => cases t <;> simp [hcode] at hserved ⊢

/-- A type that is not served is answered by the default case, and again behind `f_exec`. -/
theorem not_servesOnce_of_not_served (hr : 0 < r.bytes)
    (htoken : (pDecode r.buffer).val.token = setup.tokens.masterTkn)
    (hserved : served (pDecode r.buffer).val.msgType = false) :
    ¬ ServesOnce a setup heap fs r := by
  intro hserves
  have hne : ∀ t : MsgType, served t.code = true → (pDecode r.buffer).val.msgType ≠ t.code :=
    fun t ht heq => by rw [heq, ht] at hserved; exact absurd hserved (by simp)
  obtain ⟨first, hfirst⟩ := exists_eval_answerClient_error setup heap (fun _ _ => ())
    (show (FileOutput.mk 1 none 0).error ≠ 0 by decide) ((pDecode r.buffer).val.seqNumber + 1)
    noType [] fs
  obtain ⟨second, hsecond⟩ := exists_eval_answerClient_error setup heap (fun _ _ => ())
    (show noOperation.output.error ≠ 0 by decide) ((pDecode r.buffer).val.seqNumber + 1)
    (pDecode r.buffer).val.msgType ([] ++ [.send first]) fs
  have hrun : workerRun setup heap noOperation r fs =
      ([] ++ [.send first] ++ [.send second], some ((), fs)) := by
    rw [workerRun, handleWorkerClient_of_fExec hr htoken (hne .ping rfl) (hne .ls rfl),
      switchOp_of_not_served hserved, Prog.eval_bind, Prog.eval_bind_of_eq hfirst, Prog.eval_ret]
    change (fExec setup heap 0 _ _ >>= _).eval _ _ _ = _
    rw [fExec_zero]
    exact hsecond
  obtain ⟨-, -, -, events, fs', hrun', hsends, -⟩ :=
    answeredOnce_confined_iff.mp (hserves noOperation)
  obtain rfl : [] ++ [.send first] ++ [.send second] = events :=
    congrArg Prod.fst (hrun.symm.trans hrun')
  exact absurd hsends (by simp [sendsOf])

/-- `file_name` is called for none of the operations in `op`. -/
theorem argFits_of_eq_zero {op : UInt16} (h : op &&& (fileWrite ||| fileAppend) = 0)
    (arg : List UInt8) : ArgFits a op arg := fun hne => absurd h hne

end Serve

section ExampleRequest

/-- A heap in which every block is followed by a terminator. -/
def zeroWorkerHeap : WorkerHeap := ⟨[0], [0], [0], [0], [0], fun _ => 0⟩

/-- An operating system whose `system` does nothing. -/
def exampleOs : Os := ⟨fun _ fs => fs, id, fun _ => .refl _⟩

/-- A worker in the root directory. -/
def exampleSetup : WorkerSetup := ⟨⟨2, 1⟩, exampleOs, some (lit "."), lit "."⟩

/-- A directory without files. -/
def emptyFs : FileSystem := ⟨[], []⟩

/-- A packet of the master, delivered in full. -/
def masterDelivery (type : UInt32) (arg : CString) : ReadResult :=
  .delivered (pEncode (attachToken 2 (pInit 0 arg type))) fun _ => 0

end ExampleRequest

end PekarDrive
