import PekarDrive.Master.Client
import PekarDrive.Worker.Answer

/-!
# Authorization by tokens

A worker acts for a packet that carries the token of the master, and the master registers a
worker for a REGISTER packet that carries the token of the workers. Both compare fields of the
decoded packet, and both decode a buffer that may hold fewer than 22 delivered bytes: the rest of
the header is then what the fresh buffer happened to hold.

For the delivered bytes `bs` the decision is sound, and independent of the rest of the buffer,
exactly when the bytes hold a whole header or rule the packet out by themselves
(`PekarDrive.WorkerGuarded`, `PekarDrive.MasterGuarded`).

## Main definitions

* `PekarDrive.workerAccepts`, `PekarDrive.masterAccepts`: the decisions.
* `PekarDrive.WorkerDecision`, `PekarDrive.MasterDecision`: what is asked of them for given bytes.
* `PekarDrive.workerSession`, `PekarDrive.masterSession`: sequences of connections.

## Main results

* `PekarDrive.workerDecision_iff`, `PekarDrive.masterDecision_iff`.
* `PekarDrive.authorization`: both decisions, for single connections and for sequences.

The sequences are those of `main`: every connection finds what the ones before it have left.
-/

namespace PekarDrive

open CMemory CText LockedThreads

/-! ### The worker -/

section Worker

/-- The decision of the worker to go on to a listing or to `f_exec`. -/
def workerAccepts (tokens : Tokens) (r : ReadResult) : Bool :=
  decide (0 < r.bytes) && decide ((pDecode r.buffer).val.token = tokens.masterTkn) &&
    decide ((pDecode r.buffer).val.msgType ≠ MsgType.ping.code)

/-- The delivered bytes are a whole header with the token of the master. -/
def WorkerAuthorized (tokens : Tokens) (bs : List UInt8) : Prop :=
  headerSize ≤ bs.length ∧ (bs.drop 14).take 8 = leBytes 8 tokens.masterTkn.toNat

/-- For the delivered bytes `bs`, from every file system and over every memory: a file operation
or a listing is done only if the bytes authorize it, and the decision does not depend on the rest
of the buffer. -/
def WorkerDecision (setup : WorkerSetup) (bs : List UInt8) : Prop :=
  (∀ stale heap uninit fs, opsOf (workerRun setup heap uninit (.delivered bs stale) fs).1 ≠ [] →
    WorkerAuthorized setup.tokens bs) ∧
  ∀ stale stale', workerAccepts setup.tokens (.delivered bs stale) =
    workerAccepts setup.tokens (.delivered bs stale')

/-- The delivered bytes are none, hold a whole header, contradict the token, or are a PING. -/
def WorkerGuarded (tokens : Tokens) (bs : List UInt8) : Prop :=
  bs = [] ∨ headerSize ≤ bs.length ∨
    ¬ (bs.drop 14).take 8 <+: leBytes 8 tokens.masterTkn.toNat ∨
    (bs.drop 8).take 4 = leBytes 4 MsgType.ping.code.toNat

instance (tokens : Tokens) (bs : List UInt8) : Decidable (WorkerGuarded tokens bs) :=
  inferInstanceAs (Decidable (_ ∨ _))

variable (setup : WorkerSetup) (heap : WorkerHeap) {uninit : Uninit} (fs : FileSystem)
  {r : ReadResult}

theorem opsOf_ne_nil {events : List WorkerEvent} {o : FileOp} (h : .op o ∈ events) :
    opsOf events ≠ [] :=
  List.ne_nil_of_mem (mem_opsOf.mpr h)

/-- Without the decision no file operation is done. -/
theorem opsOf_of_not_workerAccepts (h : workerAccepts setup.tokens r = false) :
    opsOf (workerRun setup heap uninit r fs).1 = [] := by
  by_cases hr : 0 < r.bytes
  · by_cases htoken : (pDecode r.buffer).val.token = setup.tokens.masterTkn
    · have hping : (pDecode r.buffer).val.msgType = MsgType.ping.code := by
        by_contra hping
        simp [workerAccepts, hr, htoken, hping] at h
      obtain ⟨bytes, heval⟩ := exists_eval_sendPacket heap (fun _ _ => ())
        (pInit ((pDecode r.buffer).val.seqNumber + 1) (lit "1") MsgType.ping.code) 13 [] fs
      rw [workerRun, handleWorkerClient_of_ping hr htoken hping, heval]
      rfl
    · rw [workerRun, handleWorkerClient, DecodeSite.workerClient.decode_of_pos hr]
      simp only
      rw [if_pos htoken]
      rfl
  · have hnonpos : DecodeSite.workerClient.refuses r.bytes = true := decide_eq_true (not_lt.mp hr)
    have hrefuse : DecodeSite.workerClient.decode r = none := by
      rw [DecodeSite.decode, if_pos hnonpos]
    rw [workerRun, handleWorkerClient, hrefuse]
    rfl

theorem sepIndex_cons (rest : List UInt8) : (sepIndex (59 :: rest)).isSome := by
  simp [sepIndex]

/-- The operations of `f_exec`. -/
def IsOperation (op : UInt16) : Prop :=
  op = fileRead ∨ op = fileWrite ∨ op = fileAppend ∨ op = fileDelete

/-- On an argument with a separator, every operation is recorded. -/
theorem exists_op_mem_fExec {op : UInt16} (hop : IsOperation op) {arg : List UInt8}
    (harg : (sepIndex arg).isSome) (output : FileOutput) (h : List WorkerEvent) :
    ∃ o, .op o ∈ ((fExec setup heap op arg output).eval (fun _ _ => ()) h fs).1 := by
  obtain ⟨sep, hsep⟩ := Option.isSome_iff_exists.mp harg
  have hlocked : ∀ {p : WorkerProg FileOutput} {o : FileOp},
      .op o ∈ (p.eval (fun _ _ => ()) h fs).1 →
      ∃ o, .op o ∈ ((locked p).eval (fun _ _ => ()) h fs).1 :=
    fun hmem => ⟨_, Prog.mem_eval_bind hmem _⟩
  rcases hop with rfl | rfl | rfl | rfl
  · rw [fExec_fileRead]
    exact hlocked (Prog.mem_eval_call _ _ _ (WorkerEvent.op (.read _)) _)
  · rw [fExec_fileWrite, writeParts, hsep]
    exact hlocked (Prog.mem_eval_call _ _ _ (WorkerEvent.op (.write _ _)) _)
  · rw [fExec_fileAppend, writeParts, hsep]
    exact hlocked (Prog.mem_eval_call _ _ _ (WorkerEvent.op (.append _ _)) _)
  · rw [fExec_fileDelete]
    exact hlocked (Prog.mem_eval_call _ _ _ (WorkerEvent.op (.delete _)) _)

/-- When `op` happens to be an operation, the `switch` leaves it one for every type. -/
theorem exists_eval_switchOp {u : UInt16} (hu : IsOperation u) (seq type : UInt32) :
    ∃ h' op, (switchOp setup heap seq type u).eval (fun _ _ => ()) [] fs =
      (h', some (op, fs)) ∧ IsOperation op := by
  obtain ⟨bytes, hanswer⟩ := exists_eval_answerClient_error setup heap (fun _ _ => ())
    (show (FileOutput.mk 1 none 0).error ≠ 0 by decide) seq noType [] fs
  unfold switchOp
  split
  · exact ⟨[], fileRead, rfl, .inl rfl⟩
  · exact ⟨[], fileWrite, rfl, .inr (.inl rfl)⟩
  · exact ⟨[], fileAppend, rfl, .inr (.inr (.inl rfl))⟩
  · exact ⟨[], fileDelete, rfl, .inr (.inr (.inr rfl))⟩
  · exact ⟨_, u, Prog.eval_bind_of_eq hanswer _, hu⟩

/-- With the decision, an operation is done when the argument has a separator and `op` happens to
be an operation. -/
theorem opsOf_ne_nil_of_workerAccepts (h : workerAccepts setup.tokens r = true)
    (harg : (sepIndex ((pDecode r.buffer).val.arg ++ heap.behindArg)).isSome)
    (hop : IsOperation uninit.op) : opsOf (workerRun setup heap uninit r fs).1 ≠ [] := by
  simp only [workerAccepts, Bool.and_eq_true, decide_eq_true_eq] at h
  obtain ⟨⟨hr, htoken⟩, hping⟩ := h
  by_cases hls : (pDecode r.buffer).val.msgType = MsgType.ls.code
  · refine opsOf_ne_nil (o := .list setup.workerDir) ?_
    rw [workerRun, handleWorkerClient_of_ls hr htoken hls]
    exact Prog.mem_eval_bind (by rw [eval_fileList]; simp) _
  · obtain ⟨h', op, hswitch, hop'⟩ := exists_eval_switchOp setup heap fs hop
      ((pDecode r.buffer).val.seqNumber + 1) (pDecode r.buffer).val.msgType
    obtain ⟨o, ho⟩ := exists_op_mem_fExec setup heap fs hop' harg uninit.output h'
    refine opsOf_ne_nil (o := o) ?_
    rw [workerRun, handleWorkerClient_of_fExec hr htoken hping hls, Prog.eval_bind_of_eq hswitch]
    exact Prog.mem_eval_bind ho _

end Worker

section WorkerBytes

variable {tokens : Tokens} {bs : List UInt8}

theorem workerAccepts_delivered (stale : Mem) :
    workerAccepts tokens (.delivered bs stale) = true ↔ bs ≠ [] ∧
      window (overlay bs stale) 14 8 = leBytes 8 tokens.masterTkn.toNat ∧
      window (overlay bs stale) 8 4 ≠ leBytes 4 MsgType.ping.code.toNat := by
  have hpos : 0 < (ReadResult.delivered bs stale).bytes ↔ bs ≠ [] := by
    rw [← List.length_pos_iff]
    exact Int.natCast_pos
  rw [workerAccepts, Bool.and_eq_true, Bool.and_eq_true, decide_eq_true_eq, decide_eq_true_eq,
    decide_eq_true_eq, hpos, token_pDecode_eq_iff, Ne, Ne, Ne, msgType_pDecode_eq_iff, and_assoc]
  rfl

/-- Without a whole header, guarded bytes are dropped whatever the buffer holds. -/
theorem workerAccepts_eq_false (hbs : WorkerGuarded tokens bs) (hlen : bs.length < headerSize)
    (stale : Mem) : workerAccepts tokens (.delivered bs stale) = false := by
  rw [← Bool.not_eq_true, workerAccepts_delivered]
  rintro ⟨hne, htoken, htype⟩
  rcases hbs with hnil | hle | hprefix | hping
  · exact hne hnil
  · omega
  · exact hprefix (htoken ▸ take_drop_prefix_window bs stale 14 8)
  · have h12 : 8 + 4 ≤ bs.length := by
      have := congrArg List.length hping
      simp only [List.length_take, List.length_drop, length_leBytes] at this
      omega
    exact htype ((window_overlay_of_le stale h12).trans hping)

/-- With a whole header, the decision depends on the delivered bytes only. -/
theorem workerAccepts_congr (hlen : headerSize ≤ bs.length) (stale stale' : Mem) :
    workerAccepts tokens (.delivered bs stale) = workerAccepts tokens (.delivered bs stale') := by
  have h14 : 14 + 8 ≤ bs.length := hlen
  have h8 : 8 + 4 ≤ bs.length := le_trans (by decide) hlen
  rw [Bool.eq_iff_iff, workerAccepts_delivered, workerAccepts_delivered,
    window_overlay_congr stale stale' h14, window_overlay_congr stale stale' h8]

/-- A buffer that completes a header of the master, with separators behind it. -/
def masterStale (tokens : Tokens) : Mem :=
  overlay (List.replicate 14 1 ++ leBytes 8 tokens.masterTkn.toNat ++ []) fun _ => 59

/-- Short bytes that are not guarded are taken for a packet of the master. -/
theorem workerAccepts_masterStale (hbs : ¬ WorkerGuarded tokens bs) :
    workerAccepts tokens (.delivered bs (masterStale tokens)) = true := by
  simp only [WorkerGuarded, not_or, not_not] at hbs
  obtain ⟨hne, hlen, hprefix, hping⟩ := hbs
  rw [workerAccepts_delivered]
  refine ⟨hne, ?_, fun htype => ?_⟩
  · exact window_overlay_of_prefix (length_leBytes _ _) hprefix
      (window_overlay_append _ _ _ _ (by simp) (by simp))
  · rcases Nat.lt_or_ge bs.length 12 with h12 | h12
    · -- the last byte of the type comes from the buffer
      have hbyte := congrArg (fun l => l[3]?) htype
      simp only [getElem?_window (show 3 < 4 by decide)] at hbyte
      rw [overlay_of_le _ (by omega), masterStale, List.append_nil,
        overlay_of_lt _ (by simp), List.getElem_append_left (by simp)] at hbyte
      exact absurd hbyte (by simp; decide)
    · exact hping ((window_overlay_of_le _ (by omega)).symm.trans htype)

/-- Behind a short header, the argument is read from the buffer. -/
theorem exists_arg_eq_cons {stale : Mem} (hlen : bs.length < headerSize)
    (hstale : ∀ i, headerSize ≤ i → stale i = 59) : ∃ rest,
    (pDecode (overlay bs stale)).val.arg ++ [59, 0] = 59 :: rest := by
  rw [arg_pDecode]
  cases (pDecode (overlay bs stale)).val.msgLen.toNat with
  | zero => exact ⟨[0], rfl⟩
  | succ n =>
    rw [window_succ, overlay_of_le stale (show bs.length ≤ 22 from hlen.le), hstale 22 le_rfl]
    exact ⟨_, rfl⟩

end WorkerBytes

/-- **The decision of the worker.** -/
theorem workerDecision_iff (setup : WorkerSetup) (bs : List UInt8) :
    WorkerDecision setup bs ↔ WorkerGuarded setup.tokens bs := by
  constructor
  · rintro ⟨hauth, -⟩
    by_contra hbs
    have hlen : bs.length < headerSize := by
      by_contra hle
      exact hbs (.inr (.inl (not_lt.mp hle)))
    have hstale : ∀ i, headerSize ≤ i → masterStale setup.tokens i = 59 := fun i hi =>
      overlay_of_le _ (by simpa [headerSize] using hi)
    obtain ⟨rest, harg⟩ := exists_arg_eq_cons hlen hstale
    let heap : WorkerHeap := { zeroWorkerHeap with behindArg := [59, 0] }
    have hops : opsOf (workerRun setup heap ⟨fileRead, ⟨1, none, 0⟩⟩
        (.delivered bs (masterStale setup.tokens)) emptyFs).1 ≠ [] :=
      opsOf_ne_nil_of_workerAccepts setup heap emptyFs (workerAccepts_masterStale hbs)
        (harg ▸ sepIndex_cons rest) (.inl rfl)
    exact absurd (hauth _ _ _ _ hops).1 (not_le.mpr hlen)
  · intro hbs
    rcases Nat.lt_or_ge bs.length headerSize with hlen | hlen
    · refine ⟨fun stale heap uninit fs hops => ?_, fun stale stale' => ?_⟩
      · exact absurd (opsOf_of_not_workerAccepts setup heap fs
          (workerAccepts_eq_false hbs hlen stale)) hops
      · rw [workerAccepts_eq_false hbs hlen, workerAccepts_eq_false hbs hlen]
    · refine ⟨fun stale heap uninit fs hops => ⟨hlen, ?_⟩, workerAccepts_congr hlen⟩
      have haccept : workerAccepts setup.tokens (.delivered bs stale) = true := by
        by_contra hnot
        exact hops (opsOf_of_not_workerAccepts setup heap fs (Bool.not_eq_true _ ▸ hnot))
      rw [← (workerAccepts_delivered stale).1 haccept |>.2.1, window_overlay_of_le stale hlen]

/-! ### The master -/

section Master

/-- The decision of the master to register a worker. -/
def masterAccepts (tokens : Tokens) (r : ReadResult) : Bool :=
  decide (0 < r.bytes) && decide ((pDecode r.buffer).val.token = tokens.workerTkn) &&
    decide ((pDecode r.buffer).val.msgType = MsgType.register.code)

/-- The delivered bytes hold the type REGISTER and the token of the workers. -/
def MasterAuthorized (tokens : Tokens) (bs : List UInt8) : Prop :=
  (bs.drop 8).take 4 = leBytes 4 MsgType.register.code.toNat ∧
    (bs.drop 14).take 8 = leBytes 8 tokens.workerTkn.toNat

/-- The run of `handle_client` of the master returns with another table. -/
def ChangesTable (tokens : Tokens) (heap : Heap) (workerId : UInt32)
    (env : List Request → Request → Reply) (t : ServerTable) (r : ReadResult) : Prop :=
  ∃ io out t', (handleClient tokens heap workerId r).eval env [] t = (io, some (out, t')) ∧
    t'.serverTable ≠ t.serverTable

/-- For the delivered bytes `bs`, from every table and over every memory: an entry is added only
if the bytes authorize it, and the decision does not depend on the rest of the buffer. -/
def MasterDecision (tokens : Tokens) (bs : List UInt8) : Prop :=
  (∀ stale heap workerId env t, ChangesTable tokens heap workerId env t (.delivered bs stale) →
    MasterAuthorized tokens bs) ∧
  ∀ stale stale', masterAccepts tokens (.delivered bs stale) =
    masterAccepts tokens (.delivered bs stale')

/-- The delivered bytes are none, hold a whole header, or contradict the token or the type. -/
def MasterGuarded (tokens : Tokens) (bs : List UInt8) : Prop :=
  bs = [] ∨ headerSize ≤ bs.length ∨
    ¬ (bs.drop 14).take 8 <+: leBytes 8 tokens.workerTkn.toNat ∨
    ¬ (bs.drop 8).take 4 <+: leBytes 4 MsgType.register.code.toNat

instance (tokens : Tokens) (bs : List UInt8) : Decidable (MasterGuarded tokens bs) :=
  inferInstanceAs (Decidable (_ ∨ _))

variable {tokens : Tokens} {heap : Heap} {workerId : UInt32}
  {env : List Request → Request → Reply} {t : ServerTable} {r : ReadResult}

/-- Without the decision the table stays as it is. -/
theorem masterAccepts_of_changesTable (h : ChangesTable tokens heap workerId env t r) :
    masterAccepts tokens r = true := by
  obtain ⟨io, out, t', heval, hne⟩ := h
  by_contra hnot
  refine hne (congrArg ServerTable.serverTable ?_)
  by_cases hr : 0 < r.bytes
  · refine (readOnly_handleClient tokens heap workerId fun hboth => hnot ?_).eq_of_eval heval
    simp [masterAccepts, hr, hboth.1, hboth.2]
  · rw [handleClient_of_not_pos tokens heap workerId hr] at heval
    exact ((Prod.mk.inj (Option.some.inj (congrArg Prod.snd heval))).2).symm

theorem charAt_cons (c : UInt8) (rest : List UInt8) : charAt (c :: rest) c = some 0 := by
  rw [charAt, charAtLoop, if_pos rfl]
  rfl

/-- With the decision, an entry is added when the argument starts with a separator and the table
is not full. -/
theorem changesTable_of_masterAccepts (h : masterAccepts tokens r = true) {rest : List UInt8}
    (harg : argMemory r heap = 59 :: rest) (ht : t.serverCount.toNat < 65535) :
    ChangesTable tokens heap workerId env t r := by
  simp only [masterAccepts, Bool.and_eq_true, decide_eq_true_eq] at h
  obtain ⟨⟨hr, htoken⟩, htype⟩ := h
  have hchar : charAt (59 :: rest) semicolon = some 0 := charAt_cons 59 rest
  obtain ⟨port, hport⟩ : ∃ port, parsePort (59 :: rest) = some port := by
    rw [parsePort, hchar]
    exact ⟨_, rfl⟩
  obtain ⟨ip, hip⟩ : ∃ ip, parseIp (59 :: rest) = some ip := by
    rw [parseIp, hchar]
    exact ⟨_, rfl⟩
  obtain ⟨t', hadd⟩ := ServerTable.add_isSome ⟨workerId.toUInt64, 0,
    CString.ofMemory (ip ++ heap.behindIp), port⟩ ht
  refine ⟨[], ⟨none, workerId + 1⟩, t', ?_, ?_⟩
  · rw [handleClient_of_register tokens heap workerId hr htype htoken, harg, hport, hip]
    exact Prog.eval_bind_of_eq (eval_addServer env [] t hadd) _
  · rw [ServerTable.serverTable_add hadd]
    simp

end Master

section MasterBytes

variable {tokens : Tokens} {bs : List UInt8}

theorem masterAccepts_delivered (stale : Mem) :
    masterAccepts tokens (.delivered bs stale) = true ↔ bs ≠ [] ∧
      window (overlay bs stale) 14 8 = leBytes 8 tokens.workerTkn.toNat ∧
      window (overlay bs stale) 8 4 = leBytes 4 MsgType.register.code.toNat := by
  have hpos : 0 < (ReadResult.delivered bs stale).bytes ↔ bs ≠ [] := by
    rw [← List.length_pos_iff]
    exact Int.natCast_pos
  rw [masterAccepts, Bool.and_eq_true, Bool.and_eq_true, decide_eq_true_eq, decide_eq_true_eq,
    decide_eq_true_eq, hpos, token_pDecode_eq_iff, msgType_pDecode_eq_iff, and_assoc]
  rfl

theorem masterAccepts_eq_false (hbs : MasterGuarded tokens bs) (hlen : bs.length < headerSize)
    (stale : Mem) : masterAccepts tokens (.delivered bs stale) = false := by
  rw [← Bool.not_eq_true, masterAccepts_delivered]
  rintro ⟨hne, htoken, htype⟩
  rcases hbs with hnil | hle | hprefix | hprefix
  · exact hne hnil
  · omega
  · exact hprefix (htoken ▸ take_drop_prefix_window bs stale 14 8)
  · exact hprefix (htype ▸ take_drop_prefix_window bs stale 8 4)

theorem masterAccepts_congr (hlen : headerSize ≤ bs.length) (stale stale' : Mem) :
    masterAccepts tokens (.delivered bs stale) = masterAccepts tokens (.delivered bs stale') := by
  have h14 : 14 + 8 ≤ bs.length := hlen
  have h8 : 8 + 4 ≤ bs.length := le_trans (by decide) hlen
  rw [Bool.eq_iff_iff, masterAccepts_delivered, masterAccepts_delivered,
    window_overlay_congr stale stale' h14, window_overlay_congr stale stale' h8]

/-- A buffer that completes the header of a registration, with separators behind it. -/
def workerStale (tokens : Tokens) : Mem :=
  overlay (List.replicate 8 0 ++ leBytes 4 MsgType.register.code.toNat ++
    (List.replicate 2 0 ++ leBytes 8 tokens.workerTkn.toNat)) fun _ => 59

/-- Short bytes that are not guarded are taken for a registration. -/
theorem masterAccepts_workerStale (hbs : ¬ MasterGuarded tokens bs) :
    masterAccepts tokens (.delivered bs (workerStale tokens)) = true := by
  simp only [MasterGuarded, not_or, not_not] at hbs
  obtain ⟨hne, -, htoken, htype⟩ := hbs
  rw [masterAccepts_delivered]
  refine ⟨hne, window_overlay_of_prefix (length_leBytes _ _) htoken ?_,
    window_overlay_of_prefix (length_leBytes _ _) htype ?_⟩
  · rw [workerStale, ← List.append_assoc, ← List.append_nil (_ ++ leBytes 8 _)]
    exact window_overlay_append _ _ _ _ (by simp) (by simp)
  · exact window_overlay_append _ _ _ _ (by simp) (by simp)

end MasterBytes

/-- **The decision of the master.** -/
theorem masterDecision_iff (tokens : Tokens) (bs : List UInt8) :
    MasterDecision tokens bs ↔ MasterGuarded tokens bs := by
  constructor
  · rintro ⟨hauth, -⟩
    by_contra hbs
    have hlen : bs.length < headerSize := by
      by_contra hle
      exact hbs (.inr (.inl (not_lt.mp hle)))
    have hstale : ∀ i, headerSize ≤ i → workerStale tokens i = 59 := fun i hi =>
      overlay_of_le _ (by simpa [headerSize] using hi)
    obtain ⟨rest, harg⟩ := exists_arg_eq_cons hlen hstale
    have hadds : ChangesTable tokens { zeroHeap with behindArg := [59, 0] } 1
        (fun _ _ => silentReply) .empty (.delivered bs (workerStale tokens)) :=
      changesTable_of_masterAccepts (masterAccepts_workerStale hbs) harg (by decide)
    have htoken := congrArg List.length (hauth _ _ _ _ _ hadds).2
    simp only [List.length_take, List.length_drop, length_leBytes, headerSize] at htoken hlen
    omega
  · intro hbs
    rcases Nat.lt_or_ge bs.length headerSize with hlen | hlen
    · refine ⟨fun stale heap workerId env t hadds => ?_, fun stale stale' => ?_⟩
      · have haccept := masterAccepts_of_changesTable hadds
        rw [masterAccepts_eq_false hbs hlen] at haccept
        exact absurd haccept (by simp)
      · rw [masterAccepts_eq_false hbs hlen, masterAccepts_eq_false hbs hlen]
    · refine ⟨fun stale heap workerId env t hadds => ?_, masterAccepts_congr hlen⟩
      obtain ⟨-, htoken, htype⟩ :=
        (masterAccepts_delivered stale).1 (masterAccepts_of_changesTable hadds)
      rw [window_overlay_of_le stale hlen] at htoken
      rw [window_overlay_of_le stale (le_trans (by decide) hlen)] at htype
      exact ⟨htype, htoken⟩

/-! ### Sequences of connections -/

section Sessions

/-- A connection to a worker: the bytes delivered, and the memory while it is served. -/
structure WorkerConnection where
  /-- The bytes delivered. -/
  bytes : List UInt8
  /-- The rest of the receive buffer. -/
  stale : Mem
  /-- Around the allocated blocks. -/
  heap : WorkerHeap
  /-- In the uninitialised variables. -/
  uninit : Uninit

/-- Serving a connection from a file system. -/
def WorkerConnection.run (setup : WorkerSetup) (c : WorkerConnection) (fs : FileSystem) :
    List WorkerEvent × Option (Unit × FileSystem) :=
  workerRun setup c.heap c.uninit (.delivered c.bytes c.stale) fs

/-- The connections that a worker serves one after the other, each with the file system it finds,
until it stops. -/
def workerSession (setup : WorkerSetup) :
    List WorkerConnection → FileSystem → List (WorkerConnection × FileSystem)
  | [], _ => []
  | c :: cs, fs => (c, fs) ::
      match (c.run setup fs).2 with
      | none => []
      | some (_, fs') => workerSession setup cs fs'

theorem mem_of_mem_workerSession {setup : WorkerSetup} {cs : List WorkerConnection}
    {fs : FileSystem} {x : WorkerConnection × FileSystem} (hx : x ∈ workerSession setup cs fs) :
    x.1 ∈ cs := by
  induction cs generalizing fs with
  | nil => exact absurd hx List.not_mem_nil
  | cons c cs ih =>
    rcases List.mem_cons.mp hx with rfl | hx
    · exact List.mem_cons_self
    · refine List.mem_cons_of_mem c ?_
      split at hx
      · exact absurd hx List.not_mem_nil
      · exact ih hx

/-- A connection to the master: the bytes delivered, the memory while it is served, and the
workers. -/
structure MasterConnection where
  /-- The bytes delivered. -/
  bytes : List UInt8
  /-- The rest of the receive buffer. -/
  stale : Mem
  /-- Around the allocated blocks. -/
  heap : Heap
  /-- The answers of the workers. -/
  env : List Request → Request → Reply

/-- The connections that the master serves one after the other, each with the worker id and the
table it finds, until it stops. -/
def masterSession (tokens : Tokens) : List MasterConnection → UInt32 → ServerTable →
    List (MasterConnection × UInt32 × ServerTable)
  | [], _, _ => []
  | c :: cs, workerId, t => (c, workerId, t) ::
      match ((handleClient tokens c.heap workerId (.delivered c.bytes c.stale)).eval c.env []
        t).2 with
      | none => []
      | some (out, t') => masterSession tokens cs out.workerId t'

theorem mem_of_mem_masterSession {tokens : Tokens} {cs : List MasterConnection}
    {workerId : UInt32} {t : ServerTable} {x : MasterConnection × UInt32 × ServerTable}
    (hx : x ∈ masterSession tokens cs workerId t) : x.1 ∈ cs := by
  induction cs generalizing workerId t with
  | nil => exact absurd hx List.not_mem_nil
  | cons c cs ih =>
    rcases List.mem_cons.mp hx with rfl | hx
    · exact List.mem_cons_self
    · refine List.mem_cons_of_mem c ?_
      split at hx
      · exact absurd hx List.not_mem_nil
      · exact ih hx

end Sessions

/-- **Authorization.** For single connections, at the worker and at the master, the decision is
sound and independent of the undelivered part of the buffer if and only if the delivered bytes are
guarded. In every sequence of guarded connections every connection served is decided so. -/
theorem authorization (setup : WorkerSetup) :
    (∀ bs, WorkerDecision setup bs ↔ WorkerGuarded setup.tokens bs) ∧
    (∀ bs, MasterDecision setup.tokens bs ↔ MasterGuarded setup.tokens bs) ∧
    (∀ cs fs, (∀ c ∈ cs, WorkerGuarded setup.tokens c.bytes) →
      ∀ x ∈ workerSession setup cs fs,
        (opsOf (x.1.run setup x.2).1 ≠ [] → WorkerAuthorized setup.tokens x.1.bytes) ∧
        ∀ stale, workerAccepts setup.tokens (.delivered x.1.bytes stale) =
          workerAccepts setup.tokens (.delivered x.1.bytes x.1.stale)) ∧
    ∀ cs workerId t, (∀ c ∈ cs, MasterGuarded setup.tokens c.bytes) →
      ∀ x ∈ masterSession setup.tokens cs workerId t,
        (ChangesTable setup.tokens x.1.heap x.2.1 x.1.env x.2.2 (.delivered x.1.bytes x.1.stale) →
          MasterAuthorized setup.tokens x.1.bytes) ∧
        ∀ stale, masterAccepts setup.tokens (.delivered x.1.bytes stale) =
          masterAccepts setup.tokens (.delivered x.1.bytes x.1.stale) := by
  refine ⟨workerDecision_iff setup, masterDecision_iff setup.tokens, ?_, ?_⟩
  · intro cs fs hcs x hx
    obtain ⟨hauth, hsame⟩ :=
      (workerDecision_iff setup x.1.bytes).2 (hcs x.1 (mem_of_mem_workerSession hx))
    exact ⟨hauth x.1.stale x.1.heap x.1.uninit x.2, fun stale => hsame stale x.1.stale⟩
  · intro cs workerId t hcs x hx
    obtain ⟨hauth, hsame⟩ :=
      (masterDecision_iff setup.tokens x.1.bytes).2 (hcs x.1 (mem_of_mem_masterSession hx))
    exact ⟨hauth x.1.stale x.1.heap x.2.1 x.1.env x.2.2, fun stale => hsame stale x.1.stale⟩

/-- One delivered byte is enough for a file operation, when the buffer holds the rest of a
header. -/
theorem not_workerDecision_short :
    ¬ ∀ (setup : WorkerSetup) (bs : List UInt8),
      WorkerDecision setup bs ∧ MasterDecision setup.tokens bs := by
  intro h
  exact absurd ((workerDecision_iff exampleSetup [0]).1 (h exampleSetup [0]).1) (by decide)

end PekarDrive
