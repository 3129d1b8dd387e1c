import PekarDrive.Packet.RoundTrip
import PekarDrive.System.Drive

/-!
# Writes of counted bytes

`fs_write_file` and `file_write` take a pointer and a number of bytes, and look at the pointer only:
the one prints what it points to with `%s`, the other joins it to the file name with `%s`. What is
written is the string at the pointer, which may end before the counted bytes do, or go on behind
them.

For `file_write` the text goes to the master in the argument of a packet, is cut there at the first
separator, joined again for a worker, and cut once more. No block that it is copied to on the way
has a terminator, so that what happens to lie behind a block is written too, or makes the cut come
out differently.

## Main definitions

* `PekarDrive.StoresFirst`: the first bytes at a pointer are stored by `fs_write_file`.
* `PekarDrive.PassesFirst`: they are what a worker stores for `file_write`.
* `PekarDrive.PassesWhole`: the string gets to a worker as it is.

## Main results

* `PekarDrive.storesFirst_iff`, `PekarDrive.passesFirst_iff`.
* `PekarDrive.countedWrites_iff`.
-/

namespace PekarDrive

open CMemory CText LockedThreads

/-- When `fs_write_file` on the pointer to `m` succeeds, it returns the size, and the file holds the
first `size` bytes, behind its old content for an append. -/
def StoresFirst (workDir : Option CString) (file : CString) (m : List UInt8) (size : ℕ)
    (isappend : Bool) (fs : FileSystem) : Prop :=
  let outcome := fsWriteFile workDir file (CString.ofMemory m) isappend fs
  0 ≤ outcome.1 → outcome.1 = size ∧
    ∃ p readable, fs.resolve (setPath workDir file) = some p ∧
      outcome.2.node p = some (.file ((if isappend then
        (fs.fopenRead (setPath workDir file)).getD [] else []) ++ m.take size) readable true)

section Passes

variable (mem : StepMemory) (t : ServerTable) (fileName : CString) (m : List UInt8) (len : ℕ)
  (append : Bool)

/-- The master gets the packet of `file_write` for the pointer to `m`, and asks a worker that writes
the first `len` bytes, and stores them; both packets have room for their arguments. The name that
is written to is read from the blocks of the master and of the worker, and left open. -/
def PassesFirst (a : Allocator) (setup : WorkerSetup) (workerId : UInt32)
    (env : List Request → Request → Reply) (fs : FileSystem) : Prop :=
  let o := Interface.fileWrite fileName (CString.ofMemory m) append
  let hop := mem.hops 0
  o.packet.WellFormed ∧
  ∃ q ∈ ((handleClientConfined a setup.tokens mem.heap workerId (o.delivery mem)).eval env [] t).1,
    q.packet.WellFormed ∧
    ∃ name data : CString, writeOp append name data ∈
        opsOf (workerRunConfined a setup hop.heap hop.uninit (q.delivery hop) fs).1 ∧
      data.bytes = m.take len ∧ data.strlen = len ∧
      StoresFirst setup.workDir name data.bytes len append fs

/-- The string at the pointer to `m` has `len` bytes and gets to a worker as it is. -/
structure PassesWhole : Prop where
  /-- It is not appended: the master passes no APPEND on. -/
  append_eq : append = false
  /-- There is a worker. -/
  registered : t.serverTable ≠ []
  /-- The string has `len` bytes. -/
  strlen_eq : (CString.ofMemory m).strlen = len
  /-- The file name is not cut. -/
  uncut : semicolon ∉ fileName.bytes
  /-- Nor is it behind the block that it is copied to. -/
  behindFile : semicolon ∉ (CString.ofMemory mem.heap.behindFile).bytes
  /-- The argument ends where the block of the master ends. -/
  behindArg : (CString.ofMemory mem.heap.behindArg).bytes = []
  /-- It ends where the block of the worker ends. -/
  behindWorkerArg : (CString.ofMemory (mem.hops 0).heap.behindArg).bytes = []
  /-- The packet to the worker has room in its buffer. -/
  room : headerSize +
    (fileName.strlen + (CString.ofMemory mem.heap.behindFile).strlen + 1 + len) ≤ 10000

end Passes

/-! ### What `fs_write_file` stores -/

section Stores

open FileSystem

variable {fs : FileSystem} {workDir : Option CString} {file buffer : CString} {m : List UInt8}
  {size : ℕ} {isappend : Bool}

/-- The string at a pointer is what lies there up to its length. -/
theorem bytes_ofMemory_eq_take (m : List UInt8) :
    (CString.ofMemory m).bytes = m.take (CString.ofMemory m).strlen :=
  List.prefix_iff_eq_take.mp (List.takeWhile_prefix _)

/-- **`fs_write_file`.** It stores the first `size` bytes if and only if, where it can store at all,
the string at the pointer has this length. -/
theorem storesFirst_iff : StoresFirst workDir file m size isappend fs ↔
    (CarriedOut workDir fs (writeOp isappend file (CString.ofMemory m)) →
      (CString.ofMemory m).strlen < 2 ^ 31 → (CString.ofMemory m).strlen = size) := by
  unfold StoresFirst
  extract_lets outcome
  rcases fsWriteFile_cases workDir file (CString.ofMemory m) isappend fs with
    ⟨hnot, hresult⟩ | ⟨hcarried, hresult, p, readable, hp, hnode⟩
  · refine iff_of_true (fun h => ?_) fun h => absurd h hnot
    rw [show outcome.1 = -1 from hresult] at h
    exact absurd h (by decide)
  · rw [show outcome.1 = _ from hresult]
    constructor
    · intro h _ hlen
      rw [if_pos hlen] at h
      exact_mod_cast (h (Int.natCast_nonneg _)).1
    · intro h hnonneg
      have hlen : (CString.ofMemory m).strlen < 2 ^ 31 := by
        by_contra hnot
        rw [if_neg hnot] at hnonneg
        exact absurd hnonneg (by decide)
      obtain rfl := h hcarried hlen
      refine ⟨if_pos hlen, p, readable, hp, ?_⟩
      rw [hnode, ← bytes_ofMemory_eq_take]

end Stores

/-! ### Where an argument is cut -/

section Cuts

/-- What is read from a place in a text on. -/
theorem bytes_ofMemory_drop {xs : List UInt8} (hxs : 0 ∉ xs) {k : ℕ} (hk : k ≤ xs.length)
    (behind : List UInt8) : (CString.ofMemory ((xs ++ behind).drop k)).bytes =
      xs.drop k ++ (CString.ofMemory behind).bytes := by
  rw [List.drop_append_of_le_length hk,
    CString.bytes_ofMemory_append fun h => hxs (List.mem_of_mem_drop h)]

/-- What is copied from in front of a place. -/
theorem bytes_ofMemory_strncpy {xs : List UInt8} (hxs : 0 ∉ xs) {k : ℕ} (hk : k ≤ xs.length)
    (rest behind : List UInt8) : (CString.ofMemory (strncpy (xs ++ rest) k ++ behind)).bytes =
      xs.take k ++ (CString.ofMemory behind).bytes := by
  have hle : k ≤ (CString.ofMemory (xs ++ rest)).strlen := by
    rw [CString.strlen, CString.bytes_ofMemory_append hxs, List.length_append]
    omega
  rw [strncpy_of_le hle, CString.bytes_ofMemory_append hxs, List.take_append_of_le_length hk,
    CString.bytes_ofMemory_append fun h => hxs (List.mem_of_mem_take h)]

variable {heap : Heap} {file data : CString}

/-- What lies behind the separator of the client, in a block with nothing behind it. -/
theorem ofMemory_drop_genWriteArg {behind : List UInt8}
    (hbehind : (CString.ofMemory behind).bytes = []) :
    CString.ofMemory (((genWriteArg file data).bytes ++ behind).drop (file.strlen + 1)) = data := by
  have hlength : (genWriteArg file data).bytes.length = file.strlen + 1 + data.strlen :=
    strlen_genWriteArg file data
  refine CString.ext ?_
  rw [bytes_ofMemory_drop (CString.nulFree _) (by omega), hbehind, List.append_nil,
    bytes_genWriteArg, CString.strlen, ← List.drop_drop, List.drop_left, List.drop_one,
    List.tail_cons]

/-- The master cuts at the separator of the client, or at one in the file name. -/
theorem exists_of_longParts {parts : CString × CString}
    (h : longParts heap ((genWriteArg file data).bytes ++ heap.behindArg) = some parts) :
    ∃ sep ≤ file.strlen, (sep = file.strlen → semicolon ∉ file.bytes) ∧
      parts.1.bytes =
        (genWriteArg file data).bytes.take sep ++ (CString.ofMemory heap.behindFile).bytes ∧
      parts.2.bytes = (genWriteArg file data).bytes.drop (sep + 1) ++
        (CString.ofMemory heap.behindArg).bytes := by
  have hlen : (genWriteArg file data).bytes.length = file.strlen + 1 + data.strlen :=
    strlen_genWriteArg file data
  rw [longParts, charAt_eq] at h
  cases hfind : (((genWriteArg file data).bytes ++ heap.behindArg).take (searchLength
      ((genWriteArg file data).bytes ++ heap.behindArg))).findIdx? fun b => b == semicolon with
  | none =>
    simp only [hfind] at h
    split_ifs at h
    simp at h
  | some sep =>
    have hcut := hfind
    rw [bytes_genWriteArg, List.append_assoc, List.cons_append] at hcut
    obtain ⟨hle, hlast⟩ := le_of_findIdx?_take hcut
    have hle' : sep ≤ file.strlen := hle
    simp only [hfind, Int.toNat_natCast] at h
    split_ifs at h
    obtain rfl := Option.some.inj h
    exact ⟨sep, hle, hlast, bytes_ofMemory_strncpy (CString.nulFree _) (by omega) _ _,
      bytes_ofMemory_drop (CString.nulFree _) (by omega) _⟩

/-- It cuts at the separator of the client, if the file name has none. -/
theorem exists_longParts_eq (hfile : semicolon ∉ file.bytes)
    (hlen : file.strlen + 1 + data.strlen < 2 ^ 32)
    (hbehind : (CString.ofMemory heap.behindArg).bytes = []) :
    ∃ name : CString, name.bytes = file.bytes ++ (CString.ofMemory heap.behindFile).bytes ∧
      longParts heap ((genWriteArg file data).bytes ++ heap.behindArg) = some (name, data) := by
  have hlength : (genWriteArg file data).bytes.length = file.strlen + 1 + data.strlen :=
    strlen_genWriteArg file data
  have hstrlen : (CString.ofMemory ((genWriteArg file data).bytes ++ heap.behindArg)).strlen =
      file.strlen + 1 + data.strlen := by
    rw [CString.strlen, CString.bytes_ofMemory_append (CString.nulFree _), hbehind,
      List.append_nil, hlength]
  have hchar : charAt ((genWriteArg file data).bytes ++ heap.behindArg) semicolon =
      some (file.strlen : ℤ) := by
    rw [bytes_genWriteArg, List.append_assoc, List.cons_append]
    refine charAt_append hfile file.nulFree (by decide) ?_
    rw [CString.strlen, CString.bytes_ofMemory_append data.nulFree, hbehind, List.append_nil]
    exact hlen.le
  refine ⟨CString.ofMemory (strncpy ((genWriteArg file data).bytes ++ heap.behindArg) file.strlen ++
    heap.behindFile), ?_, ?_⟩
  · rw [bytes_ofMemory_strncpy (CString.nulFree _) (by omega), bytes_genWriteArg, CString.strlen,
      List.take_left]
  · rw [longParts, hchar]
    simp only [Int.toNat_natCast, ofMemory_drop_genWriteArg hbehind]
    rw [if_neg (by omega), if_neg (by rw [hstrlen]; omega)]

end Cuts

/-! ### The master -/

section Master

variable {a : Allocator} {tokens : Tokens} {mem : StepMemory} {workerId : UInt32}
  {env : List Request → Request → Reply} {t : ServerTable} {file data : CString} {append : Bool}

/-- The packet of `file_write`, when it announces its argument, is found by the master if it has room
in the buffer, and stops the master otherwise. -/
theorem inside_delivery_fileWrite_iff
    (hwell : (Interface.fileWrite file data append).packet.WellFormed) :
    DecodeSite.masterClient.Inside ((Interface.fileWrite file data append).delivery mem) ↔
      headerSize + (file.strlen + 1 + data.strlen) ≤ 10000 := by
  have hlength := hwell.length_arg
  have harg : (Interface.fileWrite file data append).packet.arg.length =
      file.strlen + 1 + data.strlen := strlen_genWriteArg file data
  have hlen : headerSize + (Interface.fileWrite file data append).packet.arg.length ≤
      (Interface.fileWrite file data append).len := by
    change 22 + (genWriteArg file data).bytes.length ≤
      40 + (genWriteArg file data).bytes.length + 1
    omega
  rw [← harg, hlength]
  exact Outgoing.inside_take_wire_iff hlength hlen mem.behindSent .masterClient mem.stale

/-- What `file_write` makes the master ask. -/
theorem exists_of_mem_asked {q : Request}
    (hwell : (Interface.fileWrite file data append).packet.WellFormed)
    (hq : q ∈ ((handleClientConfined a tokens mem.heap workerId
      ((Interface.fileWrite file data append).delivery mem)).eval env [] t).1) :
    append = false ∧ ∃ parts w, t.serverTable[0]? = some w ∧
      longParts mem.heap ((genWriteArg file data).bytes ++ mem.heap.behindArg) = some parts ∧
      q = writeRequest tokens parts.1 parts.2 w := by
  have hinside : DecodeSite.masterClient.Inside
      ((Interface.fileWrite file data append).delivery mem) := by
    by_contra hnot
    rw [handleClientConfined_of_not_inside a tokens mem.heap workerId hnot] at hq
    exact absurd hq List.not_mem_nil
  have hsize := (inside_delivery_fileWrite_iff hwell).mp hinside
  have hr := Interface.finds_fileWrite mem append hsize
  have htype : (if append then MsgType.append.code else MsgType.write.code) ≠
      MsgType.register.code := by
    cases append <;> decide
  rw [handleClientConfined_of_inside a tokens mem.heap workerId hinside
    fun hreg => absurd hreg (hr.not_registers htype tokens)] at hq
  have hplain := Prog.fst_eval_confined_isPrefix.subset hq
  have hne : t.serverTable ≠ [] := by
    intro hnil
    have htype' : (pDecode ((Interface.fileWrite file data append).delivery mem).buffer).val.msgType
        ≠ MsgType.register.code := by rwa [hr.decode]
    rw [eval_handleClient_of_unavailable tokens mem.heap workerId env [] hr.pos
      (ServerTable.serverCount_eq_zero_iff.mpr hnil) htype'] at hplain
    exact absurd hplain List.not_mem_nil
  have hcall := masterCall_delivery_fileWrite mem hne append hsize
  cases hparts : longParts mem.heap ((genWriteArg file data).bytes ++ mem.heap.behindArg) with
  | none =>
    rw [hparts, Option.map_none] at hcall
    rw [eval_handleClient_of_none tokens workerId env [] hcall (by rwa [hr.decode])] at hplain
    exact absurd hplain List.not_mem_nil
  | some parts =>
    rw [hparts, Option.map_some] at hcall
    cases append with
    | true =>
      rw [eval_handleClient_of_append hcall] at hplain
      exact absurd hplain List.not_mem_nil
    | false =>
      have hw := List.getElem?_eq_getElem (List.length_pos_iff.mpr hne)
      rw [eval_handleClient_of_write hcall hw] at hplain
      exact ⟨rfl, parts, _, hw, rfl, List.mem_singleton.mp hplain⟩

/-- The master asks the first worker. -/
theorem mem_asked {w : FileServer} {parts : CString × CString}
    (hsize : headerSize + (file.strlen + 1 + data.strlen) ≤ 10000)
    (hw : t.serverTable[0]? = some w)
    (hparts : longParts mem.heap ((genWriteArg file data).bytes ++ mem.heap.behindArg) =
      some parts) :
    writeRequest tokens parts.1 parts.2 w ∈ ((handleClientConfined a tokens mem.heap workerId
      ((Interface.fileWrite file data false).delivery mem)).eval env [] t).1 := by
  have hr := Interface.finds_fileWrite mem false hsize
  have htype : MsgType.write.code ≠ MsgType.register.code := by decide
  have hne : t.serverTable ≠ [] := fun hnil => by simp [hnil] at hw
  have hcall := masterCall_delivery_fileWrite mem hne false hsize
  rw [hparts, Option.map_some] at hcall
  rw [handleClientConfined_of_inside a tokens mem.heap workerId
    (hr.inside_pInit (by rwa [strlen_genWriteArg]))
    fun hreg => absurd hreg (hr.not_registers htype tokens)]
  obtain ⟨rest, hrest⟩ : ∃ rest, (((handleClient tokens mem.heap workerId
      ((Interface.fileWrite file data false).delivery mem)).confined fun _ => Fits a).eval env []
        t).1 = [] ++ writeRequest tokens parts.1 parts.2 w :: rest :=
    Prog.exists_fst_eval_confined (congrArg Prod.fst (eval_handleClient_of_write hcall hw))
  rw [hrest]
  exact List.mem_cons_self

end Master

/-! ### The worker -/

section Worker

variable {a : Allocator} {setup : WorkerSetup} {hop : HopMemory} {w : FileServer}
  {file data : CString} {fs : FileSystem}

/-- A packet that announces its argument is found by the worker if it has room in the buffer, and
stops the worker otherwise. -/
theorem inside_delivery_iff
    (hwell : (writeRequest setup.tokens file data w).packet.WellFormed) :
    DecodeSite.workerClient.Inside ((writeRequest setup.tokens file data w).delivery hop) ↔
      headerSize + (file.strlen + 1 + data.strlen) ≤ 10000 := by
  have hlength := hwell.length_arg
  have harg : (writeRequest setup.tokens file data w).packet.arg.length =
      file.strlen + 1 + data.strlen := strlen_genWriteArg file data
  have hlen : headerSize + (writeRequest setup.tokens file data w).packet.arg.length ≤
      (writeRequest setup.tokens file data w).sendLen := by
    change 22 + (genWriteArg file data).strlen ≤ (genWriteArg file data).strlen + 40 + 1
    omega
  rw [← harg, hlength]
  exact Outgoing.inside_take_wire_iff hlength hlen hop.behindSent .workerClient hop.staleWorker

/-- What the worker finds. -/
theorem finds_writeRequest (hroom : headerSize + (file.strlen + 1 + data.strlen) ≤ 10000) :
    ((writeRequest setup.tokens file data w).delivery hop).Finds
      (writeRequest setup.tokens file data w).packet := by
  have hlen : headerSize + (genWriteArg file data).strlen ≤ 10000 := by rwa [strlen_genWriteArg]
  refine Request.finds_delivery rfl ?_ hlen hop
  change 22 + (genWriteArg file data).strlen ≤ (genWriteArg file data).strlen + 40 + 1
  omega

/-- The events of a worker that gets a WRITE. -/
theorem fst_workerRun_write (uninit : Uninit) (heap : WorkerHeap) (fs : FileSystem)
    {r : ReadResult} (hr : r.Finds (writeRequest setup.tokens file data w).packet) :
    (sepIndex ((genWriteArg file data).bytes ++ heap.behindArg) = none ∧
      (workerRun setup heap uninit r fs).1 = []) ∨
    ∃ sep bytes, sepIndex ((genWriteArg file data).bytes ++ heap.behindArg) = some sep ∧
      (workerRun setup heap uninit r fs).1 =
        [.op (.write
            (CString.ofMemory (strncpy ((genWriteArg file data).bytes ++ heap.behindArg) sep ++
              heap.behindName))
            (CString.ofMemory (((genWriteArg file data).bytes ++ heap.behindArg).drop
              ((sep + 1) % 2 ^ 32)))),
          .send bytes] := by
  have harg : (pDecode r.buffer).val.arg ++ heap.behindArg =
      (genWriteArg file data).bytes ++ heap.behindArg := by
    rw [hr.decode]
    rfl
  have htoken : (pDecode r.buffer).val.token = setup.tokens.masterTkn := by rw [hr.decode]; rfl
  have htype : (pDecode r.buffer).val.msgType = MsgType.write.code := by rw [hr.decode]; rfl
  rw [workerRun_of_switchOp hr.pos htoken htype (by decide) (by decide) fun _ _ => rfl,
    fExec_fileWrite, harg]
  cases hsep : sepIndex ((genWriteArg file data).bytes ++ heap.behindArg) with
  | none =>
    rw [writeParts_of_none false hsep]
    exact .inl ⟨rfl, rfl⟩
  | some sep =>
    rw [writeParts, hsep]
    exact .inr ⟨sep, _, rfl, rfl⟩

/-- What the worker writes. -/
theorem exists_of_mem_written {name text : CString}
    (hwell : (writeRequest setup.tokens file data w).packet.WellFormed)
    (hmem : .write name text ∈ opsOf (workerRunConfined a setup hop.heap hop.uninit
      ((writeRequest setup.tokens file data w).delivery hop) fs).1) :
    headerSize + (file.strlen + 1 + data.strlen) ≤ 10000 ∧
    ∃ sep ≤ file.strlen, (sep = file.strlen → semicolon ∉ file.bytes) ∧
      text.bytes = (genWriteArg file data).bytes.drop (sep + 1) ++
        (CString.ofMemory hop.heap.behindArg).bytes := by
  have hroom : headerSize + (file.strlen + 1 + data.strlen) ≤ 10000 := by
    rw [← inside_delivery_iff hwell]
    by_contra hnot
    rw [workerRunConfined_of_not_inside hnot] at hmem
    exact absurd hmem List.not_mem_nil
  refine ⟨hroom, ?_⟩
  have hsize := hroom
  rw [headerSize] at hsize
  have hlength : (genWriteArg file data).bytes.length = file.strlen + 1 + data.strlen :=
    strlen_genWriteArg file data
  have hplain := fst_workerRunConfined_isPrefix.subset (mem_opsOf.mp hmem)
  have hr : ((writeRequest setup.tokens file data w).delivery hop).Finds
      (writeRequest setup.tokens file data w).packet := finds_writeRequest hroom
  rcases fst_workerRun_write hop.uninit hop.heap fs hr with
    ⟨-, hrun⟩ | ⟨sep, bytes, hsep, hrun⟩
  · rw [hrun] at hplain
    exact absurd hplain List.not_mem_nil
  · rw [hrun, List.mem_cons, List.mem_singleton] at hplain
    obtain ⟨-, rfl⟩ := FileOp.write.inj (WorkerEvent.op.inj (hplain.resolve_right (by simp)))
    rw [sepIndex, bytes_genWriteArg, List.append_assoc, List.cons_append] at hsep
    obtain ⟨hle, hlast⟩ := le_of_findIdx?_take hsep
    have hle' : sep ≤ file.strlen := hle
    refine ⟨sep, hle', hlast, ?_⟩
    rw [Nat.mod_eq_of_lt (by omega), bytes_ofMemory_drop (CString.nulFree _) (by omega)]

/-- It writes the text if the name has no separator and the argument ends where its block ends. -/
theorem exists_mem_written (hroom : headerSize + (file.strlen + 1 + data.strlen) ≤ 10000)
    (hfile : semicolon ∉ file.bytes)
    (hbehind : (CString.ofMemory hop.heap.behindArg).bytes = []) :
    ∃ name, .write name data ∈ opsOf (workerRunConfined a setup hop.heap hop.uninit
      ((writeRequest setup.tokens file data w).delivery hop) fs).1 := by
  have hsize := hroom
  rw [headerSize] at hsize
  have hlength : (genWriteArg file data).bytes.length = file.strlen + 1 + data.strlen :=
    strlen_genWriteArg file data
  have hr : ((writeRequest setup.tokens file data w).delivery hop).Finds
      (writeRequest setup.tokens file data w).packet := finds_writeRequest hroom
  have hlen : headerSize + (writeRequest setup.tokens file data w).packet.msgLen.toNat ≤ 10000 := by
    change headerSize + (UInt32.ofNat (genWriteArg file data).strlen).toNat ≤ 10000
    rwa [strlen_genWriteArg, toNat_counter (by omega)]
  have hmemory : (genWriteArg file data).bytes ++ hop.heap.behindArg =
      file.bytes ++ semicolon :: (data.bytes ++ hop.heap.behindArg) := by
    rw [bytes_genWriteArg, List.append_assoc, List.cons_append]
  have hfirst : sepIndex ((genWriteArg file data).bytes ++ hop.heap.behindArg) =
      some file.strlen := by
    rw [hmemory]
    exact findIdx?_take_append hfile _ (show file.strlen < 2 ^ 32 by omega)
  rcases fst_workerRun_write hop.uninit hop.heap fs hr with ⟨hnone, -⟩ | ⟨sep, bytes, hsep, hrun⟩
  · exact absurd (hfirst.symm.trans hnone) (by simp)
  · obtain rfl := Option.some.inj (hfirst.symm.trans hsep)
    rw [Nat.mod_eq_of_lt (by omega), ofMemory_drop_genWriteArg hbehind] at hrun
    obtain ⟨rest, hconfined⟩ := exists_fst_workerRunConfined (hr.inside hlen)
      (fun _ => by
        rw [hr.decode]
        exact hmemory ▸ argFits_of_append a _ (show file.strlen + 2 < 2 ^ 32 by omega) _) hrun
    exact ⟨_, mem_opsOf.mpr (hconfined ▸ List.mem_cons_self)⟩

end Worker

/-! ### From the client to the file -/

section Passes

variable {a : Allocator} {setup : WorkerSetup} {mem : StepMemory} {workerId : UInt32}
  {env : List Request → Request → Reply} {t : ServerTable} {fs : FileSystem} {fileName : CString}
  {m : List UInt8} {len : ℕ} {append : Bool}

/-- Counted bytes without a zero are no more than the string. -/
theorem le_strlen_of_take {text : CString} (htext : text.bytes = m.take len)
    (hlen : text.strlen = len) : len ≤ (CString.ofMemory m).strlen := by
  have hnul : 0 ∉ m.take len := htext ▸ text.nulFree
  have hbytes := CString.bytes_ofMemory_append hnul (m.drop len)
  rw [List.take_append_drop, ← htext] at hbytes
  rw [CString.strlen, hbytes, List.length_append, ← hlen]
  exact Nat.le_add_right _ _

/-- What the worker writes has `len` bytes only if nothing is cut off and nothing is added. -/
theorem passesWhole_of_passesFirst
    (h : PassesFirst mem t fileName m len append a setup workerId env fs) :
    PassesWhole mem t fileName m len append := by
  obtain ⟨hwell, q, hq, hwell', name, text, hmem, htext, hlen, -⟩ := h
  obtain ⟨rfl, parts, w, hw, hparts, rfl⟩ := exists_of_mem_asked hwell hq
  obtain ⟨sep, hsep, hlast, hname, hdata⟩ := exists_of_longParts hparts
  obtain ⟨hroom, sep', hsep', hlast', hbytes⟩ := exists_of_mem_written hwell' hmem
  have hle := le_strlen_of_take htext hlen
  have harg : (genWriteArg fileName (CString.ofMemory m)).bytes.length =
      fileName.strlen + 1 + (CString.ofMemory m).strlen := strlen_genWriteArg _ _
  have harg' : (genWriteArg parts.1 parts.2).bytes.length =
      parts.1.strlen + 1 + parts.2.strlen := strlen_genWriteArg _ _
  have hnameLen : parts.1.strlen = sep + (CString.ofMemory mem.heap.behindFile).strlen := by
    rw [CString.strlen, hname, List.length_append, List.length_take, Nat.min_eq_left (by omega)]
    rfl
  have hdataLen : parts.2.strlen = fileName.strlen + 1 + (CString.ofMemory m).strlen - (sep + 1) +
      (CString.ofMemory mem.heap.behindArg).strlen := by
    rw [CString.strlen, hdata, List.length_append, List.length_drop, harg]
    rfl
  have htextLen : text.strlen = parts.1.strlen + 1 + parts.2.strlen - (sep' + 1) +
      (CString.ofMemory (mem.hops 0).heap.behindArg).strlen := by
    rw [CString.strlen, hbytes, List.length_append, List.length_drop, harg']
    rfl
  -- no cut is early, and both blocks end with the argument
  obtain rfl : sep = fileName.strlen := by omega
  obtain rfl : sep' = parts.1.strlen := by omega
  have hfile : semicolon ∉ fileName.bytes := hlast rfl
  have hname' := hlast' rfl
  rw [hname, List.mem_append] at hname'
  refine ⟨rfl, List.ne_nil_of_mem (List.mem_of_getElem? hw), by omega, hfile,
    fun hmem => hname' (.inr hmem), List.length_eq_zero_iff.mp ?_,
    List.length_eq_zero_iff.mp ?_, ?_⟩
  · change (CString.ofMemory mem.heap.behindArg).strlen = 0
    omega
  · change (CString.ofMemory (mem.hops 0).heap.behindArg).strlen = 0
    omega
  · omega

/-- **`file_write`.** -/
theorem passesFirst_iff : PassesFirst mem t fileName m len append a setup workerId env fs ↔
    PassesWhole mem t fileName m len append := by
  refine ⟨passesWhole_of_passesFirst, ?_⟩
  rintro ⟨rfl, hne, hlen, hfile, hbehindFile, hbehindArg, hbehindWorkerArg, hroom⟩
  have hsize := hroom
  rw [headerSize] at hsize
  obtain ⟨name, hname, hparts⟩ := @exists_longParts_eq mem.heap fileName (CString.ofMemory m) hfile
    (by omega) hbehindArg
  have hnameLen : name.strlen =
      fileName.strlen + (CString.ofMemory mem.heap.behindFile).strlen := by
    rw [CString.strlen, hname, List.length_append]
    rfl
  have hname' : semicolon ∉ name.bytes := by
    rw [hname, List.mem_append]
    exact not_or.mpr ⟨hfile, hbehindFile⟩
  have hclient : headerSize + (fileName.strlen + 1 + (CString.ofMemory m).strlen) ≤ 10000 := by
    rw [headerSize]
    omega
  have hworker : headerSize + (name.strlen + 1 + (CString.ofMemory m).strlen) ≤ 10000 := by
    rw [headerSize]
    omega
  have hasked : t.serverTable[0]? = some (t.serverTable.head hne) :=
    List.head?_eq_getElem? ▸ List.head?_eq_some_head hne
  let q := writeRequest setup.tokens name (CString.ofMemory m) (t.serverTable.head hne)
  have hlt : (genWriteArg fileName (CString.ofMemory m)).strlen < 2 ^ 32 - 1 := by
    rw [strlen_genWriteArg]
    omega
  have hlt' : (genWriteArg name (CString.ofMemory m)).strlen < 2 ^ 32 - 1 := by
    rw [strlen_genWriteArg]
    omega
  obtain ⟨text, hwritten⟩ : ∃ text, .write text (CString.ofMemory m) ∈ opsOf (workerRunConfined a
      setup (mem.hops 0).heap (mem.hops 0).uninit (q.delivery (mem.hops 0)) fs).1 :=
    exists_mem_written hworker hname' hbehindWorkerArg
  refine ⟨Packet.wellFormed_of_strlen_lt rfl rfl hlt, q, mem_asked hclient hasked hparts,
    Packet.wellFormed_of_strlen_lt rfl rfl hlt', text, CString.ofMemory m, hwritten, ?_, hlen, ?_⟩
  · rw [← hlen, ← bytes_ofMemory_eq_take]
  · rw [storesFirst_iff, CString.ofMemory_bytes]
    exact fun _ _ => hlen

end Passes

/-! ### Both -/

end PekarDrive
