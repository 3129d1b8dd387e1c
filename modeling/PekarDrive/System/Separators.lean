import PekarDrive.Client.Interface
import PekarDrive.Master.Dispatch
import PekarDrive.Worker.Confined

/-!
# Cutting an argument at its separator

The argument of a WRITE is a file name and a text with a separator between them. `gen_write_arg` of
the client and `worker_write` of the master join the two, `exec_long` of the master and `file_name`
and `buffer` of a worker cut them apart, each with a search of its own. The pieces are taken here as
counted bytes; the blocks that they are stored in, which have no room for a terminator, are those of
`PekarDrive.System.Terminators`.

## Main definitions

* `PekarDrive.separatorLoop`: the loop of `file_name` and `buffer`.
* `PekarDrive.Pieces`, `PekarDrive.masterPieces`, `PekarDrive.workerPieces`.
* `PekarDrive.CutAtFirst`: the searches agree.

## Main results

* `PekarDrive.exists_masterPieces`, `PekarDrive.writeParts_eq_workerPieces`: the strings of
  `exec_long` and `f_exec` are read from these pieces.
* `PekarDrive.separators_agree`.
-/

namespace PekarDrive

open CMemory CText LockedThreads

/-! ### The pieces -/

/-- The loop of `file_name` and `buffer`: the counter behind it, which has gone one further than the
separator. A search whose counter has gone round never ends. -/
def separatorLoop : List UInt8 → UInt32 → Option UInt32
  | [], _ => none
  | b :: bs, counter =>
    if b = semicolon then some (counter + 1)
    else if counter + 1 = 0 then none
    else separatorLoop bs (counter + 1)

/-- A file name and a text, as counted bytes. -/
structure Pieces where
  /-- The file name. -/
  file : List UInt8
  /-- The text. -/
  data : List UInt8
  deriving DecidableEq

/-- The pieces of `exec_long`: as many bytes as the index says, and the string behind. -/
def masterPieces (arg : List UInt8) : Option Pieces :=
  match charAt arg semicolon with
  | none => none
  | some separator =>
    if separator < 0 then none
    else some ⟨strncpy arg separator.toNat,
      (CString.ofMemory (arg.drop (separator.toNat + 1))).bytes⟩

/-- The pieces of `file_name` and `buffer`: one byte less than the counter, and the string from the
counter on. -/
def workerPieces (ptr : List UInt8) : Option Pieces :=
  (separatorLoop ptr 0).map fun counter =>
    ⟨strncpy ptr (counter - 1).toNat, (CString.ofMemory (ptr.drop counter.toNat)).bytes⟩

/-- All searches end at the first separator of the argument, and `worker_write` joins the pieces of
the master to the argument. -/
structure CutAtFirst (arg : CString) (behind : List UInt8) : Prop where
  /-- `char_at`. -/
  charAt_eq : charAt (arg.bytes ++ 0 :: behind) semicolon = some (arg.bytes.idxOf semicolon : ℤ)
  /-- `file_name`. -/
  fileName : ∃ pieces ∈ workerPieces (arg.bytes ++ 0 :: behind),
    pieces.file.length = arg.bytes.idxOf semicolon
  /-- `buffer`. -/
  buffer : ∃ counter ∈ separatorLoop (arg.bytes ++ 0 :: behind) 0,
    counter.toNat = arg.bytes.idxOf semicolon + 1
  /-- `exec_long` and `worker_write`. -/
  rejoined : ∃ file data : CString,
    masterPieces (arg.bytes ++ 0 :: behind) = some ⟨file.bytes, data.bytes⟩ ∧
    ∀ tokens server, (writeRequest tokens file data server).packet.arg = arg.bytes

/-! ### The strings of the model -/

section Model

/-- The counter, one less. -/
theorem toNat_counter_sub_one {n : ℕ} (hn : n < 2 ^ 32) : (UInt32.ofNat (n + 1) - 1).toNat = n := by
  rw [counter_succ_sub_one, toNat_counter hn]

/-- The counter does not get to zero. -/
theorem ofNat_succ_ne_zero {n : ℕ} (hn : n + 1 < 2 ^ 32) : UInt32.ofNat (n + 1) ≠ 0 := by
  intro h
  have hzero := toNat_counter hn
  rw [h] at hzero
  exact absurd hzero.symm (Nat.succ_ne_zero n)

/-- The loop finds the separator where the model does. -/
theorem separatorLoop_eq (ptr : List UInt8) {i : ℕ} (hi : i < 2 ^ 32) :
    separatorLoop ptr (UInt32.ofNat i) =
      ((ptr.take (2 ^ 32 - i)).findIdx? fun b => b == semicolon).map fun sep =>
        UInt32.ofNat (i + sep + 1) := by
  induction ptr generalizing i with
  | nil => simp [separatorLoop]
  | cons b bs ih =>
    obtain ⟨n, hn⟩ : ∃ n, 2 ^ 32 - i = n + 1 := ⟨2 ^ 32 - i - 1, by omega⟩
    rw [separatorLoop, hn, List.take_succ_cons, List.findIdx?_cons, counter_add_one]
    by_cases hb : b = semicolon
    · rw [if_pos hb, if_pos (beq_iff_eq.mpr hb), Option.map_some, Nat.add_zero]
    · rw [if_neg hb, if_neg fun h => hb (beq_iff_eq.mp h)]
      by_cases hround : i + 1 = 2 ^ 32
      · have hzero : UInt32.ofNat (i + 1) = 0 := by rw [hround]; rfl
        obtain rfl : n = 0 := by omega
        rw [if_pos hzero]
        rfl
      · have hne : UInt32.ofNat (i + 1) ≠ 0 := ofNat_succ_ne_zero (by omega)
        obtain rfl : n = 2 ^ 32 - (i + 1) := by omega
        rw [if_neg hne, ih (by omega), Option.map_map]
        congr 1
        funext sep
        rw [Function.comp_apply]
        congr 1
        omega

/-- The index is that of the first separator, before the counter has gone round. -/
theorem lt_of_sepIndex {ptr : List UInt8} {sep : ℕ} (h : sepIndex ptr = some sep) :
    sep < 2 ^ 32 := by
  have hlt := (List.findIdx?_eq_some_iff_getElem.mp h).1
  rw [List.length_take] at hlt
  omega

/-- The first separator lies in front of a separator, or is this one. -/
theorem le_of_findIdx?_take {file rest : List UInt8} {n sep : ℕ}
    (h : ((file ++ semicolon :: rest).take n).findIdx? (fun b => b == semicolon) = some sep) :
    sep ≤ file.length ∧ (sep = file.length → semicolon ∉ file) := by
  obtain ⟨hlt, -, hfirst⟩ := List.findIdx?_eq_some_iff_getElem.mp h
  have hnot : ∀ j < sep, ∀ hj : j < (file ++ semicolon :: rest).length,
      (file ++ semicolon :: rest)[j] ≠ semicolon := by
    intro j hlt' hj heq
    refine hfirst j hlt' ?_
    rw [List.getElem_take, heq]
    rfl
  constructor
  · by_contra hgt
    refine hnot file.length (by omega) (by simp) ?_
    rw [List.getElem_append_right le_rfl]
    simp
  · rintro rfl hmem
    obtain ⟨j, hj, heq⟩ := List.getElem_of_mem hmem
    refine hnot j hj (by rw [List.length_append]; omega) ?_
    rw [List.getElem_append_left hj, heq]

/-- What lies behind an argument with a separator makes no difference. -/
theorem sepIndex_append {arg : List UInt8} (hsep : semicolon ∈ arg) (hlen : arg.length < 2 ^ 32)
    (behind : List UInt8) : sepIndex (arg ++ behind) = sepIndex arg := by
  obtain ⟨file, rest, rfl, hfile⟩ := List.eq_append_cons_of_mem hsep
  rw [List.length_append, List.length_cons] at hlen
  have hlt : file.length < 2 ^ 32 := by omega
  rw [List.append_assoc, List.cons_append]
  exact (findIdx?_take_append hfile (rest ++ behind) hlt).trans
    (findIdx?_take_append hfile rest hlt).symm

/-- A name in front of a separator has room in the block of `file_name`. -/
theorem argFits_of_append (a : Allocator) (op : UInt16) {file : List UInt8}
    (hlen : file.length + 2 < 2 ^ 32) (rest : List UInt8) :
    ArgFits a op (file ++ semicolon :: rest) := by
  refine fun _ sep hsep => ?_
  have hle := (le_of_findIdx?_take hsep).1
  rw [Nat.mod_eq_of_lt (by omega)]
  exact (Nat.le_add_right sep 2).trans (a.le_usable _)

theorem workerPieces_eq (ptr : List UInt8) : workerPieces ptr = (sepIndex ptr).map fun sep =>
    ⟨strncpy ptr sep, (CString.ofMemory (ptr.drop ((sep + 1) % 2 ^ 32))).bytes⟩ := by
  have hloop := separatorLoop_eq ptr (show 0 < 2 ^ 32 by decide)
  rw [workerPieces, show (0 : UInt32) = UInt32.ofNat 0 from rfl, hloop]
  change Option.map _ (Option.map _ (sepIndex ptr)) = _
  cases hsep : sepIndex ptr with
  | none => rfl
  | some sep =>
    simp only [Option.map_some, Nat.zero_add, toNat_counter_sub_one (lt_of_sepIndex hsep),
      UInt32.toNat_ofNat']

/-- The name and the text in `f_exec` are read from the pieces. -/
theorem writeParts_eq_workerPieces (setup : WorkerSetup) (heap : WorkerHeap) (ptr : List UInt8)
    (isappend : Bool) :
    writeParts setup heap ptr isappend = match workerPieces ptr with
      | none => Prog.fault
      | some pieces => writeFile setup (CString.ofMemory (pieces.file ++ heap.behindName))
          (CString.ofMemory pieces.data) isappend := by
  rw [writeParts, workerPieces_eq]
  cases sepIndex ptr with
  | none => rfl
  | some sep => simp only [Option.map_some, CString.ofMemory_bytes]

/-- The strings in `exec_long` are read from the pieces. -/
theorem exists_masterPieces {heap : Heap} {arg : List UInt8} {parts : CString × CString}
    (h : longParts heap arg = some parts) : ∃ pieces ∈ masterPieces arg,
      parts.1 = CString.ofMemory (pieces.file ++ heap.behindFile) ∧
        parts.2.bytes = pieces.data := by
  rw [longParts] at h
  rw [masterPieces]
  cases hsep : charAt arg semicolon with
  | none => exact absurd h (by simp [hsep])
  | some separator =>
    simp only [hsep] at h ⊢
    split_ifs at h with hneg hbehind
    obtain rfl := Option.some.inj h
    rw [if_neg hneg]
    exact ⟨_, rfl, rfl, rfl⟩

end Model

/-! ### The first separator -/

section First

variable {file : List UInt8} (hfile : semicolon ∉ file)

include hfile

theorem idxOf_semicolon (rest : List UInt8) :
    (file ++ semicolon :: rest).idxOf semicolon = file.length := by
  rw [List.idxOf_append_of_notMem hfile, List.idxOf_cons_self, Nat.add_zero]

/-- The counter goes one further than the separator. -/
theorem separatorLoop_append (rest : List UInt8) {i : ℕ} (hi : i + file.length < 2 ^ 32) :
    separatorLoop (file ++ semicolon :: rest) (UInt32.ofNat i) =
      some (UInt32.ofNat (i + file.length + 1)) := by
  have hlt : file.length < 2 ^ 32 - i := by omega
  rw [separatorLoop_eq _ (by omega), findIdx?_take_append hfile rest hlt, Option.map_some]

end First

section Cut

variable {file data : List UInt8} (hfile : semicolon ∉ file) (hnul : 0 ∉ file)
  (behind : List UInt8)

theorem bytes_ofMemory_data (hdata : 0 ∉ data) :
    (CString.ofMemory (data ++ 0 :: behind)).bytes = data := by
  rw [CString.bytes_ofMemory_append hdata, CString.bytes_ofMemory,
    List.takeWhile_cons_of_neg (by simp), List.append_nil]

include hfile hnul

/-- A worker cuts at the first separator. -/
theorem workerPieces_append (hdata : 0 ∉ data) (hlen : file.length + 1 < 2 ^ 32) :
    workerPieces (file ++ semicolon :: (data ++ 0 :: behind)) = some ⟨file, data⟩ := by
  have hloop := separatorLoop_append hfile (data ++ 0 :: behind) (i := 0) (by omega)
  rw [Nat.zero_add] at hloop
  have hdrop : (file ++ semicolon :: (data ++ 0 :: behind)).drop (file.length + 1) =
      data ++ 0 :: behind := by
    rw [← List.drop_drop, List.drop_left, List.drop_one, List.tail_cons]
  rw [workerPieces, show (0 : UInt32) = UInt32.ofNat 0 from rfl, hloop, Option.map_some,
    toNat_counter hlen, toNat_counter_sub_one (by omega), hdrop, strncpy_append hnul,
    bytes_ofMemory_data behind hdata]

/-- So does the master. -/
theorem charAt_join (hdata : 0 ∉ data) (hlen : file.length + 1 + data.length < 2 ^ 32) :
    charAt (file ++ semicolon :: (data ++ 0 :: behind)) semicolon = some (file.length : ℤ) := by
  have hrest : (CString.ofMemory (data ++ 0 :: behind)).strlen = data.length := by
    rw [CString.strlen, bytes_ofMemory_data behind hdata]
  exact charAt_append hfile hnul (by decide) (by rw [hrest]; omega)

theorem masterPieces_append (hdata : 0 ∉ data) (hlen : file.length + 1 + data.length < 2 ^ 32) :
    masterPieces (file ++ semicolon :: (data ++ 0 :: behind)) = some ⟨file, data⟩ := by
  have hdrop : (file ++ semicolon :: (data ++ 0 :: behind)).drop (file.length + 1) =
      data ++ 0 :: behind := by
    rw [← List.drop_drop, List.drop_left, List.drop_one, List.tail_cons]
  rw [masterPieces, charAt_join hfile hnul behind hdata hlen]
  simp only [Int.toNat_natCast, hdrop, strncpy_append hnul, bytes_ofMemory_data behind hdata]
  rw [if_neg (by omega)]

end Cut

/-! ### The searches agree -/

/-- An argument with a separator, cut at the first one. -/
theorem exists_cut {arg : CString} (h : semicolon ∈ arg.bytes) : ∃ file data : CString,
    semicolon ∉ file.bytes ∧ arg.bytes = file.bytes ++ semicolon :: data.bytes := by
  obtain ⟨file, data, harg, hfile⟩ := List.eq_append_cons_of_mem h
  have hnul := arg.nulFree
  rw [harg, List.mem_append, List.mem_cons] at hnul
  push Not at hnul
  exact ⟨⟨file, hnul.1⟩, ⟨data, hnul.2.2⟩, hfile, harg⟩

theorem bytes_genWriteArg (file data : CString) :
    (genWriteArg file data).bytes = file.bytes ++ semicolon :: data.bytes := by
  have hbytes : (lit ";").bytes = [semicolon] := by decide
  simp [genWriteArg, hbytes]

/-- `worker_write` joins as `gen_write_arg` does. -/
theorem arg_writeRequest (tokens : Tokens) (file data : CString) (server : FileServer) :
    (writeRequest tokens file data server).packet.arg =
      file.bytes ++ semicolon :: data.bytes :=
  bytes_genWriteArg file data

/-- An argument of two parts. -/
theorem cutAtFirst_of_eq {arg file data : CString} (hfile : semicolon ∉ file.bytes)
    (harg : arg.bytes = file.bytes ++ semicolon :: data.bytes) (hlen : arg.strlen < 2 ^ 32)
    (behind : List UInt8) : CutAtFirst arg behind := by
  have hmemory : arg.bytes ++ 0 :: behind =
      file.bytes ++ semicolon :: (data.bytes ++ 0 :: behind) := by
    rw [harg, List.append_assoc, List.cons_append]
  have hlength : file.bytes.length + 1 + data.bytes.length < 2 ^ 32 := by
    rw [CString.strlen, harg, List.length_append, List.length_cons] at hlen
    omega
  have hindex : arg.bytes.idxOf semicolon = file.bytes.length := by
    rw [harg, idxOf_semicolon hfile]
  refine ⟨?_, ?_, ?_, file, data, ?_, fun tokens server => ?_⟩
  · rw [hindex, hmemory]
    exact charAt_join hfile file.nulFree behind data.nulFree hlength
  · refine ⟨⟨file.bytes, data.bytes⟩, ?_, hindex.symm⟩
    rw [hmemory]
    exact workerPieces_append hfile file.nulFree behind data.nulFree (by omega)
  · refine ⟨_, hmemory ▸ separatorLoop_append hfile _ (i := 0) (by omega), ?_⟩
    rw [hindex, Nat.zero_add, toNat_counter (by omega)]
  · rw [hmemory]
    exact masterPieces_append hfile file.nulFree behind data.nulFree hlength
  · rw [arg_writeRequest, harg]

/-- **Separators.** For every argument with a separator, `char_at` of the master, `file_name` and
`buffer` of a worker find the first one, and `worker_write` joins the pieces of the master to the
argument. What `gen_write_arg` joins is cut into the file name and the text by the master, and once
more by the worker. -/
theorem separators_agree (behind : List UInt8) :
    (∀ arg : CString, arg.strlen < 2 ^ 32 → semicolon ∈ arg.bytes → CutAtFirst arg behind) ∧
    ∀ file data : CString, semicolon ∉ file.bytes → (genWriteArg file data).strlen < 2 ^ 32 →
      masterPieces ((genWriteArg file data).bytes ++ 0 :: behind) =
        some ⟨file.bytes, data.bytes⟩ ∧
      ∀ tokens server behind', workerPieces
        ((writeRequest tokens file data server).packet.arg ++ 0 :: behind') =
          some ⟨file.bytes, data.bytes⟩ := by
  constructor
  · intro arg hlen hsep
    obtain ⟨file, data, hfile, harg⟩ := exists_cut hsep
    exact cutAtFirst_of_eq hfile harg hlen behind
  · intro file data hfile hlen
    have hlength : file.bytes.length + 1 + data.bytes.length < 2 ^ 32 := by
      rw [CString.strlen, bytes_genWriteArg, List.length_append, List.length_cons] at hlen
      omega
    refine ⟨?_, fun tokens server behind' => ?_⟩
    · rw [bytes_genWriteArg, List.append_assoc, List.cons_append]
      exact masterPieces_append hfile file.nulFree behind data.nulFree hlength
    · rw [arg_writeRequest, List.append_assoc, List.cons_append]
      exact workerPieces_append hfile file.nulFree behind' data.nulFree (by omega)

/-- The argument `a;b;`, cut and joined. -/
theorem separators_agree_test : CutAtFirst (lit "a;b;") [] ∧
    masterPieces ((genWriteArg (lit "a") (lit "b;")).bytes ++ [0]) =
      some ⟨(lit "a").bytes, (lit "b;").bytes⟩ ∧
    ∀ tokens server behind', workerPieces
      ((writeRequest tokens (lit "a") (lit "b;") server).packet.arg ++ 0 :: behind') =
        some ⟨(lit "a").bytes, (lit "b;").bytes⟩ :=
  ⟨(separators_agree []).1 (lit "a;b;") (by decide) (by decide),
    (separators_agree []).2 (lit "a") (lit "b;") (by decide) (by decide)⟩

end PekarDrive
