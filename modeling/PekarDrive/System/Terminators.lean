import PekarDrive.Foundation.Blocks
import PekarDrive.Master.Dispatch
import PekarDrive.Worker.FileExec
import PekarDrive.Worker.ReadFile

/-!
# Strings without a terminator

Six functions store a counted number of bytes in a block that they have allocated, and hand the
block on as a string. None of them stores a terminator: two blocks end with the last byte stored,
and the others are strings when the fresh byte behind it happens to be zero.

## Main definitions

* `PekarDrive.StringSite`: the six places, with `stored`.
* `PekarDrive.StringSite.Terminated`, `PekarDrive.StringSite.ZeroBehind`.

## Main results

* `PekarDrive.longParts_eq`, `PekarDrive.writeParts_eq`, `PekarDrive.fsReadFile_eq`: the strings of
  the model are read from these blocks.
* `PekarDrive.StringSite.ofMemory_of_terminated`: terminated strings are read as intended.
* `PekarDrive.StringSite.terminated_iff`.
-/

namespace PekarDrive

open CMemory CText LockedThreads

/-! ### The places -/

/-- Where a string is made of counted bytes. -/
inductive StringSite
  /-- `arg` in `p_decode`, of the packet at a pointer. -/
  | decodedArg (p : Mem)
  /-- `file` in `exec_long`. -/
  | longFile (arg : List UInt8)
  /-- The result of `parse_ip`. -/
  | parsedIp (str : List UInt8)
  /-- The result of `file_name` of a worker. -/
  | fileName (ptr : List UInt8)
  /-- The result of `fs_read_file`, for a file with the content. -/
  | fileContent (content : List UInt8)
  /-- `out` in `read_file`, for a file with the content; `behind` lies behind the bytes that
  `fs_read_file` has stored. -/
  | readOut (content behind : List UInt8)

/-- A block into which bytes have been stored. -/
structure StoredBlock where
  /-- The size that has been allocated. -/
  size : ℕ
  /-- The bytes stored from the start on. -/
  stored : List UInt8
  /-- The string that the block is to hold. -/
  intended : List UInt8

/-- The separator in `exec_long`, when it gets as far as to store the file name. -/
def longSeparator (arg : List UInt8) : Option ℕ :=
  match charAt arg semicolon with
  | none => none
  | some separator =>
    if separator < 0 then none
    else if ((CString.ofMemory arg).strlen : ℤ) < separator then none
    else some separator.toNat

namespace StringSite

/-- The block, if one is returned. The sizes in `file_name` and `read_file` are unsigned. -/
def stored : StringSite → Option StoredBlock
  | decodedArg p =>
    let res := (pDecode p).val
    some ⟨res.msgLen.toNat, res.arg, res.arg⟩
  | longFile arg => (longSeparator arg).map fun separator =>
      ⟨separator, strncpy arg separator, (CString.ofMemory arg).bytes.take separator⟩
  | parsedIp str => (parseIp str).map fun ip =>
      ⟨(CString.ofMemory str).strlen, ip, (CString.ofMemory str).bytes.take ip.length⟩
  | fileName ptr => (sepIndex ptr).map fun sep =>
      ⟨(UInt32.ofNat sep + 2).toNat, strncpy ptr sep, (CString.ofMemory ptr).bytes.take sep⟩
  | fileContent content =>
    let buffer := content.foldl readStep ⟨[], 100⟩
    some ⟨buffer.allocated, buffer.bytes, content⟩
  | readOut content behind =>
    let read := CString.ofMemory (content ++ behind)
    let readLen := UInt32.ofNat read.strlen
    some ⟨(readLen + 1).toNat, read.bytes.take readLen.toNat, content⟩

/-- Every byte is stored inside the block as it is then. -/
def Inside : StringSite → Prop
  | fileContent content => ∀ i < content.length,
      i < ((content.take (i + 1)).foldl readStep ⟨[], 100⟩).allocated
  | s => ∀ block ∈ s.stored, block.stored.length ≤ block.size

/-- Whatever is returned, with the content of fresh memory, is terminated inside its allocation,
behind exactly the bytes it is to hold. -/
def Terminated (fresh : Mem) (s : StringSite) : Prop :=
  s.Inside ∧ ∀ block ∈ s.stored, HoldsString (filled block.size block.stored fresh) block.intended

/-- Of the 100 bytes up to each place, with the one behind the content, one is a multiple of the
read size, so that the block is resized there. -/
def Resized (content : List UInt8) : Prop := ∀ i ≤ content.length, 100 ≤ i →
  ∃ j ≤ i, i < j + 100 ∧ ∃ c ∈ content[j]?, c.toNat % 100 = 0

/-- A fresh byte that happens to be zero terminates the string. -/
def ZeroBehind (fresh : Mem) : StringSite → Prop
  | decodedArg _ => False
  | longFile arg => longSeparator arg = none
  | parsedIp str => ∀ separator ∈ charAt str semicolon, 0 ≤ separator →
      separator.toNat < (CString.ofMemory str).strlen ∧ fresh separator.toNat = 0
  | fileName ptr => ∀ sep ∈ sepIndex ptr, sep + 2 < 2 ^ 32 ∧
      ((CString.ofMemory ptr).strlen < sep ∨ fresh sep = 0)
  | fileContent content => 0 ∉ content ∧ Resized content ∧ fresh content.length = 0
  | readOut content behind => 0 ∉ content ∧ 2 ^ 32 ∣ (CString.ofMemory behind).strlen ∧
      content.length + 1 < 2 ^ 32 ∧ fresh content.length = 0

end StringSite

/-! ### The strings of the model -/

section Model

theorem length_strncpy (m : List UInt8) (n : ℕ) : (strncpy m n).length = n := by
  rw [strncpy, List.length_take, List.length_append, List.length_replicate]
  omega

/-- The file part of `exec_long` is read from its block. -/
theorem longParts_eq (heap : Heap) (arg : List UInt8) :
    longParts heap arg = (StringSite.longFile arg).stored.map fun block =>
      (CString.ofMemory (block.stored ++ heap.behindFile),
        CString.ofMemory (arg.drop (block.size + 1))) := by
  rw [longParts, StringSite.stored, longSeparator]
  cases charAt arg semicolon with
  | none => rfl
  | some separator =>
    simp only
    split_ifs <;> rfl

/-- So is the name in `f_exec`. -/
theorem writeParts_eq (setup : WorkerSetup) (heap : WorkerHeap) (arg : List UInt8)
    (isappend : Bool) :
    writeParts setup heap arg isappend = match (StringSite.fileName arg).stored with
      | none => Prog.fault
      | some block => writeFile setup (CString.ofMemory (block.stored ++ heap.behindName))
          (CString.ofMemory (arg.drop ((block.stored.length + 1) % 2 ^ 32))) isappend := by
  rw [writeParts, StringSite.stored]
  cases sepIndex arg with
  | none => rfl
  | some sep =>
    simp only [Option.map_some, length_strncpy]

/-- And what `read_file` gets of a file. -/
theorem fsReadFile_eq (workDir : Option CString) (file : CString) (fs : FileSystem) :
    fsReadFile workDir file fs = (fs.fopenRead (setPath workDir file)).bind fun content =>
      (StringSite.fileContent content).stored.map fun block => ⟨block.stored, block.size⟩ := by
  rw [fsReadFile]
  cases fs.fopenRead (setPath workDir file) with
  | none => rfl
  | some content => rfl

/-- The output of `read_file` is stored in its block, as far as a length of 32 bits goes. -/
theorem stored_readOut {content behind : List UInt8}
    (hlen : (CString.ofMemory (content ++ behind)).strlen < 2 ^ 32) : ∃ block,
    (StringSite.readOut content behind).stored = some block ∧
      block.stored = (CString.ofMemory (content ++ behind)).bytes := by
  refine ⟨_, rfl, ?_⟩
  rw [toNat_counter hlen]
  exact List.take_length

end Model

/-! ### Terminators -/

namespace StringSite

variable {s : StringSite} {block : StoredBlock} {fresh : Mem}

theorem terminated_of_some (h : s.stored = some block) : s.Terminated fresh ↔
    s.Inside ∧ HoldsString (filled block.size block.stored fresh) block.intended := by
  simp [Terminated, h]

/-- What is terminated is read as it was intended, whatever lies behind the block. -/
theorem ofMemory_of_terminated (h : s.Terminated fresh) (hblock : s.stored = some block)
    (behind : List UInt8) :
    (CString.ofMemory (filled block.size block.stored fresh ++ behind)).bytes = block.intended := by
  have hholds := ((terminated_of_some hblock).mp h).2
  have hread : ∀ behind, CString.ofMemory (filled block.size block.stored fresh ++ behind) =
      ⟨block.intended, hholds.1⟩ := holdsString_iff_forall.mp hholds
  rw [hread]

/-- The separator of `exec_long` lies inside the string. -/
theorem le_strlen_of_longSeparator {arg : List UInt8} {separator : ℕ}
    (h : longSeparator arg = some separator) : separator ≤ (CString.ofMemory arg).strlen := by
  rw [longSeparator] at h
  split at h
  · exact absurd h (by simp)
  · split_ifs at h
    obtain rfl := Option.some.inj h
    omega

theorem terminated_longFile_iff (arg : List UInt8) :
    (longFile arg).Terminated fresh ↔ longSeparator arg = none := by
  cases hsep : longSeparator arg with
  | none =>
    have hstored : (longFile arg).stored = none := by rw [stored, hsep, Option.map_none]
    simp [Terminated, Inside, hstored]
  | some separator =>
    have hle := le_strlen_of_longSeparator hsep
    refine iff_of_false ?_ (by simp)
    rw [terminated_of_some (by rw [stored, hsep, Option.map_some]), holdsString_strncpy_iff]
    rintro ⟨-, ⟨hlt, -⟩ | ⟨-, hlt, -⟩⟩
    · exact absurd hle (not_le.mpr hlt)
    · exact lt_irrefl _ hlt

theorem terminated_parsedIp_iff (str : List UInt8) :
    (parsedIp str).Terminated fresh ↔ (parsedIp str).ZeroBehind fresh := by
  rw [ZeroBehind]
  cases hsep : charAt str semicolon with
  | none =>
    have hstored : (parsedIp str).stored = none := by rw [stored, parseIp, hsep, Option.map_none]
    simp [Terminated, Inside, hstored]
  | some separator =>
    by_cases hneg : separator < 0
    · have hstored : (parsedIp str).stored = none := by
        rw [stored, parseIp, hsep]
        simp only [if_pos hneg, Option.map_none]
      simp [Terminated, Inside, hstored, hneg]
    · have hip : parseIp str = some (strncpy str separator.toNat) := by
        rw [parseIp, hsep]
        simp only [if_neg hneg]
      have hstored : (parsedIp str).stored = some ⟨(CString.ofMemory str).strlen,
          strncpy str separator.toNat,
          (CString.ofMemory str).bytes.take (strncpy str separator.toNat).length⟩ := by
        rw [stored, hip, Option.map_some]
      rw [terminated_of_some hstored]
      simp only [Inside, hstored, Option.mem_some_iff, forall_eq', length_strncpy,
        holdsString_strncpy_iff, forall_const, not_lt.mp hneg]
      constructor
      · rintro ⟨hinside, ⟨hlt, -⟩ | ⟨-, hzero⟩⟩
        · exact absurd hinside (not_le.mpr hlt)
        · exact hzero
      · exact fun h => ⟨le_of_lt h.1, .inr ⟨le_of_lt h.1, h⟩⟩

theorem terminated_fileName_iff (ptr : List UInt8) :
    (fileName ptr).Terminated fresh ↔ (fileName ptr).ZeroBehind fresh := by
  rw [ZeroBehind]
  cases hsep : sepIndex ptr with
  | none =>
    have hstored : (fileName ptr).stored = none := by rw [stored, hsep, Option.map_none]
    simp [Terminated, Inside, hstored]
  | some sep =>
    have hlt : sep < 2 ^ 32 :=
      (List.findIdx?_eq_some_iff_getElem.mp hsep).1.trans_le (List.length_take_le _ _)
    have hstored : (fileName ptr).stored = some ⟨(UInt32.ofNat sep + 2).toNat, strncpy ptr sep,
        (CString.ofMemory ptr).bytes.take sep⟩ := by
      rw [stored, hsep, Option.map_some]
    have hsize : (UInt32.ofNat sep + 2).toNat = (sep + 2) % 2 ^ 32 := by
      rw [UInt32.toNat_add, toNat_counter hlt]
      rfl
    rw [terminated_of_some hstored]
    simp only [Inside, hstored, Option.mem_some_iff, forall_eq', length_strncpy,
      holdsString_strncpy_iff, hsize]
    constructor
    · rintro ⟨hinside, h⟩
      refine ⟨by omega, h.imp (fun h => h.1) fun h => h.2.2⟩
    · rintro ⟨hfits, h⟩
      rw [Nat.mod_eq_of_lt hfits]
      refine ⟨by omega, ?_⟩
      by_cases hshort : (CString.ofMemory ptr).strlen < sep
      · exact .inl ⟨hshort, by omega⟩
      · exact .inr ⟨not_lt.mp hshort, by omega, h.resolve_left hshort⟩

/-- The bytes and the one behind them lie inside the block, as it is then, if it is resized often
enough. -/
theorem inside_fileContent_iff (content : List UInt8) :
    ((fileContent content).Inside ∧
      content.length < (content.foldl readStep ⟨[], 100⟩).allocated) ↔ Resized content := by
  rw [show (fileContent content).Inside ↔ ResizedInTime content from
    (resizedInTime_iff content).symm, lt_allocated_iff]
  constructor
  · rintro ⟨hinside, hbehind⟩ i hi hle
    rcases Nat.lt_or_eq_of_le hi with hlt | rfl
    · exact hinside i hlt hle
    · obtain ⟨j, hj, c, hc, hmod⟩ := hbehind hle
      exact ⟨j, le_of_lt (List.getElem?_eq_some_iff.mp hc).1, hj, c, hc, hmod⟩
  · intro h
    refine ⟨fun i hi => h i (le_of_lt hi), fun hle => ?_⟩
    obtain ⟨j, -, hj, hc⟩ := h _ le_rfl hle
    exact ⟨j, hj, hc⟩

theorem terminated_fileContent_iff (content : List UInt8) :
    (fileContent content).Terminated fresh ↔ (fileContent content).ZeroBehind fresh := by
  have hbytes : (content.foldl readStep ⟨[], 100⟩).bytes = content := bytes_foldl_readStep _ _
  rw [terminated_of_some rfl, hbytes, holdsString_filled_iff, ZeroBehind,
    ← inside_fileContent_iff]
  tauto

/-- A block that holds the first `r` bytes of a string, and less than its own size. -/
theorem eq_of_holdsString_take {content behind : List UInt8} {r size : ℕ}
    (hbehind : 0 ∉ behind) (hr : r ≤ (content ++ behind).length) (hsize : size ≤ r + 1)
    (h : HoldsString (filled size ((content ++ behind).take r) fresh) content) :
    r = content.length := by
  have hlt := h.length_lt
  rw [length_filled] at hlt
  by_contra hne
  -- a byte of what follows would be the terminator
  have hbyte := List.prefix_iff_getElem?.mp h.2 content.length (by simp)
  have hmem : content.length < ((content ++ behind).take r).length := by
    rw [List.length_take_of_le hr]
    omega
  rw [filled, getElem?_window hlt, Nat.zero_add, overlay_of_lt fresh hmem, List.getElem_take,
    List.getElem_append_right le_rfl] at hbyte
  simp only [List.getElem_concat_length, Option.some.injEq] at hbyte
  exact hbehind (hbyte ▸ List.getElem_mem _)

theorem terminated_readOut_iff (content behind : List UInt8) :
    (readOut content behind).Terminated fresh ↔ (readOut content behind).ZeroBehind fresh := by
  rw [terminated_of_some rfl, ZeroBehind]
  by_cases hnul : 0 ∈ content
  · exact iff_of_false (fun h => h.2.1 hnul) fun h => h.1 hnul
  have hread : (CString.ofMemory (content ++ behind)).bytes =
      content ++ (CString.ofMemory behind).bytes := CString.bytes_ofMemory_append hnul behind
  have hlen : (CString.ofMemory (content ++ behind)).strlen =
      content.length + (CString.ofMemory behind).strlen := by
    rw [CString.strlen, hread, List.length_append]
    rfl
  simp only [Inside, stored, Option.mem_some_iff, forall_eq', hread, UInt32.toNat_add,
    UInt32.toNat_ofNat', UInt32.toNat_one, hlen]
  generalize hr : (content.length + (CString.ofMemory behind).strlen) % 2 ^ 32 = r
  have hrle : r ≤ (content ++ (CString.ofMemory behind).bytes).length := by
    rw [List.length_append, ← hr]
    exact Nat.mod_le _ _
  constructor
  · rintro ⟨-, h⟩
    obtain rfl := eq_of_holdsString_take (CString.ofMemory behind).nulFree hrle
      (Nat.mod_le _ _) h
    rw [List.take_left, holdsString_filled_iff] at h
    refine ⟨h.1, ?_, ?_, h.2.2⟩
    · omega
    · have := h.2.1
      omega
  · rintro ⟨-, hdvd, hfits, hzero⟩
    obtain rfl : content.length = r := by omega
    rw [List.take_left, holdsString_filled_iff, Nat.mod_eq_of_lt hfits]
    exact ⟨Nat.le_succ _, hnul, Nat.lt_succ_self _, hzero⟩

/-- The argument of a decoded packet is never terminated. -/
theorem not_terminated_decodedArg (p : Mem) : ¬ (decodedArg p).Terminated fresh := by
  rw [terminated_of_some rfl, holdsString_filled_iff, length_arg_pDecode]
  exact fun h => lt_irrefl _ h.2.2.1

/-- **Terminators.** For every input and every content of fresh memory, what is returned is
terminated behind its intended bytes if and only if a fresh byte happens to be zero there. -/
theorem terminated_iff (s : StringSite) (fresh : Mem) :
    s.Terminated fresh ↔ s.ZeroBehind fresh := by
  cases s with
  | decodedArg p => exact iff_of_false (not_terminated_decodedArg p) id
  | longFile arg => exact terminated_longFile_iff arg
  | parsedIp str => exact terminated_parsedIp_iff str
  | fileName ptr => exact terminated_fileName_iff ptr
  | fileContent content => exact terminated_fileContent_iff content
  | readOut content behind => exact terminated_readOut_iff content behind

/-- The argument of a packet with one letter has no terminator. -/
theorem not_forall_terminated : ¬ ∀ (s : StringSite) (fresh : Mem), s.Terminated fresh := fun h =>
  not_terminated_decodedArg (overlay (pEncode (pInit 0 (lit "a") MsgType.read.code)) fun _ => 0)
    (h _ fun _ => 0)

end StringSite

end PekarDrive
