import PekarDrive.Transmission.Received
import PekarDrive.Worker.FileSystem
import Mathlib.Data.List.Induction

/-!
# The block that a file is read into

`fs_read_file` of `src/fs/fs.c` stores a file character by character. Its block has 100 bytes at
first, and is resized where the character that has been read is a multiple of the read size, to 100
bytes more than have been read so far. A character that is stored outside the block is the outcome
`none` here; `PekarDrive.fsReadFile` keeps what the file holds and the size alone.

## Main definitions

* `PekarDrive.fsReadLoop`, `PekarDrive.ReadsWhole`.
* `PekarDrive.ResizedInTime`, `PekarDrive.blockSize`.

## Main results

* `PekarDrive.allocated_take`, `PekarDrive.lt_allocated_iff`: how far the block reaches.
* `PekarDrive.fsReadLoop_eq`: the loop, and the sizes of `PekarDrive.fsReadFile`.
* `PekarDrive.readsWhole_iff`.
-/

namespace PekarDrive

open CMemory CText

/-- One iteration of the loop of `fs_read_file`, with the counter and the block. -/
def fsReadStep (fresh : ℕ → Mem) (state : ℕ × List UInt8) (c : UInt8) : Option (ℕ × List UInt8) :=
  let (counter, buffer) := state
  let buffer :=
    if c.toNat % 100 = 0 then realloc (fresh counter) buffer (100 + counter) else buffer
  (store buffer counter [c]).map fun buffer => (counter + 1, buffer)

/-- The loop of `fs_read_file`: the final counter and the block. -/
def fsReadLoop (start : Mem) (fresh : ℕ → Mem) (content : List UInt8) : Option (ℕ × List UInt8) :=
  content.foldlM (fsReadStep fresh) (0, window start 0 100)

/-- Every character is stored inside the block as it is then, and the bytes before the final counter
are the content of the file. -/
def ReadsWhole (start : Mem) (fresh : ℕ → Mem) (content : List UInt8) : Prop :=
  ∃ counter block, fsReadLoop start fresh content = some (counter, block) ∧
    counter ≤ block.length ∧ block.take counter = content

/-- Of the 100 characters up to each one, one is a multiple of the read size, so that the block has
been resized there. -/
def ResizedInTime (content : List UInt8) : Prop := ∀ i < content.length, 100 ≤ i →
  ∃ j ≤ i, i < j + 100 ∧ ∃ c ∈ content[j]?, c.toNat % 100 = 0

/-- The size of the block when this many characters have been read: 100 bytes more than the index of
the last of them that is a multiple of the read size, or 100 bytes when there is none. -/
def blockSize (content : List UInt8) (read : ℕ) : ℕ :=
  100 + ((List.range read).filter fun j =>
    content[j]?.any fun c => c.toNat % 100 = 0).getLast?.getD 0

/-! ### Sizes -/

theorem bytes_foldl_readStep (content : List UInt8) (buffer : ReadBuffer) :
    (content.foldl readStep buffer).bytes = buffer.bytes ++ content := by
  induction content generalizing buffer with
  | nil => rw [List.foldl_nil, List.append_nil]
  | cons c content ih =>
    rw [List.foldl_cons, ih, readStep, List.append_assoc, List.singleton_append]

/-- One more character. -/
theorem allocated_concat (content : List UInt8) (c : UInt8) :
    ((content ++ [c]).foldl readStep ⟨[], 100⟩).allocated =
      if c.toNat % 100 = 0 then 100 + content.length
      else (content.foldl readStep ⟨[], 100⟩).allocated := by
  rw [List.foldl_append, List.foldl_cons, List.foldl_nil, readStep, bytes_foldl_readStep,
    List.nil_append]

theorem blockSize_succ {content : List UInt8} {read : ℕ} {c : UInt8}
    (hget : content[read]? = some c) : blockSize content (read + 1) =
      if c.toNat % 100 = 0 then 100 + read else blockSize content read := by
  rw [blockSize, blockSize, List.range_succ, List.filter_append, List.getLast?_append]
  simp only [List.filter_cons, List.filter_nil, hget, Option.any_some, decide_eq_true_eq]
  split_ifs <;> simp

/-- The sizes of the loop. -/
theorem allocated_take (content : List UInt8) {read : ℕ} (h : read ≤ content.length) :
    ((content.take read).foldl readStep ⟨[], 100⟩).allocated = blockSize content read := by
  induction read with
  | zero => rfl
  | succ read ih =>
    have hget := List.getElem?_eq_getElem (Nat.lt_of_succ_le h)
    rw [List.take_add_one, hget, Option.toList_some, allocated_concat, ih (by omega),
      List.length_take_of_le (by omega), blockSize_succ hget]

/-- The block reaches 100 bytes beyond the last place where it has been resized. -/
theorem lt_allocated_iff (content : List UInt8) (i : ℕ) :
    i < (content.foldl readStep ⟨[], 100⟩).allocated ↔
      (100 ≤ i → ∃ j, i < j + 100 ∧ ∃ c ∈ content[j]?, c.toNat % 100 = 0) := by
  induction content using List.reverseRecOn with
  | nil => simp
  | append_singleton content c ih =>
    rw [allocated_concat]
    split_ifs with hc
    · constructor
      · exact fun h _ => ⟨content.length, by omega, c, by simp, hc⟩
      · intro h
        by_contra hnot
        obtain ⟨j, hj, c', hc', -⟩ := h (by omega)
        have hlt := (List.getElem?_eq_some_iff.mp hc').1
        rw [List.length_append, List.length_singleton] at hlt
        omega
    · rw [ih]
      refine forall_congr' fun _ => exists_congr fun j => and_congr_right fun _ => ?_
      constructor
      · rintro ⟨c', hc', hmod⟩
        exact ⟨c', List.getElem?_append_left (List.getElem?_eq_some_iff.mp hc').1 ▸ hc', hmod⟩
      · rintro ⟨c', hc', hmod⟩
        rcases Nat.lt_or_ge j content.length with hj | hj
        · exact ⟨c', List.getElem?_append_left hj ▸ hc', hmod⟩
        · have hmem : c' ∈ [c] :=
            List.mem_of_getElem? (List.getElem?_append_right hj ▸ hc')
          rw [List.mem_singleton.mp hmem] at hmod
          exact absurd hmod hc

/-- The size at each character is enough for it. -/
theorem resizedInTime_iff (content : List UInt8) : ResizedInTime content ↔
    ∀ i < content.length, i < ((content.take (i + 1)).foldl readStep ⟨[], 100⟩).allocated := by
  refine forall₂_congr fun i hi => ?_
  rw [lt_allocated_iff]
  refine forall_congr' fun _ => ?_
  constructor
  · rintro ⟨j, hji, hj, c, hc, hmod⟩
    exact ⟨j, hj, c, by rwa [List.getElem?_take, if_pos (by omega)], hmod⟩
  · rintro ⟨j, hj, c, hc, hmod⟩
    have hji : j < i + 1 := by
      by_contra hnot
      rw [List.getElem?_take, if_neg hnot] at hc
      exact absurd hc (by simp)
    rw [List.getElem?_take, if_pos hji] at hc
    exact ⟨j, by omega, hj, c, hc, hmod⟩

theorem resizedInTime_concat (content : List UInt8) (c : UInt8) :
    ResizedInTime (content ++ [c]) ↔ ResizedInTime content ∧
      content.length < ((content ++ [c]).foldl readStep ⟨[], 100⟩).allocated := by
  have htake : ∀ i < content.length, (content ++ [c]).take (i + 1) = content.take (i + 1) :=
    fun i hi => List.take_append_of_le_length hi
  have hall : (content ++ [c]).take (content.length + 1) = content ++ [c] :=
    List.take_of_length_le (by simp)
  rw [resizedInTime_iff, resizedInTime_iff, List.length_append, List.length_singleton]
  constructor
  · intro h
    refine ⟨fun i hi => ?_, ?_⟩
    · rw [← htake i hi]
      exact h i (Nat.lt_succ_of_lt hi)
    · have hlast := h content.length (Nat.lt_succ_self _)
      rwa [hall] at hlast
  · rintro ⟨h, hlast⟩ i hi
    rcases Nat.lt_succ_iff_lt_or_eq.mp hi with hlt | rfl
    · rw [htake i hlt]
      exact h i hlt
    · rw [hall]
      exact hlast

/-! ### The loop -/

section Loop

variable {start : Mem} {fresh : ℕ → Mem}

/-- One iteration, with the characters `read` stored. -/
theorem fsReadStep_eq {read buffer : List UInt8} (hread : read <+: buffer)
    (hsize : buffer.length = (read.foldl readStep ⟨[], 100⟩).allocated) (c : UInt8) :
    (read.length < ((read ++ [c]).foldl readStep ⟨[], 100⟩).allocated →
      ∃ block, fsReadStep fresh (read.length, buffer) c = some (read.length + 1, block) ∧
        read ++ [c] <+: block ∧
        block.length = ((read ++ [c]).foldl readStep ⟨[], 100⟩).allocated) ∧
    (((read ++ [c]).foldl readStep ⟨[], 100⟩).allocated ≤ read.length →
      fsReadStep fresh (read.length, buffer) c = none) := by
  rw [allocated_concat, ← hsize, fsReadStep]
  -- the block in which the character is stored
  generalize hbuffer : (if c.toNat % 100 = 0 then realloc (fresh read.length) buffer
    (100 + read.length) else buffer) = resized
  have hlength : resized.length =
      if c.toNat % 100 = 0 then 100 + read.length else buffer.length := by
    rw [← hbuffer]
    split_ifs <;> simp
  have hprefix : read <+: resized := by
    rw [← hbuffer]
    split_ifs
    · exact (List.prefix_take_iff.mpr ⟨hread, by omega⟩).trans (List.prefix_append _ _)
    · exact hread
  obtain ⟨behind, rfl⟩ := hprefix
  rw [← hlength, List.length_append]
  constructor
  · intro hlt
    have hroom : [c].length ≤ behind.length := by
      rw [List.length_singleton]
      omega
    refine ⟨_, by rw [store_append rfl hroom, Option.map_some], ?_, ?_⟩
    · rw [← List.append_assoc]
      exact List.prefix_append _ _
    · simp only [List.length_append, List.length_drop, List.length_singleton] at hroom ⊢
      omega
  · intro hle
    have hfull : ¬ read.length + [c].length ≤ (read ++ behind).length := by
      rw [List.length_append, List.length_singleton]
      omega
    rw [store, if_neg hfull, Option.map_none]

/-- **The loop.** It goes through if every character fits, with the sizes of
`PekarDrive.readStep`. -/
theorem fsReadLoop_eq (content : List UInt8) :
    (ResizedInTime content ∧ ∃ block,
      fsReadLoop start fresh content = some (content.length, block) ∧ content <+: block ∧
      block.length = (content.foldl readStep ⟨[], 100⟩).allocated) ∨
    (¬ ResizedInTime content ∧ fsReadLoop start fresh content = none) := by
  induction content using List.reverseRecOn with
  | nil =>
    refine .inl ⟨fun i hi => absurd hi (Nat.not_lt_zero i), _, rfl, List.nil_prefix, ?_⟩
    exact length_window _ _ _
  | append_singleton content c ih =>
    rw [resizedInTime_concat, fsReadLoop, List.foldlM_append]
    rcases ih with ⟨hresized, block, hloop, hread, hsize⟩ | ⟨hnot, hloop⟩
    · rw [fsReadLoop] at hloop
      obtain ⟨hfits, hshort⟩ := @fsReadStep_eq fresh _ _ hread hsize c
      simp only [hloop, List.foldlM_cons, List.foldlM_nil, Option.bind_eq_bind, Option.bind_some,
        hresized, true_and]
      rcases Nat.lt_or_ge content.length
        ((content ++ [c]).foldl readStep ⟨[], 100⟩).allocated with hlt | hge
      · obtain ⟨block', hstep, hread', hsize'⟩ := hfits hlt
        refine .inl ⟨hlt, block', ?_, hread', hsize'⟩
        rw [hstep, List.length_append, List.length_singleton]
        rfl
      · exact .inr ⟨not_lt.mpr hge, by rw [hshort hge]; rfl⟩
    · rw [fsReadLoop] at hloop
      exact .inr ⟨fun h => hnot h.1, by rw [hloop]; rfl⟩

/-- **Reading a file.** Every character is stored inside the block and the file is read as it is, if
and only if of the 100 characters up to each one there is one by which the block is resized. -/
theorem readsWhole_iff (start : Mem) (fresh : ℕ → Mem) (content : List UInt8) :
    ReadsWhole start fresh content ↔ ResizedInTime content := by
  rcases @fsReadLoop_eq start fresh content with ⟨hresized, block, hloop, hread, -⟩ | ⟨hnot, hloop⟩
  · refine iff_of_true ⟨content.length, block, hloop, hread.length_le, ?_⟩ hresized
    exact (List.prefix_iff_eq_take.mp hread).symm
  · refine iff_of_false ?_ hnot
    rintro ⟨counter, block, hsome, -⟩
    rw [hloop] at hsome
    exact absurd hsome (by simp)

/-- What `PekarDrive.fsReadFile` keeps of a block. -/
theorem fsReadFile_of_fsReadLoop {workDir : Option CString} {file : CString} {fs : FileSystem}
    {content block : List UInt8} {counter : ℕ}
    (hopen : fs.fopenRead (setPath workDir file) = some content)
    (hloop : fsReadLoop start fresh content = some (counter, block)) :
    fsReadFile workDir file fs = some ⟨block.take counter, block.length⟩ := by
  rcases @fsReadLoop_eq start fresh content with ⟨-, block', hloop', hread, hsize⟩ | ⟨-, hnone⟩
  · rw [hloop'] at hloop
    obtain ⟨rfl, rfl⟩ := Prod.mk.inj (Option.some.inj hloop)
    rw [fsReadFile, hopen, ← List.prefix_iff_eq_take.mp hread, hsize]
    simp only [Option.some.injEq]
    have hbytes := bytes_foldl_readStep content ⟨[], 100⟩
    generalize content.foldl readStep ⟨[], 100⟩ = buffer at *
    obtain ⟨bytes, allocated⟩ := buffer
    obtain rfl : bytes = content := hbytes
    rfl
  · rw [hnone] at hloop
    exact absurd hloop (by simp)

/-- The hundred and first letter of a file of letters lies behind the block. -/
theorem not_forall_readsWhole : ¬ ∀ (start : Mem) (fresh : ℕ → Mem) (content : List UInt8),
    ReadsWhole start fresh content := by
  intro h
  obtain ⟨counter, block, hloop, -⟩ := h (fun _ => 0) (fun _ _ => 0) (List.replicate 101 97)
  rcases @fsReadLoop_eq (fun _ => 0) (fun _ _ => 0) (List.replicate 101 97) with
    ⟨hresized, -⟩ | ⟨-, hnone⟩
  · obtain ⟨j, -, -, c, hc, hmod⟩ := hresized 100 (by simp) le_rfl
    rw [List.eq_of_mem_replicate (List.mem_of_getElem? hc)] at hmod
    exact absurd hmod (by decide)
  · rw [hnone] at hloop
    exact absurd hloop (by simp)

end Loop

end PekarDrive
