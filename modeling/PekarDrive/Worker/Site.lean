import PekarDrive.Worker.Confined
import PekarDrive.Worker.NamedFiles
import Mathlib.Algebra.Order.BigOperators.Group.List

/-!
# What a worker keeps

The machine of a worker has a shell and a working directory, in which there is nothing but files
with plain names. Seen from the master, such a worker keeps the texts under its names: a call
changes them as it changes a map, and a listing has the names, each of them once, in any order.

## Main definitions

* `PekarDrive.Site`: the machine of a worker.
* `PekarDrive.Site.Keeps`: the files in its working directory.
* `PekarDrive.IsListing`, `PekarDrive.IsListingText`, `PekarDrive.NamedFiles.ListingFits`: the names
  that a listing has.

## Main results

* `PekarDrive.Site.Keeps.run`: one call.
* `PekarDrive.Site.Keeps.exists_eval_fileList`: a listing.
-/

namespace PekarDrive

open CMemory CText LockedThreads

/-! ### Sites -/

/-- The machine of a worker. -/
structure Site where
  /-- The operating system. -/
  os : Os
  /-- The programs of its shell. -/
  programs : Programs
  /-- `WORKER_DIR`. -/
  dir : CString
  /-- Where this leads. -/
  path : Path
  /-- `system` runs plain lines. -/
  isShell : IsShell programs os
  /-- The directory is not taken for an option. -/
  head_ne : dir.bytes.head? ≠ some 45

/-- The worker on the machine. -/
def Site.setup (site : Site) (tokens : Tokens) : WorkerSetup :=
  ⟨tokens, site.os, some site.dir, site.dir⟩

/-- In the working directory there are the files of the map, under plain names, and nothing
else. -/
structure Site.Keeps (site : Site) (fs : FileSystem) (m : NamedFiles) : Prop where
  /-- The directory can be used. -/
  usable : Usable site.dir site.path fs
  /-- The files. -/
  filesIn : fs.filesIn site.path = m
  /-- No name is there twice. -/
  nodup : (fs.namesIn site.path).Nodup
  /-- The names are plain. -/
  names : ∀ name ∈ fs.namesIn site.path, ∃ f : CString, f.bytes = name ∧ IsFileName f

/-- The names under which there are files, `.` and `..`, each of them once. -/
structure IsListing (m : NamedFiles) (l : List CString) : Prop where
  /-- No name is there twice. -/
  nodup : l.Nodup
  /-- The names. -/
  mem_iff : ∀ f, f ∈ l ↔ f = lit "." ∨ f = lit ".." ∨ (m f).isSome

/-- The string is the text of such names. -/
def IsListingText (m : NamedFiles) (ls : CString) : Prop :=
  ∃ l, IsListing m l ∧ ls.bytes = [10].intercalate (l.map CString.bytes)

/-- Every listing has room in the blocks of the worker, in whatever order the names are, and in the
buffer of the master. -/
def NamedFiles.ListingFits (a : Allocator) (m : NamedFiles) : Prop :=
  ∀ l, IsListing m l → NamesFit a l ∧ JoinFits a l (lit "") ∧
    ([10].intercalate (l.map CString.bytes)).length ≤ 5018

theorem length_intercalate_le {α : Type} (a : α) (ls : List (List α)) :
    ([a].intercalate ls).length ≤ (ls.map fun l => l.length + 1).sum := by
  induction ls with
  | nil => exact Nat.zero_le _
  | cons l ls ih =>
    cases ls with
    | nil =>
      rw [List.intercalate_singleton, List.map_singleton, List.sum_singleton]
      exact Nat.le_succ _
    | cons l' ls =>
      rw [List.intercalate_cons_cons, List.map_cons, List.sum_cons, List.length_append,
        List.length_append, List.length_singleton]
      exact Nat.add_le_add_left ih _

/-- Names that all have room in every block are joined in every block. -/
theorem joinFits_of_le {a : Allocator} {n : ℕ} (ha : ∀ size, n ≤ a.usable size)
    {names : List CString} {files : CString}
    (hlen : files.strlen + (names.map fun f => f.strlen + 1).sum ≤ n) : JoinFits a names files := by
  induction names generalizing files with
  | nil => trivial
  | cons name names ih =>
    cases names with
    | nil => trivial
    | cons name' names =>
      have hnewline : ((files.append name).append (lit "\n")).strlen =
          files.strlen + name.strlen + 1 := by
        simp only [CString.strlen, CString.bytes_append, List.length_append]
        rfl
      simp only [List.map_cons, List.sum_cons] at hlen ih
      refine ⟨?_, ih (by omega)⟩
      have hroom := ha (files.strlen + 1 + name.strlen)
      omega

/-- Few short names make listings that fit. -/
theorem NamedFiles.listingFits_of_names {a : Allocator} {m : NamedFiles} {names : List CString}
    (hm : ∀ f, (m f).isSome → f ∈ names) {n : ℕ}
    (hlen : ((lit "." :: lit ".." :: names).map fun f => f.strlen + 1).sum ≤ n)
    (ha : ∀ size, n ≤ a.usable size) (hbuffer : n ≤ 5018) : m.ListingFits a := by
  intro l hl
  have hsub : l ⊆ lit "." :: lit ".." :: names := by
    intro f hf
    rcases (hl.mem_iff f).mp hf with rfl | rfl | hf
    · exact List.mem_cons_self
    · exact List.mem_cons_of_mem _ List.mem_cons_self
    · exact List.mem_cons_of_mem _ (List.mem_cons_of_mem _ (hm f hf))
  obtain ⟨l', hperm, hl'⟩ := hl.nodup.subperm hsub
  have hsum : (l.map fun f => f.strlen + 1).sum ≤ n :=
    calc (l.map fun f => f.strlen + 1).sum
        = (l'.map fun f => f.strlen + 1).sum := (hperm.map _).sum_eq.symm
      _ ≤ ((lit "." :: lit ".." :: names).map fun f => f.strlen + 1).sum :=
        (hl'.map _).sum_le_sum fun _ _ => Nat.zero_le _
      _ ≤ n := hlen
  refine ⟨fun name hname => ?_, joinFits_of_le ha ?_, ?_⟩
  · have hle : name.strlen + 1 ≤ (l.map fun f => f.strlen + 1).sum :=
      List.single_le_sum (fun _ _ => Nat.zero_le _) _ (List.mem_map_of_mem hname)
    exact (hle.trans hsum).trans (ha _)
  · exact (Nat.zero_add _).trans_le hsum
  · calc ([10].intercalate (l.map CString.bytes)).length
        ≤ ((l.map CString.bytes).map fun bs => bs.length + 1).sum := length_intercalate_le 10 _
      _ = (l.map fun f => f.strlen + 1).sum := by rw [List.map_map]; rfl
      _ ≤ n := hsum
      _ ≤ 5018 := hbuffer

/-! ### The names in a directory -/

namespace FileSystem

variable {fs : FileSystem} {p e : Path} {name : Name}

theorem mem_namesIn_iff : name ∈ fs.namesIn p ↔ (fs.node (p ++ [name])).isSome := by
  have hnode : fs.node (p ++ [name]) = fs.nodes.lookup (p ++ [name]) := if_neg (by simp)
  rw [hnode]
  constructor
  · exact lookup_isSome_of_mem_namesIn
  · intro h
    obtain ⟨x, hx, heq⟩ := List.lookup_isSome_iff.mp h
    have hx₁ : x.1 = p ++ [name] := (beq_iff_eq.mp heq).symm
    refine List.mem_filterMap.mpr ⟨x, hx, ?_⟩
    rw [hx₁, List.dropLast_concat, if_pos ⟨rfl, by simp⟩, List.getLast?_concat]

theorem namesIn_removeNode_sublist (e : Path) :
    ((fs.removeNode e).namesIn p).Sublist (fs.namesIn p) :=
  List.filter_sublist.filterMap _

theorem namesIn_rmWord_sublist (w : Word) : ((fs.rmWord w).namesIn p).Sublist (fs.namesIn p) := by
  unfold rmWord
  split
  · exact List.Sublist.refl _
  · split
    · exact namesIn_removeNode_sublist _
    · exact List.Sublist.refl _

end FileSystem

/-! ### Calls -/

namespace Site.Keeps

variable {site : Site} {fs : FileSystem} {m : NamedFiles} (h : site.Keeps fs m)

include h

/-- The names are those of the map. -/
theorem mem_namesIn_iff {f : CString} : f.bytes ∈ fs.namesIn site.path ↔ (m f).isSome := by
  rw [FileSystem.mem_namesIn_iff, ← h.filesIn, FileSystem.filesIn]
  cases hnode : fs.node (site.path ++ [f.bytes]) with
  | none => rfl
  | some n =>
    -- an entry is a file
    have hmem : f.bytes ∈ fs.namesIn site.path := by
      rw [FileSystem.mem_namesIn_iff, hnode]
      rfl
    obtain ⟨g, hg, hplain⟩ := h.names _ hmem
    obtain rfl : g = f := CString.ext hg
    rcases h.usable.files g hplain with hnone | ⟨content, hfile⟩
    · exact absurd (hnode.symm.trans hnone) (by simp)
    · obtain rfl := Option.some.inj (hnode.symm.trans hfile)
      rfl

theorem isFileName {f : CString} (hf : (m f).isSome) : IsFileName f := by
  obtain ⟨g, hg, hplain⟩ := h.names _ (h.mem_namesIn_iff.mpr hf)
  exact CString.ext hg ▸ hplain

/-- A call gives each name at most once. -/
theorem nodup_run {c : FileCall} (hc : c.Allowed) :
    ((c.run site.os site.dir fs).2.namesIn site.path).Nodup := by
  have hp := FileSystem.resolve_setPath h.usable.resolve h.usable.node hc.isFileName.toIsPlain
  cases c with
  | write f buffer isappend =>
    change ((fsWriteFile (some site.dir) f buffer isappend fs).2.namesIn site.path).Nodup
    rcases (FileSystem.stores_fsWriteFile hp buffer isappend).names with hsame | ⟨hnew, hadd⟩
    · rw [FileCall.file] at hsame
      rw [hsame]
      exact h.nodup
    · rw [FileCall.file] at hadd
      rw [hadd, ← List.concat_eq_append]
      exact h.nodup.concat hnew
  | delete f =>
    have hword := isWord_setPath h.usable site.head_ne hc
    change ((fsDeleteFile site.os (some site.dir) f fs).namesIn site.path).Nodup
    rw [fsDeleteFile_of_isWord site.isShell hword]
    split
    · exact h.nodup.sublist (FileSystem.namesIn_rmWord_sublist _)
    · exact h.nodup

/-- **One call.** -/
theorem run {c : FileCall} (hc : c.Allowed) :
    (c.run site.os site.dir fs).1 = (c.applyTo m).1 ∧
      site.Keeps (c.run site.os site.dir fs).2 (c.applyTo m).2 := by
  obtain ⟨hresult, husable, hfiles, hsame⟩ := run_refines site.isShell site.head_ne h.usable hc
  rw [h.filesIn] at hresult hfiles
  refine ⟨hresult, husable, hfiles, h.nodup_run hc, fun name hname => ?_⟩
  by_cases heq : name = c.file.bytes
  · exact ⟨c.file, heq.symm, hc.isFileName⟩
  · refine h.names name (FileSystem.mem_namesIn_iff.mpr ?_)
    rw [← hsame (site.path ++ [name]) (by simpa using heq)]
    exact FileSystem.mem_namesIn_iff.mp hname

/-! ### Listings -/

/-- **A listing.** -/
theorem exists_eval_fileList (tokens : Tokens) (env : List WorkerEvent → WorkerEvent → Unit)
    (io : List WorkerEvent) : ∃ l, (fileList (site.setup tokens) site.dir).eval env io fs =
      (io ++ [.op (.list site.dir)], some (l, fs)) ∧ IsListing m l := by
  have hstring : ∀ name ∈ fs.namesIn site.path, (CString.ofMemory name).bytes = name := by
    intro name hname
    obtain ⟨f, rfl, -⟩ := h.names name hname
    rw [CString.ofMemory_bytes]
  have hmap : ((fs.namesIn site.path).map CString.ofMemory).map CString.bytes =
      fs.namesIn site.path := by
    rw [List.map_map]
    exact (List.map_congr_left hstring).trans (List.map_id _)
  have hmem : ∀ f, f ∈ (fs.namesIn site.path).map CString.ofMemory ↔ (m f).isSome := by
    intro f
    rw [← h.mem_namesIn_iff, ← hmap, List.mem_map_of_injective fun _ _ => CString.ext, hmap]
  have hnodup : ((fs.namesIn site.path).map CString.ofMemory).Nodup :=
    List.Nodup.of_map CString.bytes (hmap.symm ▸ h.nodup)
  obtain ⟨l, heval, hperm⟩ := exists_eval_fileList_of_lists (d := ⟨_, hnodup⟩)
    (List.Perm.of_eq hmap) h.usable.resolve h.usable.node (site.setup tokens) env io
  have hdot : ∀ f : CString, (m f).isSome → f ≠ lit "." ∧ f ≠ lit ".." := by
    intro f hf
    exact ⟨fun heq => (h.isFileName hf).ne_dot (heq ▸ by decide),
      fun heq => (h.isFileName hf).ne_dotdot (heq ▸ by decide)⟩
  refine ⟨l, heval, hperm.nodup_iff.mpr ?_, fun f => ?_⟩
  · refine List.nodup_cons.mpr ⟨fun hmem' => ?_, List.nodup_cons.mpr ⟨fun hmem' => ?_, hnodup⟩⟩
    · rcases List.mem_cons.mp hmem' with heq | hmem'
      · exact absurd heq (by decide)
      · exact (hdot _ ((hmem _).mp hmem')).1 rfl
    · exact (hdot _ ((hmem _).mp hmem')).2 rfl
  · rw [hperm.mem_iff, List.mem_cons, List.mem_cons, hmem]

/-- The names of the directory, in the order in which they are read. -/
theorem isListing_readdirOrder {names : List Name} (hopen : fs.opendir site.dir = some names) :
    IsListing m (site.os.readdirOrder (names.map CString.ofMemory)) := by
  obtain ⟨l, heval, hl⟩ := h.exists_eval_fileList ⟨0, 0⟩ (fun _ _ => ()) []
  rw [eval_fileList, listedNames, hopen] at heval
  obtain rfl := (Prod.mk.inj (Option.some.inj (Prod.mk.inj heval).2)).1
  exact hl

section Room

variable {a : Allocator} (tokens : Tokens) {heap : WorkerHeap}
  (hblock : CString.ofMemory heap.lsBlock = lit "") (hfits : m.ListingFits a)

include hblock hfits

/-- A listing that fits has room. -/
theorem hasRoom_list : (FileOp.list site.dir).HasRoom a (site.setup tokens) heap fs := by
  intro names hnames
  obtain ⟨hnames', hjoin, -⟩ := hfits _ (h.isListing_readdirOrder hnames)
  exact ⟨hnames', hblock ▸ hjoin⟩

/-- So has its answer. -/
theorem answerFits_list : (FileOp.list site.dir).AnswerFits a (site.setup tokens) heap fs := by
  intro names hnames
  obtain ⟨-, -, hlen⟩ := hfits _ (h.isListing_readdirOrder hnames)
  rw [hblock, show (lit "").strlen = 0 from rfl, Nat.zero_add]
  exact encodeFits_of_lt (lt_of_le_of_lt hlen (by decide))

end Room

end Site.Keeps

end PekarDrive
