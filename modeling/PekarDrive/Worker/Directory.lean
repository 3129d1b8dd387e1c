import PekarDrive.Foundation.Lines
import PekarDrive.Worker.FileExec
import Mathlib.Data.List.Nodup

/-!
# The names in the directory of a worker

Seen from outside, a worker is a set of file names. A WRITE or an APPEND of a plain name, one that
stands for an entry of the directory, adds this name or none, whatever becomes of the content, and
an LS gives the names that are there, in some order, with `.` and `..`.

## Main definitions

* `PekarDrive.Directory`: the names, none of them twice.
* `PekarDrive.FileSystem.namesIn`, `PekarDrive.Directory.Lists`: the names in the file system.
* `PekarDrive.FileSystem.Stores`: what storing a file changes.

## Main results

* `PekarDrive.exists_lists_fsWriteFile`, `PekarDrive.exists_eval_fileList_of_lists`: the functions
  of `fs.c` refine the operations on the set.
-/

namespace PekarDrive

open CText LockedThreads

/-! ### Directories -/

/-- The names in the directory of a worker, other than `.` and `..`. -/
structure Directory where
  /-- The names. -/
  names : List CString
  /-- No name is there twice. -/
  nodup : names.Nodup

namespace Directory

/-- The directory with a file. -/
def insert (d : Directory) (f : CString) : Directory := ⟨d.names.insert f, d.nodup.insert⟩

/-- The directory without some files. -/
def discard (d : Directory) (removed : List CString) : Directory :=
  ⟨d.names.filter fun f => decide (f ∉ removed), d.nodup.filter _⟩

variable {d : Directory} {f g : CString}

@[simp] theorem mem_names_insert : g ∈ (d.insert f).names ↔ g = f ∨ g ∈ d.names :=
  List.mem_insert_iff

@[simp] theorem mem_names_discard {removed : List CString} :
    g ∈ (d.discard removed).names ↔ g ∈ d.names ∧ g ∉ removed := by
  simp [discard]

end Directory

namespace FileSystem

/-- The names of the entries of a directory. -/
def namesIn (fs : FileSystem) (p : Path) : List Name := fs.nodes.filterMap fun e =>
  if e.1.dropLast = p ∧ e.1 ≠ [] then e.1.getLast? else none

theorem opendir_of_resolve {fs : FileSystem} {path : CString} {p : Path} {writable : Bool}
    (hp : fs.resolve path = some p) (hnode : fs.node p = some (.dir writable)) :
    fs.opendir path = some ([[46], [46, 46]] ++ fs.namesIn p) := by
  simp only [opendir, hp, hnode]
  rfl

/-! ### Setting a node -/

section SetNode

variable {fs : FileSystem} {q : Path} {n : Node}

theorem lookup_map_ite {p : Path} (h : p ≠ q) (nodes : List (Path × Node)) :
    (nodes.map fun e => if e.1 = q then (q, n) else e).lookup p = nodes.lookup p := by
  induction nodes with
  | nil => rfl
  | cons e es ih =>
    obtain ⟨path, node⟩ := e
    rw [List.map_cons, List.lookup_cons]
    split_ifs with he
    · -- the replaced node has the path of the old one
      obtain rfl : path = q := he
      rw [List.lookup_cons, ih, beq_eq_false_iff_ne.mpr h]
    · rw [List.lookup_cons, ih]

theorem node_setNode_of_ne {p : Path} (h : p ≠ q) : (fs.setNode q n).node p = fs.node p := by
  have hlookup : (fs.setNode q n).nodes.lookup p = fs.nodes.lookup p := by
    unfold setNode
    split
    · exact lookup_map_ite h fs.nodes
    · rw [List.lookup_append, List.lookup_cons, beq_eq_false_iff_ne.mpr h]
      simp
  rw [node, node, hlookup]

theorem lookup_map_ite_self {nodes : List (Path × Node)} (h : (nodes.lookup q).isSome) :
    (nodes.map fun e => if e.1 = q then (q, n) else e).lookup q = some n := by
  induction nodes with
  | nil => exact absurd h (by simp)
  | cons e es ih =>
    obtain ⟨path, node⟩ := e
    rw [List.map_cons]
    by_cases he : path = q
    · rw [if_pos he, List.lookup_cons, beq_self_eq_true]
    · have hbeq : (q == path) = false := beq_eq_false_iff_ne.mpr (Ne.symm he)
      rw [List.lookup_cons, hbeq] at h
      rw [if_neg he, List.lookup_cons, hbeq]
      exact ih h

theorem node_setNode_self (hq : q ≠ []) : (fs.setNode q n).node q = some n := by
  rw [node, if_neg hq, setNode]
  split
  · rename_i h
    exact lookup_map_ite_self h
  · rename_i h
    have hnone : fs.nodes.lookup q = none := Option.not_isSome_iff_eq_none.mp h
    rw [List.lookup_append, hnone, List.lookup_cons, beq_self_eq_true, Option.none_or]

/-- Setting a node that is there keeps the names. -/
theorem namesIn_setNode_of_isSome (hq : (fs.nodes.lookup q).isSome) (p : Path) :
    (fs.setNode q n).namesIn p = fs.namesIn p := by
  rw [setNode, if_pos hq, namesIn, namesIn, List.filterMap_map]
  refine List.filterMap_congr fun e _ => ?_
  by_cases he : e.1 = q <;> simp [he]

/-- Setting a new node adds its name to its directory. -/
theorem namesIn_setNode_of_isNone {p : Path} {name : Name}
    (hnew : (fs.nodes.lookup (p ++ [name])).isSome = false) (p' : Path) :
    (fs.setNode (p ++ [name]) n).namesIn p' =
      fs.namesIn p' ++ if p = p' then [name] else [] := by
  rw [setNode, if_neg (by simp [hnew]), namesIn, namesIn, List.filterMap_append]
  by_cases hp : p = p' <;> simp [hp]

theorem lookup_isSome_of_mem_namesIn {p : Path} {name : Name} (h : name ∈ fs.namesIn p) :
    (fs.nodes.lookup (p ++ [name])).isSome = true := by
  obtain ⟨e, he, hname⟩ := List.mem_filterMap.mp h
  split_ifs at hname with hp
  rw [List.lookup_isSome_iff]
  refine ⟨e, he, beq_iff_eq.mpr ?_⟩
  rw [← hp.1]
  exact List.dropLast_append_getLast? name hname

end SetNode

/-! ### Storing a file -/

/-- From `fs` to `fs'`, the directories stay, and the directory `p` gets no name but `name`. -/
structure Stores (p : Path) (name : Name) (fs fs' : FileSystem) : Prop where
  /-- The current directory stays. -/
  cwd : fs'.cwd = fs.cwd
  /-- Directories stay. -/
  dirs : ∀ p' writable, fs.node p' = some (.dir writable) → fs'.node p' = some (.dir writable)
  /-- The names stay, or the new one is added. -/
  names : fs'.namesIn p = fs.namesIn p ∨
    name ∉ fs.namesIn p ∧ fs'.namesIn p = fs.namesIn p ++ [name]

section Stores

variable {p q : Path} {name : Name} {fs fs' fs'' : FileSystem}

theorem Stores.refl (p : Path) (name : Name) (fs : FileSystem) : Stores p name fs fs :=
  ⟨rfl, fun _ _ h => h, .inl rfl⟩

theorem Stores.trans (h : Stores p name fs fs') (h' : Stores p name fs' fs'') :
    Stores p name fs fs'' := by
  refine ⟨h'.cwd.trans h.cwd, fun p' b hb => h'.dirs p' b (h.dirs p' b hb), ?_⟩
  rcases h.names with hsame | ⟨hnew, hadd⟩
  · rw [← hsame]
    exact h'.names
  · rcases h'.names with hsame' | ⟨hnew', -⟩
    · exact .inr ⟨hnew, hsame'.trans hadd⟩
    · exact absurd (hadd ▸ List.mem_append_right _ (List.mem_singleton_self name)) hnew'

/-- Setting a node that is no directory. -/
theorem stores_setNode (n : Node)
    (hdir : ∀ writable, fs.node (p ++ [name]) ≠ some (.dir writable)) :
    Stores p name fs (fs.setNode (p ++ [name]) n) := by
  refine ⟨?_, fun p' b hb => ?_, ?_⟩
  · unfold setNode
    split <;> rfl
  · have hne : p' ≠ p ++ [name] := fun heq => hdir b (by rw [← heq]; exact hb)
    rw [node_setNode_of_ne hne]
    exact hb
  · by_cases hq : (fs.nodes.lookup (p ++ [name])).isSome = true
    · exact .inl (namesIn_setNode_of_isSome hq p)
    · refine .inr ⟨fun hmem => hq (lookup_isSome_of_mem_namesIn hmem), ?_⟩
      rw [namesIn_setNode_of_isNone ((Bool.not_eq_true _).mp hq), if_pos rfl]

/-- Names that lead through directories still do. -/
theorem Stores.walk (h : Stores p name fs fs') {a : Path} {names : List Name}
    (hw : fs.walk a names = some q) : fs'.walk a names = some q := by
  induction names generalizing a with
  | nil => exact hw
  | cons x xs ih =>
    unfold FileSystem.walk at hw ⊢
    split at hw
    · rename_i b hb
      rw [h.dirs a b hb]
      split_ifs at hw ⊢ with hdot hdotdot
      · exact ih hw
      · exact ih hw
      · exact ih hw
    · exact absurd hw (by simp)

theorem Stores.resolve (h : Stores p name fs fs') {path : CString}
    (hp : fs.resolve path = some q) : fs'.resolve path = some q := by
  unfold FileSystem.resolve at hp ⊢
  split at hp
  · exact absurd hp (by simp)
  · exact h.walk hp
  · rw [h.cwd]
    exact h.walk hp

/-- Opening a file for writing. -/
theorem stores_fopenFile {path : CString} {f : List UInt8 → List UInt8}
    (hp : fs.resolve path = some (p ++ [name])) (hopen : fs.fopenFile path f = some (q, fs')) :
    q = p ++ [name] ∧ Stores p name fs fs' := by
  simp only [fopenFile, hp] at hopen
  split at hopen
  · rename_i content readable writable hnode
    split_ifs at hopen
    obtain ⟨rfl, rfl⟩ := Prod.mk.inj (Option.some.inj hopen)
    exact ⟨rfl, stores_setNode _ (by simp [hnode])⟩
  · exact absurd hopen (by simp)
  · rename_i hnode
    split at hopen
    · obtain ⟨rfl, rfl⟩ := Prod.mk.inj (Option.some.inj hopen)
      exact ⟨rfl, stores_setNode _ (by simp [hnode])⟩
    · exact absurd hopen (by simp)

theorem stores_fprintf (s : CString) : Stores p name fs (fs.fprintf (p ++ [name]) s).2 := by
  simp only [fprintf]
  split
  · rename_i hnode
    exact stores_setNode _ (by simp [hnode])
  · exact Stores.refl p name fs

/-- **WRITE and APPEND.** `fs_write_file` on a path of an entry. -/
theorem stores_fsWriteFile {workDir : Option CString} {file : CString}
    (hp : fs.resolve (setPath workDir file) = some (p ++ [name])) (buffer : CString)
    (isappend : Bool) : Stores p name fs (fsWriteFile workDir file buffer isappend fs).2 := by
  unfold fsWriteFile
  extract_lets path fs₁
  have hcreate : Stores p name fs fs₁ := by
    change Stores p name fs (if fileExists fs path then fs else (fsCreateFile workDir file fs).2)
    split
    · exact Stores.refl p name fs
    · unfold fsCreateFile
      split
      · exact Stores.refl p name fs
      · rename_i q fs' hopen
        exact (stores_fopenFile hp hopen).2
  have hp₁ := hcreate.resolve hp
  split
  · exact Stores.refl p name fs
  · split
    · exact hcreate
    · rename_i q fs₂ hopen
      obtain ⟨rfl, hstores⟩ : q = p ++ [name] ∧ Stores p name fs₁ fs₂ := by
        cases isappend
        · exact stores_fopenFile hp₁ hopen
        · exact stores_fopenFile hp₁ hopen
      exact (hcreate.trans hstores).trans (stores_fprintf buffer)

end Stores

/-! ### Plain names -/

/-- A name that stands for an entry of the directory that it is looked up in. -/
structure IsPlain (f : CString) : Prop where
  /-- It is not empty. -/
  ne_nil : f.bytes ≠ []
  /-- It is not the directory itself. -/
  ne_dot : f.bytes ≠ [46]
  /-- It is not the directory above. -/
  ne_dotdot : f.bytes ≠ [46, 46]
  /-- It has one component. -/
  no_slash : 47 ∉ f.bytes

section Plain

variable {fs : FileSystem} {p : Path} {dir f : CString} {writable : Bool}

theorem walk_append (a : Path) (xs ys : List Name) :
    fs.walk a (xs ++ ys) = (fs.walk a xs).bind fun q => fs.walk q ys := by
  induction xs generalizing a with
  | nil => rfl
  | cons x xs ih =>
    rw [List.cons_append, FileSystem.walk, FileSystem.walk]
    split
    · split_ifs
      · exact ih a
      · exact ih a.dropLast
      · exact ih (a ++ [x])
    · rfl

theorem walk_plain (hnode : fs.node p = some (.dir writable)) (hf : IsPlain f) :
    fs.walk p [f.bytes] = some (p ++ [f.bytes]) := by
  simp [FileSystem.walk, hnode, hf.ne_nil, hf.ne_dot, hf.ne_dotdot]

/-- The path of a plain name behind the path of a directory. -/
theorem resolve_setPath (hdir : fs.resolve dir = some p)
    (hnode : fs.node p = some (.dir writable)) (hf : IsPlain f) :
    fs.resolve (setPath (some dir) f) = some (p ++ [f.bytes]) := by
  have hslash : (lit "/").bytes = [47] := by decide
  have hsplit : f.bytes.splitOn 47 = [f.bytes] := by
    have hone : ([47].intercalate [f.bytes]).splitOn 47 = [f.bytes] :=
      List.splitOn_intercalate 47 (by simpa using hf.no_slash) (List.cons_ne_nil _ _)
    rwa [List.intercalate_singleton] at hone
  have hwalk : ∀ {a : Path} {bs : List UInt8}, fs.walk a (bs.splitOn 47) = some p →
      fs.walk a ((bs ++ 47 :: f.bytes).splitOn 47) = some (p ++ [f.bytes]) := by
    intro a bs hbs
    rw [splitOn_append_cons, walk_append, hbs, hsplit]
    exact walk_plain hnode hf
  have hbytes : (setPath (some dir) f).bytes = dir.bytes ++ 47 :: f.bytes := by
    simp [setPath, hslash]
  unfold FileSystem.resolve at hdir ⊢
  rw [hbytes]
  split at hdir
  · exact absurd hdir (by simp)
  · rename_i rest hrest
    rw [hrest]
    exact hwalk hdir
  · rename_i hnil hroot
    obtain ⟨x, xs, hx⟩ := List.exists_cons_of_ne_nil hnil
    split
    · rename_i h
      exact absurd h (by simp)
    · rename_i rest h
      rw [hx, List.cons_append] at h
      exact absurd (hx.trans (by rw [(List.cons.inj h).1])) (hroot xs)
    · exact hwalk hdir

end Plain

end FileSystem

/-! ### The directory as a set of names -/

/-- The names are those of the entries at `p`. -/
def Directory.Lists (d : Directory) (fs : FileSystem) (p : Path) : Prop :=
  (d.names.map CString.bytes).Perm (fs.namesIn p)

section Lists

variable {d : Directory} {fs : FileSystem} {p : Path} {dir f : CString} {writable : Bool}
  (hd : d.Lists fs p) (hdir : fs.resolve dir = some p) (hnode : fs.node p = some (.dir writable))

include hd hdir hnode

/-- **Storing a file.** After a WRITE or an APPEND of a plain name, the directory has this name in
addition, or the names it had. -/
theorem exists_lists_fsWriteFile (hf : FileSystem.IsPlain f) (buffer : CString) (isappend : Bool) :
    ∃ entry : Option CString, (∀ g ∈ entry, g = f) ∧ (entry.elim d d.insert).Lists
      (fsWriteFile (some dir) f buffer isappend fs).2 p := by
  have hstores := FileSystem.stores_fsWriteFile (FileSystem.resolve_setPath hdir hnode hf) buffer
    isappend
  rcases hstores.names with hsame | ⟨hnew, hadd⟩
  · refine ⟨none, by simp, ?_⟩
    rw [Directory.Lists, hsame]
    exact hd
  · have hnot : f ∉ d.names := fun hmem => hnew (hd.subset (List.mem_map_of_mem hmem))
    refine ⟨some f, by simp, ?_⟩
    rw [Directory.Lists, hadd]
    change ((d.names.insert f).map CString.bytes).Perm _
    rw [List.insert_of_not_mem hnot, List.map_cons]
    exact (hd.cons f.bytes).trans (List.perm_append_singleton _ _).symm

/-- **Listing.** An LS gives the names in some order, with `.` and `..`. -/
theorem exists_eval_fileList_of_lists (setup : WorkerSetup)
    (env : List WorkerEvent → WorkerEvent → Unit) (h : List WorkerEvent) :
    ∃ names, (fileList setup dir).eval env h fs = (h ++ [.op (.list dir)], some (names, fs)) ∧
      names.Perm (lit "." :: lit ".." :: d.names) := by
  have hstrings : (d.names.map CString.bytes).map CString.ofMemory = d.names := by
    rw [List.map_map]
    exact List.map_id'' CString.ofMemory_bytes d.names
  refine ⟨setup.os.readdirOrder (([[46], [46, 46]] ++ fs.namesIn p).map CString.ofMemory), ?_, ?_⟩
  · rw [eval_fileList, listedNames, FileSystem.opendir_of_resolve hdir hnode]
  · refine (setup.os.perm_readdirOrder _).trans ?_
    have hnames := (hd.symm.map CString.ofMemory).trans (List.Perm.of_eq hstrings)
    exact (hnames.cons (lit "..")).cons (lit ".")

end Lists

end PekarDrive
