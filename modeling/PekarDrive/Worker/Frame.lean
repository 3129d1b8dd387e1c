import PekarDrive.Worker.Shell

/-!
# What the functions of `fs.c` change

A DELETE, a WRITE and an APPEND are to change the entry that the file name stands for in the working
directory, and nothing else. The name reaches the file system behind the path of the working
directory: `fopen` follows the components of the path, and the interpreter of `system` cuts it into
words and commands.

For an ordinary name both arrive at the entry. The conditions under which they do for any name are
those of `PekarDrive.Confined`: a path that can be opened for writing resolves to the entry, and
when the path can be opened for reading, the line is plain, has no command but `rm` without options,
and no word of it but those for the entry names a file that can be removed.

## Main definitions

* `PekarDrive.entry`, `PekarDrive.SameBut`, `PekarDrive.ChangesEntryOnly`.
* `PekarDrive.Confined`.

## Main results

* `PekarDrive.confined_of_isPlain`: ordinary names are confined.
* `PekarDrive.changesEntryOnly_iff`.
-/

namespace PekarDrive

open CText

/-- The entry that a name stands for in a directory. -/
def entry (fs : FileSystem) (dir name : CString) : Option Path :=
  (fs.resolve dir).map fun p => p ++ [name.bytes]

/-- Every node but the one at the entry is as it was. -/
def SameBut (e : Option Path) (fs fs' : FileSystem) : Prop :=
  ∀ q, some q ≠ e → fs'.node q = fs.node q

/-- The line that `fs_delete_file` hands to `system`. -/
def removeLine (dir name : CString) : CString := (lit "rm ").append (setPath (some dir) name)

section Definitions

variable (fs : FileSystem) (dir name : CString)

/-- With the working directory `dir`, the functions change at most the entry of the name. -/
structure ChangesEntryOnly : Prop where
  /-- `fs_delete_file`, whatever other programs do and special characters mean. -/
  delete : ∀ programs os, IsShell programs os →
    SameBut (entry fs dir name) fs (fsDeleteFile os (some dir) name fs)
  /-- `fs_write_file`. -/
  write : ∀ buffer isappend,
    SameBut (entry fs dir name) fs (fsWriteFile (some dir) name buffer isappend fs).2
  /-- `fs_create_file`. -/
  create : SameBut (entry fs dir name) fs (fsCreateFile (some dir) name fs).2

/-- The name reaches no file but the entry. -/
structure Confined : Prop where
  /-- A path that can be opened for writing resolves to the entry. -/
  opened : ∀ p, fs.resolve (setPath (some dir) name) = some p →
    (fs.fopenWrite (setPath (some dir) name)).isSome → some p = entry fs dir name
  /-- A path that can be opened for reading is a plain line behind `rm`, with no other command, and
  no word that removes another file. -/
  removed : fileExists fs (setPath (some dir) name) = true →
    PlainLine (removeLine dir name).bytes ∧
    (∀ c ∈ commands (removeLine dir name).bytes, isRm c = true) ∧
    ∀ w ∈ (commands (removeLine dir name).bytes).flatMap List.tail, ∀ p, fs.Removes w p →
      some p = entry fs dir name

end Definitions

/-! ### Opening for writing -/

namespace FileSystem

section Open

variable {fs fs' : FileSystem} {path : CString} {p q : Path} {f : List UInt8 → List UInt8}

/-- What is opened is a file, stored at the path. -/
theorem exists_of_fopenFile (h : fs.fopenFile path f = some (p, fs')) :
    fs.resolve path = some p ∧ p ≠ [] ∧ ∃ content readable,
      fs' = fs.setNode p (.file content readable true) ∧
        (content = [] ∨ ∃ old, content = f old) := by
  unfold fopenFile at h
  split at h
  · exact absurd h (by simp)
  · rename_i p₀ hp
    have hroot : (∀ writable, fs.node p₀ ≠ some (.dir writable)) → p₀ ≠ [] := by
      rintro hdir rfl
      exact hdir true rfl
    split at h
    · rename_i content readable writable hnode
      split_ifs at h with hw
      obtain ⟨rfl, rfl⟩ := Prod.mk.inj (Option.some.inj h)
      exact ⟨hp, hroot (by simp [hnode]), f content, readable, by rw [hw], .inr ⟨content, rfl⟩⟩
    · exact absurd h (by simp)
    · rename_i hnode
      split at h
      · obtain ⟨rfl, rfl⟩ := Prod.mk.inj (Option.some.inj h)
        exact ⟨hp, hroot (by simp [hnode]), [], true, rfl, .inl rfl⟩
      · exact absurd h (by simp)

theorem node_fopenFile_of_ne (h : fs.fopenFile path f = some (p, fs')) (hq : q ≠ p) :
    fs'.node q = fs.node q := by
  obtain ⟨-, -, content, readable, rfl, -⟩ := exists_of_fopenFile h
  exact node_setNode_of_ne hq

/-- The path resolves as it did. -/
theorem resolve_fopenFile (h : fs.fopenFile path f = some (p, fs')) :
    fs'.resolve path = some p := by
  obtain ⟨hp, hne, -⟩ := exists_of_fopenFile h
  rw [← List.dropLast_append_getLast hne] at hp h ⊢
  exact (stores_fopenFile hp h).2.resolve hp

/-- Whether a file can be opened for writing does not depend on the mode. -/
theorem fopenFile_eq_none_iff (g : List UInt8 → List UInt8) :
    fs.fopenFile path f = none ↔ fs.fopenFile path g = none := by
  unfold fopenFile
  split
  · rfl
  · split
    · split_ifs <;> simp
    · rfl
    · split <;> simp

/-- A file that has been created is opened again. -/
theorem fopenWrite_of_node {content : List UInt8} {readable : Bool}
    (hp : fs.resolve path = some p) (hnode : fs.node p = some (.file content readable true)) :
    fs.fopenWrite path = some (p, fs.setNode p (.file [] readable true)) := by
  simp [fopenWrite, fopenFile, hp, hnode]

end Open

end FileSystem

/-! ### Writing -/

section Write

open FileSystem

variable {fs fs' : FileSystem} {workDir : Option CString} {name buffer : CString} {p q : Path}

theorem fsCreateFile_of_none (h : fs.fopenWrite (setPath workDir name) = none) :
    fsCreateFile workDir name fs = (false, fs) := by
  rw [fsCreateFile, h]

theorem fsCreateFile_of_some (h : fs.fopenWrite (setPath workDir name) = some (p, fs')) :
    fsCreateFile workDir name fs = (true, fs') := by
  rw [fsCreateFile, h]

/-- When the path cannot be opened for writing, nothing is written. -/
theorem fsWriteFile_of_none (h : fs.fopenWrite (setPath workDir name) = none) (isappend : Bool) :
    fsWriteFile workDir name buffer isappend fs = (-1, fs) := by
  have happend : fs.fopenAppend (setPath workDir name) = none := (fopenFile_eq_none_iff _).mp h
  unfold fsWriteFile
  extract_lets path fs₁
  have hfs₁ : fs₁ = fs := by
    change (if fileExists fs path then fs else (fsCreateFile workDir name fs).2) = fs
    rw [fsCreateFile_of_none h, ite_self]
  rw [hfs₁]
  split
  · rfl
  · cases isappend with
    | false => simp only [Bool.false_eq_true, if_false, h, path]
    | true => simp only [if_true, happend, path]

/-- Otherwise at most the node at the path changes. -/
theorem node_fsWriteFile_of_ne (h : fs.fopenWrite (setPath workDir name) = some (p, fs'))
    (hq : q ≠ p) (isappend : Bool) :
    (fsWriteFile workDir name buffer isappend fs).2.node q = fs.node q := by
  unfold fsWriteFile
  extract_lets path fs₁
  have hfs₁ : fs₁.node q = fs.node q ∧ fs₁.resolve path = some p := by
    change (if fileExists fs path then fs else (fsCreateFile workDir name fs).2).node q = _ ∧
      (if fileExists fs path then fs else (fsCreateFile workDir name fs).2).resolve path = _
    rw [fsCreateFile_of_some h]
    split
    · exact ⟨rfl, (exists_of_fopenFile h).1⟩
    · exact ⟨node_fopenFile_of_ne h hq, resolve_fopenFile h⟩
  obtain ⟨hnode, hresolve⟩ := hfs₁
  have hopened : ∀ f p' fs₂, fs₁.fopenFile path f = some (p', fs₂) →
      (fs₂.fprintf p' buffer).2.node q = fs.node q := fun f p' fs₂ hopen => by
    obtain rfl : p = p' := Option.some.inj (hresolve.symm.trans (exists_of_fopenFile hopen).1)
    simp only [fprintf]
    split
    · rw [node_setNode_of_ne hq, node_fopenFile_of_ne hopen hq, hnode]
    · rw [node_fopenFile_of_ne hopen hq, hnode]
  split
  · rfl
  · split
    · exact hnode
    · rename_i p' fs₂ hopen
      cases isappend with
      | false => exact hopened _ p' fs₂ hopen
      | true => exact hopened _ p' fs₂ hopen

/-- A WRITE leaves its text in the file. -/
theorem exists_node_fsWriteFile (h : fs.fopenWrite (setPath workDir name) = some (p, fs'))
    (buffer : CString) : (fsWriteFile workDir name buffer false fs).1 =
      (if buffer.strlen < 2 ^ 31 then (buffer.strlen : ℤ) else -1) ∧
    ∃ readable, (fsWriteFile workDir name buffer false fs).2.node p =
      some (.file buffer.bytes readable true) := by
  obtain ⟨hp, hne, content, readable, rfl, hcontent⟩ := exists_of_fopenFile h
  obtain rfl : content = [] := hcontent.elim id fun ⟨_, h⟩ => h
  unfold fsWriteFile
  extract_lets path fs₁
  have hopen : ∃ fs₂ readable, fs₁.fopenWrite path = some (p, fs₂) ∧
      fs₂.node p = some (.file [] readable true) := by
    change ∃ fs₂ readable, FileSystem.fopenWrite
      (if fileExists fs path then fs else (fsCreateFile workDir name fs).2) path = some (p, fs₂) ∧ _
    rw [fsCreateFile_of_some h]
    split
    · exact ⟨_, readable, h, node_setNode_self hne⟩
    · exact ⟨_, readable, fopenWrite_of_node (resolve_fopenFile h) (node_setNode_self hne),
        node_setNode_self hne⟩
  obtain ⟨fs₂, readable₂, hopen, hnode⟩ := hopen
  simp only [Bool.false_and, Bool.false_eq_true, if_false, hopen, fprintf, hnode, List.nil_append,
    true_and]
  exact ⟨readable₂, node_setNode_self hne⟩

end Write

/-! ### Deleting -/

section Delete

variable {fs : FileSystem} {dir name : CString} {programs : Programs}

/-- An operating system that runs plain lines, and makes a directory for every other line. -/
def shellOs (programs : Programs) (q : Path) : Os where
  system line fs :=
    if PlainLine line.bytes then runLine programs line.bytes fs else fs.setNode q (.dir true)
  readdirOrder := id
  perm_readdirOrder := List.Perm.refl

theorem isShell_shellOs (q : Path) : IsShell programs (shellOs programs q) :=
  fun _ _ hline => if_pos hline

theorem exists_fresh_path (fs : FileSystem) (e : Option Path) :
    ∃ q, q ≠ [] ∧ fs.node q = none ∧ some q ≠ e := by
  obtain ⟨q, hq⟩ := Infinite.exists_notMem_finset
    ([] :: (fs.nodes.map Prod.fst ++ e.toList)).toFinset
  simp only [List.mem_toFinset, List.mem_cons, List.mem_append, not_or] at hq
  obtain ⟨hne, hnodes, hentry⟩ := hq
  refine ⟨q, hne, ?_, fun h => hentry (by simp [← h])⟩
  rw [FileSystem.node, if_neg hne, List.lookup_eq_none_iff]
  intro x hx
  have hpath : q ≠ x.1 := fun h => hnodes (by rw [h]; exact List.mem_map_of_mem hx)
  simpa using hpath

theorem fsDeleteFile_of_exists (os : Os)
    (hexists : fileExists fs (setPath (some dir) name) = true) :
    fsDeleteFile os (some dir) name fs = os.system (removeLine dir name) fs := by
  rw [fsDeleteFile, if_pos hexists]
  rfl

/-- A line that is not plain, and a program other than `rm`, may change another node. -/
theorem removed_of_changesEntryOnly (h : ChangesEntryOnly fs dir name)
    (hexists : fileExists fs (setPath (some dir) name) = true) :
    PlainLine (removeLine dir name).bytes ∧
    (∀ c ∈ commands (removeLine dir name).bytes, isRm c = true) ∧
    ∀ w ∈ (commands (removeLine dir name).bytes).flatMap List.tail, ∀ p, fs.Removes w p →
      some p = entry fs dir name := by
  obtain ⟨q, hq, hfresh, hentry⟩ := exists_fresh_path fs (entry fs dir name)
  have hsame := h.delete (makesDir q) (shellOs (makesDir q) q) (isShell_shellOs q)
  rw [fsDeleteFile_of_exists _ hexists] at hsame
  have hdir : ∀ {n : Option Node}, n = some (.dir true) → ¬ n = fs.node q := by
    rintro n rfl
    rw [hfresh]
    exact fun heq => absurd heq (by simp)
  have hplain : PlainLine (removeLine dir name).bytes := by
    by_contra hnot
    have hnode := hsame q hentry
    have hmade : (shellOs (makesDir q) q).system (removeLine dir name) fs =
        fs.setNode q (.dir true) := if_neg hnot
    rw [hmade] at hnode
    exact hdir (FileSystem.node_setNode_self hq) hnode
  have hrun : (shellOs (makesDir q) q).system (removeLine dir name) fs =
      runLine (makesDir q) (removeLine dir name).bytes fs := if_pos hplain
  rw [hrun] at hsame
  have hrm : ∀ c ∈ commands (removeLine dir name).bytes, isRm c = true := by
    by_contra hnot
    push Not at hnot
    obtain ⟨c, hc, hrm⟩ := hnot
    exact hdir (node_runLine_of_not_isRm hq hc ((Bool.not_eq_true _).mp hrm)) (hsame q hentry)
  refine ⟨hplain, hrm, fun w hw p hp => ?_⟩
  by_contra hne
  have hnode := hsame p hne
  rw [node_runLine_of_isRm hrm, if_pos ⟨w, hw, hp⟩] at hnode
  obtain ⟨⟨content, readable, writable, hfile⟩, -⟩ := FileSystem.removable_iff.mp hp.2
  exact absurd (hnode.trans hfile) (by simp)

theorem sameBut_fsDeleteFile (h : Confined fs dir name) {os : Os} (hos : IsShell programs os) :
    SameBut (entry fs dir name) fs (fsDeleteFile os (some dir) name fs) := by
  intro q hq
  by_cases hexists : fileExists fs (setPath (some dir) name) = true
  · obtain ⟨hplain, hrm, hwords⟩ := h.removed hexists
    rw [fsDeleteFile_of_exists os hexists, hos _ _ hplain, node_runLine_of_isRm hrm, if_neg]
    rintro ⟨w, hw, hp⟩
    exact hq (hwords w hw q hp)
  · rw [fsDeleteFile, if_neg hexists]

end Delete

/-! ### The frame -/

section Frame

variable {fs : FileSystem} {dir name : CString}

theorem opened_of_changesEntryOnly (h : ChangesEntryOnly fs dir name) {p : Path}
    (hp : fs.resolve (setPath (some dir) name) = some p)
    (hopen : (fs.fopenWrite (setPath (some dir) name)).isSome) : some p = entry fs dir name := by
  obtain ⟨⟨p', fs'⟩, hopen⟩ := Option.isSome_iff_exists.mp hopen
  obtain rfl : p = p' := Option.some.inj (hp.symm.trans (FileSystem.exists_of_fopenFile hopen).1)
  by_contra hne
  -- two texts cannot both be what the file has held before
  obtain ⟨-, readable, hempty⟩ := exists_node_fsWriteFile hopen (lit "")
  obtain ⟨-, readable', htext⟩ := exists_node_fsWriteFile hopen (lit "x")
  rw [h.write (lit "") false p hne] at hempty
  rw [h.write (lit "x") false p hne, hempty] at htext
  exact absurd (Node.file.inj (Option.some.inj htext)).1 (by decide)

theorem sameBut_of_opened {fs' : FileSystem}
    (hnone : fs.fopenWrite (setPath (some dir) name) = none → fs' = fs)
    (hsome : ∀ p fs₁, fs.fopenWrite (setPath (some dir) name) = some (p, fs₁) →
      ∀ q, q ≠ p → fs'.node q = fs.node q) (h : Confined fs dir name) :
    SameBut (entry fs dir name) fs fs' := by
  intro q hq
  cases hopen : fs.fopenWrite (setPath (some dir) name) with
  | none => rw [hnone hopen]
  | some opened =>
    obtain ⟨p, fs₁⟩ := opened
    have hentry := h.opened p (FileSystem.exists_of_fopenFile hopen).1 (by rw [hopen]; rfl)
    exact hsome p fs₁ hopen q fun heq => hq (heq ▸ hentry)

/-- **The frame.** For every file system and every name, the functions change at most the entry of
the name, if and only if the name is confined. -/
theorem changesEntryOnly_iff (fs : FileSystem) (dir name : CString) :
    ChangesEntryOnly fs dir name ↔ Confined fs dir name := by
  constructor
  · exact fun h => ⟨fun _ => opened_of_changesEntryOnly h, removed_of_changesEntryOnly h⟩
  · intro h
    refine ⟨fun programs os hos => sameBut_fsDeleteFile h hos, fun buffer isappend => ?_, ?_⟩
    · exact sameBut_of_opened (fun hopen => congrArg Prod.snd (fsWriteFile_of_none hopen isappend))
        (fun p fs₁ hopen q hq => node_fsWriteFile_of_ne hopen hq isappend) h
    · refine sameBut_of_opened (fun hopen => ?_) (fun p fs₁ hopen q hq => ?_) h
      · rw [fsCreateFile_of_none hopen]
      · rw [fsCreateFile_of_some hopen]
        exact FileSystem.node_fopenFile_of_ne hopen hq

end Frame

/-! ### Ordinary names -/

section Plain

variable {fs : FileSystem} {dir name : CString}

/-- The bytes of a path that is one word of a line. -/
structure IsWord (path : CString) : Prop where
  /-- It is not cut. -/
  uncut : ∀ b ∈ path.bytes, isBlank b = false ∧ isSeparator b = false
  /-- It is taken for itself. -/
  plain : PlainWord path.bytes
  /-- It is no option. -/
  head_ne : path.bytes.head? ≠ some 45

/-- The line has one command, with the path as its argument. -/
theorem commands_removeLine (huncut : ∀ b ∈ (setPath (some dir) name).bytes,
    isBlank b = false ∧ isSeparator b = false) :
    commands (removeLine dir name).bytes = [[ascii "rm", (setPath (some dir) name).bytes]] := by
  have hbytes : (removeLine dir name).bytes = ascii "rm" ++ 32 :: (setPath (some dir) name).bytes :=
    rfl
  have hrm : ∀ b ∈ ascii "rm", isBlank b = false ∧ isSeparator b = false :=
    List.forall_iff_forall_mem.mp (by decide)
  have hseparator : ∀ b ∈ (removeLine dir name).bytes, isSeparator b = false := by
    rw [hbytes]
    simp only [List.mem_append, List.mem_cons]
    rintro b (hb | rfl | hb)
    · exact (hrm b hb).2
    · decide
    · exact (huncut b hb).2
  have hne : (setPath (some dir) name).bytes ≠ [] := by
    have hslash : (lit "/").bytes ≠ [] := by decide
    simp [setPath, hslash]
  have hname : ascii "rm" ≠ [] := by decide
  rw [commands, List.splitOnP_eq_singleton hseparator, List.map_singleton, words, hbytes,
    List.splitOnP_append_cons _ _ (by decide), List.splitOnP_eq_singleton fun b hb => (hrm b hb).1,
    List.splitOnP_eq_singleton fun b hb => (huncut b hb).1]
  simp [hne, hname]

/-- A line of one command is plain if the path is. -/
theorem plainLine_removeLine (huncut : ∀ b ∈ (setPath (some dir) name).bytes,
    isBlank b = false ∧ isSeparator b = false)
    (hplain : PlainWord (setPath (some dir) name).bytes) :
    PlainLine (removeLine dir name).bytes := by
  have hrm : PlainWord (ascii "rm") := by decide
  rw [PlainLine, commands_removeLine huncut]
  simpa using ⟨hrm, hplain⟩

/-- **Ordinary names.** A name of one component, with a path that is one word, is confined. -/
theorem confined_of_isPlain {p : Path} {writable : Bool} (hdir : fs.resolve dir = some p)
    (hnode : fs.node p = some (.dir writable)) (hname : FileSystem.IsPlain name)
    (hword : IsWord (setPath (some dir) name)) : Confined fs dir name := by
  have hresolve := FileSystem.resolve_setPath hdir hnode hname
  have hentry : entry fs dir name = some (p ++ [name.bytes]) := by
    rw [entry, hdir, Option.map_some]
  refine ⟨fun q hq _ => ?_, fun _ => ?_⟩
  · rw [hentry, ← hresolve, hq]
  · refine ⟨plainLine_removeLine hword.uncut hword.plain, ?_⟩
    rw [commands_removeLine hword.uncut]
    refine ⟨by simpa [isRm] using hword.head_ne, ?_⟩
    simp only [List.flatMap_cons, List.tail_cons, List.flatMap_nil, List.append_nil,
      List.mem_singleton]
    rintro w rfl q ⟨hq, -⟩
    rw [CString.ofMemory_bytes] at hq
    rw [hentry, ← hresolve, hq]

end Plain

/-- A directory with the files `a b` and `b`. -/
def blankFs : FileSystem :=
  ⟨[], [([ascii "a b"], .file [] true true), ([ascii "b"], .file [] true true)]⟩

/-- A DELETE of `a b` removes the file `b`. -/
theorem not_forall_changesEntryOnly :
    ¬ ∀ (fs : FileSystem) (dir name : CString), ChangesEntryOnly fs dir name := by
  intro h
  obtain ⟨-, -, hwords⟩ :=
    removed_of_changesEntryOnly (h blankFs (lit ".") (lit "a b")) (by decide)
  exact absurd (hwords (ascii "b") (by decide) [ascii "b"] ⟨by decide, by decide⟩) (by decide)

end PekarDrive
