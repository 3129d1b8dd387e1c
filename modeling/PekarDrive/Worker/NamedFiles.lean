import PekarDrive.Foundation.Runs
import PekarDrive.Worker.Frame
import Mathlib.Logic.Function.Basic

/-!
# The working directory as a map

Seen from outside, the working directory maps names to texts. `fs_write_file` puts a text under a
name, or behind the one that is there, and `fs_delete_file` takes a name out. The files are opened
one or more times for this, and the deletion is a line for the command interpreter.

The path of the working directory is the first thing behind `rm` in this line. With a `-` in front
it is taken for options, so that no file is removed.

## Main definitions

* `PekarDrive.FileSystem.filesIn`: the map that a directory stands for.
* `PekarDrive.FileCall`, with `run` and `applyTo`: the calls, and what they do to a map.
* `PekarDrive.Usable`: a directory without blanks or special characters in its path, whose files
  can be read and written.
* `PekarDrive.ActsAsMap`.

## Main results

* `PekarDrive.sets_fsWriteFile`, `PekarDrive.sets_fsDeleteFile`: the node that a call leaves.
* `PekarDrive.run_refines`: one call.
* `PekarDrive.actsAsMap_iff`: every sequence of calls.
-/

namespace PekarDrive

open CText StepRuns

/-- The texts under the names. -/
abbrev NamedFiles := CString → Option (List UInt8)

/-- The text of a file. -/
def Node.content? : Node → Option (List UInt8)
  | file content _ _ => some content
  | dir _ => none

/-- The texts of the files in a directory. -/
def FileSystem.filesIn (fs : FileSystem) (p : Path) : NamedFiles := fun f =>
  (fs.node (p ++ [f.bytes])).bind Node.content?

/-- A call on a name. -/
inductive FileCall
  /-- `fs_write_file`. -/
  | write (file buffer : CString) (isappend : Bool)
  /-- `fs_delete_file`. -/
  | delete (file : CString)
  deriving DecidableEq

namespace FileCall

/-- The name. -/
def file : FileCall → CString
  | write file _ _ => file
  | delete file => file

/-- The call: its result, if it has one, and the file system afterwards. -/
def run (os : Os) (dir : CString) : FileCall → FileSystem → Option ℤ × FileSystem
  | write file buffer isappend, fs =>
    let (result, fs') := fsWriteFile (some dir) file buffer isappend fs
    (some result, fs')
  | delete file, fs => (none, fsDeleteFile os (some dir) file fs)

/-- What a call does to a map. -/
def applyTo : FileCall → NamedFiles → Option ℤ × NamedFiles
  | write file buffer false, m =>
    (some buffer.strlen, Function.update m file (some buffer.bytes))
  | write file buffer true, m =>
    match m file with
    | none => (some (-1), m)
    | some content =>
      (some buffer.strlen, Function.update m file (some (content ++ buffer.bytes)))
  | delete file, m => (none, Function.update m file none)

end FileCall

/-- An entry of the directory, without blanks or special characters. -/
structure IsFileName (f : CString) : Prop extends FileSystem.IsPlain f where
  /-- The name is not cut into words or commands. -/
  uncut : ∀ b ∈ f.bytes, isBlank b = false ∧ isSeparator b = false
  /-- No character has a meaning of its own. -/
  plain : ∀ b ∈ f.bytes, b ∉ specialBytes

instance (f : CString) : Decidable (IsFileName f) :=
  haveI := List.decidableBAll (fun b => isBlank b = false ∧ isSeparator b = false) f.bytes
  haveI := List.decidableBAll (fun b => b ∉ specialBytes) f.bytes
  decidable_of_iff ((f.bytes ≠ [] ∧ f.bytes ≠ [46] ∧ f.bytes ≠ [46, 46] ∧ 47 ∉ f.bytes) ∧
      (∀ b ∈ f.bytes, isBlank b = false ∧ isSeparator b = false) ∧
      ∀ b ∈ f.bytes, b ∉ specialBytes)
    ⟨fun ⟨⟨h₁, h₂, h₃, h₄⟩, h₅, h₆⟩ => ⟨⟨h₁, h₂, h₃, h₄⟩, h₅, h₆⟩,
      fun ⟨⟨h₁, h₂, h₃, h₄⟩, h₅, h₆⟩ => ⟨⟨h₁, h₂, h₃, h₄⟩, h₅, h₆⟩⟩

namespace FileCall

/-- A name of an entry, and a text whose length `fprintf` can return. -/
def Allowed : FileCall → Prop
  | write file buffer _ => IsFileName file ∧ buffer.strlen < 2 ^ 31
  | delete file => IsFileName file

theorem Allowed.isFileName {c : FileCall} (h : c.Allowed) : IsFileName c.file := by
  cases c with
  | write file buffer isappend => exact h.1
  | delete file => exact h

end FileCall

/-- The directory `dir` at `p`: nothing in its path is special to the interpreter, it can be
changed, and every file in it can be read and written. -/
structure Usable (dir : CString) (p : Path) (fs : FileSystem) : Prop where
  /-- The path is not cut into words or commands. -/
  uncut : ∀ b ∈ dir.bytes, isBlank b = false ∧ isSeparator b = false
  /-- The path is taken for itself. -/
  plain : PlainWord dir.bytes
  /-- The path leads to the directory. -/
  resolve : fs.resolve dir = some p
  /-- The directory is there. -/
  node : fs.node p = some (.dir true)
  /-- The entries are files. -/
  files : ∀ f, IsFileName f → fs.node (p ++ [f.bytes]) = none ∨
    ∃ content, fs.node (p ++ [f.bytes]) = some (.file content true true)

/-- Every sequence of calls has the results that it has on the map, leaves the files of the map, and
changes nothing but these names. -/
def ActsAsMap (os : Os) (dir : CString) (p : Path) (fs : FileSystem) : Prop :=
  ∀ calls : List FileCall, (∀ c ∈ calls, c.Allowed) →
    (results (FileCall.run os dir) calls fs).1 = (results FileCall.applyTo calls (fs.filesIn p)).1 ∧
    (results (FileCall.run os dir) calls fs).2.filesIn p =
      (results FileCall.applyTo calls (fs.filesIn p)).2 ∧
    ∀ q, (∀ c ∈ calls, q ≠ p ++ [c.file.bytes]) →
      (results (FileCall.run os dir) calls fs).2.node q = fs.node q

/-! ### The node at an entry -/

namespace FileSystem

/-- From `fs` to `fs'`, the node at `e` becomes `n`, and nothing else changes. -/
structure Sets (e : Path) (n : Option Node) (fs fs' : FileSystem) : Prop where
  /-- The current directory stays. -/
  cwd : fs'.cwd = fs.cwd
  /-- The node is there. -/
  node_self : fs'.node e = n
  /-- The other nodes stay. -/
  node_of_ne : ∀ q, q ≠ e → fs'.node q = fs.node q

section Sets

variable {e p : Path} {n n' : Option Node} {fs fs' fs'' : FileSystem} {path : CString}

theorem Sets.refl (h : fs.node e = n) : Sets e n fs fs := ⟨rfl, h, fun _ _ => rfl⟩

theorem Sets.trans (h : Sets e n fs fs') (h' : Sets e n' fs' fs'') : Sets e n' fs fs'' :=
  ⟨h'.cwd.trans h.cwd, h'.node_self, fun q hq => (h'.node_of_ne q hq).trans (h.node_of_ne q hq)⟩

theorem sets_setNode (he : e ≠ []) (n : Node) : Sets e (some n) fs (fs.setNode e n) := by
  refine ⟨?_, node_setNode_self he, fun _ hq => node_setNode_of_ne hq⟩
  unfold setNode
  split <;> rfl

theorem sets_removeNode (he : e ≠ []) : Sets e none fs (fs.removeNode e) :=
  ⟨rfl, node_removeNode_self he, fun _ hq => node_removeNode_of_ne hq⟩

/-- Directories stay where the node was and is no directory, and with them what paths name. -/
theorem Sets.resolve (h : Sets e n fs fs') (hdir : ∀ writable, fs.node e ≠ some (.dir writable))
    (hdir' : ∀ writable, n ≠ some (.dir writable)) (path : CString) :
    fs'.resolve path = fs.resolve path := by
  have hdirs : ∀ q writable, fs'.node q = some (.dir writable) ↔
      fs.node q = some (.dir writable) := by
    intro q writable
    by_cases hq : q = e
    · rw [hq, h.node_self]
      exact iff_of_false (hdir' writable) (hdir writable)
    · rw [h.node_of_ne q hq]
  unfold FileSystem.resolve
  simp only [h.cwd, walk_congr hdirs]

/-- The files of the directory, with the one at the entry. -/
theorem Sets.filesIn {f : CString} (h : Sets (p ++ [f.bytes]) n fs fs') :
    fs'.filesIn p = Function.update (fs.filesIn p) f (n.bind Node.content?) := by
  funext g
  by_cases hg : g = f
  · rw [hg, Function.update_self, FileSystem.filesIn, h.node_self]
  · have hne : p ++ [g.bytes] ≠ p ++ [f.bytes] := fun heq =>
      hg (CString.ext (List.singleton_injective (List.append_cancel_left heq)))
    rw [Function.update_of_ne hg, FileSystem.filesIn, FileSystem.filesIn, h.node_of_ne _ hne]

end Sets

/-! ### Opening the files -/

section Open

variable {e : Path} {fs : FileSystem} {path : CString} {content : List UInt8}

theorem fileExists_of_file (hp : fs.resolve path = some e)
    (hnode : fs.node e = some (.file content true true)) : fileExists fs path = true := by
  simp [fileExists, fopenRead, hp, hnode]

theorem fileExists_of_none (hp : fs.resolve path = some e) (hnode : fs.node e = none) :
    fileExists fs path = false := by
  simp [fileExists, fopenRead, hp, hnode]

theorem fopenFile_of_file (hp : fs.resolve path = some e)
    (hnode : fs.node e = some (.file content true true)) (f : List UInt8 → List UInt8) :
    fs.fopenFile path f = some (e, fs.setNode e (.file (f content) true true)) := by
  simp [fopenFile, hp, hnode]

theorem fopenFile_of_none (hp : fs.resolve path = some e) (hnode : fs.node e = none)
    (hdir : fs.node e.dropLast = some (.dir true)) (f : List UInt8 → List UInt8) :
    fs.fopenFile path f = some (e, fs.setNode e (.file [] true true)) := by
  simp [fopenFile, hp, hnode, hdir]

/-- Printing into a file. -/
theorem sets_fprintf (he : e ≠ []) (hnode : fs.node e = some (.file content true true))
    {s : CString} (hs : s.strlen < 2 ^ 31) : (fs.fprintf e s).1 = s.strlen ∧
      Sets e (some (.file (content ++ s.bytes) true true)) fs (fs.fprintf e s).2 := by
  simp only [fprintf, hnode, if_pos hs, true_and]
  exact sets_setNode he _

end Open

end FileSystem

/-! ### The calls -/

section Calls

open FileSystem

variable {dir f buffer : CString} {p e : Path} {fs : FileSystem} {programs : Programs} {os : Os}

/-- **Writing to a file that is there.** -/
theorem sets_fsWriteFile_of_file {content : List UInt8}
    (hp : fs.resolve (setPath (some dir) f) = some e) (he : e ≠ [])
    (hnode : fs.node e = some (.file content true true)) (hlen : buffer.strlen < 2 ^ 31)
    (isappend : Bool) : (fsWriteFile (some dir) f buffer isappend fs).1 = buffer.strlen ∧
      Sets e (some (.file ((if isappend then content else []) ++ buffer.bytes) true true)) fs
        (fsWriteFile (some dir) f buffer isappend fs).2 := by
  have hopened : ∀ old, ((fs.setNode e (.file old true true)).fprintf e buffer).1 = buffer.strlen ∧
      Sets e (some (.file (old ++ buffer.bytes) true true)) fs
        ((fs.setNode e (.file old true true)).fprintf e buffer).2 := by
    intro old
    have hnode' := @node_setNode_self fs e (.file old true true) he
    obtain ⟨hresult, hsets⟩ := sets_fprintf he hnode' hlen
    exact ⟨hresult, (sets_setNode he _).trans hsets⟩
  cases isappend with
  | false =>
    simp only [fsWriteFile, fileExists_of_file hp hnode, fopenWrite, fopenFile_of_file hp hnode,
      Bool.false_and, Bool.false_eq_true, if_false, if_true]
    exact hopened []
  | true =>
    simp only [fsWriteFile, fileExists_of_file hp hnode, fopenAppend, fopenFile_of_file hp hnode,
      Bool.not_true, Bool.and_false, Bool.false_eq_true, if_false, if_true]
    exact hopened content

/-- **Writing to a file that is not there.** It is created first, and opened again. -/
theorem sets_fsWriteFile_of_none (hp : fs.resolve (setPath (some dir) f) = some e) (he : e ≠ [])
    (hnode : fs.node e = none) (hdir : fs.node e.dropLast = some (.dir true))
    (hlen : buffer.strlen < 2 ^ 31) : (fsWriteFile (some dir) f buffer false fs).1 = buffer.strlen ∧
      Sets e (some (.file buffer.bytes true true)) fs
        (fsWriteFile (some dir) f buffer false fs).2 := by
  have hcreated : Sets e (some (.file [] true true)) fs (fs.setNode e (.file [] true true)) :=
    sets_setNode he _
  have hp' : (fs.setNode e (.file [] true true)).resolve (setPath (some dir) f) = some e := by
    rw [hcreated.resolve (by simp [hnode]) (by simp), hp]
  have hopened := hcreated.trans (sets_setNode he (.file [] true true))
  obtain ⟨hresult, hprinted⟩ := sets_fprintf he hopened.node_self hlen
  simp only [fsWriteFile, fsCreateFile, fileExists_of_none hp hnode, fopenWrite,
    fopenFile_of_none hp hnode hdir, fopenFile_of_file hp' hcreated.node_self, Bool.false_and,
    Bool.false_eq_true, if_false]
  exact ⟨hresult, hopened.trans hprinted⟩

/-- An append to a file that is not there is refused. -/
theorem fsWriteFile_append_of_none (hp : fs.resolve (setPath (some dir) f) = some e)
    (hnode : fs.node e = none) : fsWriteFile (some dir) f buffer true fs = (-1, fs) := by
  simp only [fsWriteFile, fileExists_of_none hp hnode, Bool.not_false, Bool.and_true, if_true]

/-- `rm` with the path as its argument. -/
theorem fsDeleteFile_of_isWord (hos : IsShell programs os)
    (hword : IsWord (setPath (some dir) f)) :
    fsDeleteFile os (some dir) f fs = if fileExists fs (setPath (some dir) f) then
      fs.rmWord (setPath (some dir) f).bytes else fs := by
  by_cases hexists : fileExists fs (setPath (some dir) f) = true
  · have hplain := plainLine_removeLine hword.uncut hword.plain
    have hisRm : isRm [ascii "rm", (setPath (some dir) f).bytes] = true := by
      simpa [isRm] using hword.head_ne
    rw [if_pos hexists, fsDeleteFile_of_exists os hexists, hos _ _ hplain, runLine,
      commands_removeLine hword.uncut, List.foldl_cons, List.foldl_nil, runCommand, if_pos hisRm]
    rfl
  · rw [if_neg hexists, fsDeleteFile, if_neg hexists]

/-- `rm` with the path as an option, which the programs of the line take for one. -/
theorem fsDeleteFile_of_head_eq (hos : IsShell programs os) (huncut : ∀ b ∈
    (setPath (some dir) f).bytes, isBlank b = false ∧ isSeparator b = false)
    (hplain : PlainWord (setPath (some dir) f).bytes)
    (hhead : (setPath (some dir) f).bytes.head? = some 45) :
    fsDeleteFile os (some dir) f fs = if fileExists fs (setPath (some dir) f) then
      programs [ascii "rm", (setPath (some dir) f).bytes] fs else fs := by
  by_cases hexists : fileExists fs (setPath (some dir) f) = true
  · have hisRm : isRm [ascii "rm", (setPath (some dir) f).bytes] = false := by
      simp [isRm, hhead]
    rw [if_pos hexists, fsDeleteFile_of_exists os hexists,
      hos _ _ (plainLine_removeLine huncut hplain), runLine, commands_removeLine huncut,
      List.foldl_cons, List.foldl_nil, runCommand, if_neg (by rw [hisRm]; decide)]
  · rw [if_neg hexists, fsDeleteFile, if_neg hexists]

/-- **Deleting.** -/
theorem sets_fsDeleteFile (hos : IsShell programs os) (hword : IsWord (setPath (some dir) f))
    (hp : fs.resolve (setPath (some dir) f) = some e) (he : e ≠ [])
    (hnode : fs.node e = none ∨ ∃ content, fs.node e = some (.file content true true))
    (hdir : fs.node e.dropLast = some (.dir true)) :
    Sets e none fs (fsDeleteFile os (some dir) f fs) := by
  rw [fsDeleteFile_of_isWord hos hword]
  rcases hnode with hnone | ⟨content, hfile⟩
  · rw [fileExists_of_none hp hnone]
    exact Sets.refl hnone
  · have hrem : fs.removable e = true := removable_iff.mpr ⟨⟨content, true, true, hfile⟩, hdir⟩
    rw [fileExists_of_file hp hfile, if_pos rfl, rmWord, CString.ofMemory_bytes, hp]
    simp only [hrem, if_true]
    exact sets_removeNode he

end Calls

/-! ### The directory -/

section Directory

open FileSystem

variable {dir f : CString} {p : Path} {fs fs' : FileSystem} {n : Option Node}

theorem ne_nil_of_resolve (h : fs.resolve dir = some p) : dir.bytes ≠ [] := by
  intro hnil
  simp [FileSystem.resolve, hnil] at h

/-- The path of a name starts like the path of the directory. -/
theorem head?_setPath (h : Usable dir p fs) (f : CString) :
    (setPath (some dir) f).bytes.head? = dir.bytes.head? := by
  obtain ⟨b, bs, hdir⟩ := List.exists_cons_of_ne_nil (ne_nil_of_resolve h.resolve)
  simp [setPath, hdir]

/-- Every byte of the path of a name is one of the directory's path, the slash or one of the
name. -/
theorem mem_setPath_iff {b : UInt8} :
    b ∈ (setPath (some dir) f).bytes ↔ b ∈ dir.bytes ∨ b = 47 ∨ b ∈ f.bytes := by
  have hslash : (lit "/").bytes = [47] := by decide
  simp [setPath, hslash]

/-- The path of a name is taken for itself. -/
theorem plainWord_setPath (h : Usable dir p fs) (hf : IsFileName f) :
    (∀ b ∈ (setPath (some dir) f).bytes, isBlank b = false ∧ isSeparator b = false) ∧
      PlainWord (setPath (some dir) f).bytes := by
  obtain ⟨hspecial, htilde, hhash⟩ := h.plain
  refine ⟨fun b hb => ?_, fun b hb => ?_, ?_, ?_⟩
  · rcases mem_setPath_iff.mp hb with hb | rfl | hb
    · exact h.uncut b hb
    · decide
    · exact hf.uncut b hb
  · rcases mem_setPath_iff.mp hb with hb | rfl | hb
    · exact hspecial b hb
    · decide
    · exact hf.plain b hb
  · rwa [head?_setPath h]
  · rwa [head?_setPath h]

theorem isWord_setPath (h : Usable dir p fs) (hhead : dir.bytes.head? ≠ some 45)
    (hf : IsFileName f) : IsWord (setPath (some dir) f) :=
  ⟨(plainWord_setPath h hf).1, (plainWord_setPath h hf).2, by rwa [head?_setPath h]⟩

theorem Usable.ne_dir (h : Usable dir p fs) (hf : IsFileName f) (writable : Bool) :
    fs.node (p ++ [f.bytes]) ≠ some (.dir writable) := by
  rcases h.files f hf with hnone | ⟨content, hfile⟩
  · simp [hnone]
  · simp [hfile]

/-- The directory stays usable when one of its entries is removed, or becomes a file. -/
theorem Usable.sets (h : Usable dir p fs) (hf : IsFileName f)
    (hn : n = none ∨ ∃ content, n = some (.file content true true))
    (hsets : Sets (p ++ [f.bytes]) n fs fs') : Usable dir p fs' := by
  have hne : p ≠ p ++ [f.bytes] := by simp
  refine ⟨h.uncut, h.plain, ?_, ?_, fun g hg => ?_⟩
  · rw [hsets.resolve (h.ne_dir hf) (by rcases hn with rfl | ⟨content, rfl⟩ <;> simp), h.resolve]
  · rw [hsets.node_of_ne p hne, h.node]
  · by_cases heq : p ++ [g.bytes] = p ++ [f.bytes]
    · rw [heq, hsets.node_self]
      exact hn
    · rw [hsets.node_of_ne _ heq]
      exact h.files g hg

end Directory

/-! ### Sequences of calls -/

section Sequences

open FileSystem

variable {dir : CString} {p : Path} {fs : FileSystem} {programs : Programs} {os : Os} {c : FileCall}

/-- What writing leaves at an entry. -/
theorem exists_sets_write {f buffer : CString} (h : Usable dir p fs) (hf : IsFileName f)
    (hlen : buffer.strlen < 2 ^ 31) (isappend : Bool) :
    ∃ n, (n = none ∨ ∃ content, n = some (.file content true true)) ∧
      Sets (p ++ [f.bytes]) n fs (fsWriteFile (some dir) f buffer isappend fs).2 ∧
      (FileCall.write f buffer isappend).applyTo (fs.filesIn p) =
        (some (fsWriteFile (some dir) f buffer isappend fs).1,
          Function.update (fs.filesIn p) f (n.bind Node.content?)) := by
  have hp := resolve_setPath h.resolve h.node hf.toIsPlain
  have he : p ++ [f.bytes] ≠ [] := by simp
  rcases h.files f hf with hnone | ⟨content, hfile⟩
  · have hmap : fs.filesIn p f = none := by rw [filesIn, hnone, Option.bind_none]
    cases isappend with
    | false =>
      have hdir : fs.node (p ++ [f.bytes]).dropLast = some (.dir true) := by
        rw [List.dropLast_concat, h.node]
      obtain ⟨hresult, hsets⟩ := sets_fsWriteFile_of_none hp he hnone hdir hlen
      exact ⟨_, .inr ⟨_, rfl⟩, hsets, by rw [hresult]; rfl⟩
    | true =>
      -- nothing is written, and the map has no such name
      rw [fsWriteFile_append_of_none hp hnone]
      refine ⟨none, .inl rfl, Sets.refl hnone, ?_⟩
      simp only [FileCall.applyTo, hmap, Option.bind_none]
      rw [← hmap, Function.update_eq_self]
  · have hmap : fs.filesIn p f = some content := by rw [filesIn, hfile]; rfl
    obtain ⟨hresult, hsets⟩ := sets_fsWriteFile_of_file hp he hfile hlen isappend
    refine ⟨_, .inr ⟨_, rfl⟩, hsets, ?_⟩
    rw [hresult]
    cases isappend with
    | false => rfl
    | true =>
      simp only [FileCall.applyTo, hmap]
      rfl

/-- What a call leaves at its entry. -/
theorem exists_sets_run (hos : IsShell programs os) (hhead : dir.bytes.head? ≠ some 45)
    (h : Usable dir p fs) (hc : c.Allowed) :
    ∃ n, (n = none ∨ ∃ content, n = some (.file content true true)) ∧
      Sets (p ++ [c.file.bytes]) n fs (c.run os dir fs).2 ∧
      c.applyTo (fs.filesIn p) = ((c.run os dir fs).1,
        Function.update (fs.filesIn p) c.file (n.bind Node.content?)) := by
  cases c with
  | write f buffer isappend => exact exists_sets_write h hc.1 hc.2 isappend
  | delete f =>
    have hf : IsFileName f := hc
    have hdir : fs.node (p ++ [f.bytes]).dropLast = some (.dir true) := by
      rw [List.dropLast_concat, h.node]
    have hsets := sets_fsDeleteFile hos (isWord_setPath h hhead hf)
      (resolve_setPath h.resolve h.node hf.toIsPlain) (by simp) (h.files f hf) hdir
    exact ⟨none, .inl rfl, hsets, rfl⟩

/-- **One call.** It has the result that it has on the map, and does to the files of the directory
what it does to the map. -/
theorem run_refines (hos : IsShell programs os) (hhead : dir.bytes.head? ≠ some 45)
    (h : Usable dir p fs) (hc : c.Allowed) :
    (c.run os dir fs).1 = (c.applyTo (fs.filesIn p)).1 ∧ Usable dir p (c.run os dir fs).2 ∧
      (c.run os dir fs).2.filesIn p = (c.applyTo (fs.filesIn p)).2 ∧
      SameBut (some (p ++ [c.file.bytes])) fs (c.run os dir fs).2 := by
  obtain ⟨n, hn, hsets, happly⟩ := exists_sets_run hos hhead h hc
  rw [happly]
  exact ⟨rfl, h.sets hc.isFileName hn hsets, hsets.filesIn, fun q hq =>
    hsets.node_of_ne q fun heq => hq (congrArg some heq)⟩

theorem actsAsMap (hos : IsShell programs os) (hhead : dir.bytes.head? ≠ some 45)
    (h : Usable dir p fs) : ActsAsMap os dir p fs := by
  intro calls hcalls
  -- beside the map, the state keeps what it has outside the names of the calls
  have hstep : ∀ (c : FileCall) (fs' : FileSystem) (m : NamedFiles), c.Allowed ∧ c ∈ calls →
      (Usable dir p fs' ∧ fs'.filesIn p = m ∧
        ∀ q, (∀ c ∈ calls, q ≠ p ++ [c.file.bytes]) → fs'.node q = fs.node q) →
      (c.run os dir fs').1 = (c.applyTo m).1 ∧ (Usable dir p (c.run os dir fs').2 ∧
        (c.run os dir fs').2.filesIn p = (c.applyTo m).2 ∧
        ∀ q, (∀ c ∈ calls, q ≠ p ++ [c.file.bytes]) →
          (c.run os dir fs').2.node q = fs.node q) := by
    rintro c fs' _ ⟨hc, hmem⟩ ⟨husable, rfl, hsame⟩
    obtain ⟨hresult, husable', hfiles, hsame'⟩ := run_refines hos hhead husable hc
    refine ⟨hresult, husable', hfiles, fun q hq => ?_⟩
    rw [hsame' q fun heq => hq c hmem (Option.some.inj heq), hsame q hq]
  obtain ⟨hresults, -, hfiles, hsame⟩ :=
    results_refine hstep (fun c hc => ⟨hcalls c hc, hc⟩) ⟨h, rfl, fun _ _ => rfl⟩
  exact ⟨hresults, hfiles, hsame⟩

/-- With a `-` in front, a file that has been written is not deleted. -/
theorem not_actsAsMap_of_head_eq (h : Usable dir p fs) (hhead : dir.bytes.head? = some 45)
    (hos : IsShell (fun _ fs => fs) os) : ¬ ActsAsMap os dir p fs := by
  intro hacts
  have hf : IsFileName (lit "a") := by decide
  have hlen : (lit "").strlen < 2 ^ 31 := by decide
  have hallowed : ∀ c ∈ [FileCall.write (lit "a") (lit "") false, .delete (lit "a")],
      c.Allowed := by
    simp only [List.forall_mem_cons, List.not_mem_nil, false_imp_iff, implies_true, and_true]
    exact ⟨⟨hf, hlen⟩, hf⟩
  obtain ⟨-, hfiles, -⟩ := hacts _ hallowed
  -- what is written stays
  obtain ⟨n, hn, hsets, happly⟩ := exists_sets_write h hf hlen false
  have husable := h.sets hf hn hsets
  obtain ⟨huncut, hplain⟩ := plainWord_setPath husable hf
  have hdelete := @fsDeleteFile_of_head_eq dir (lit "a")
    (fsWriteFile (some dir) (lit "a") (lit "") false fs).2 _ os hos huncut hplain
    (by rwa [head?_setPath husable])
  have hkept := congrFun hfiles (lit "a")
  change (fsDeleteFile os (some dir) (lit "a")
    (fsWriteFile (some dir) (lit "a") (lit "") false fs).2).filesIn p (lit "a") =
      Function.update (Function.update (fs.filesIn p) (lit "a") (some [])) (lit "a") none (lit "a")
    at hkept
  rw [hdelete, ite_self, Function.update_self, hsets.filesIn, Function.update_self] at hkept
  have hwritten := congrFun (Prod.mk.inj happly).2 (lit "a")
  rw [Function.update_self, Function.update_self, hkept] at hwritten
  exact absurd hwritten (by simp)

/-- **The working directory as a map.** In every sequence of calls on names of entries, with every
shell that runs plain lines, the directory acts as the map of its files, if and only if its path
does not start with a `-`. -/
theorem actsAsMap_iff (h : Usable dir p fs) :
    (∀ programs os, IsShell programs os → ActsAsMap os dir p fs) ↔
      dir.bytes.head? ≠ some 45 := by
  constructor
  · intro hacts hhead
    have hos := @isShell_shellOs (fun _ fs => fs) p
    exact not_actsAsMap_of_head_eq h hhead hos (hacts _ _ hos)
  · exact fun hhead programs os hos => actsAsMap hos hhead h

end Sequences

/-! ### An empty directory -/

/-- An empty directory in the root. -/
def emptyDir (name : CString) : FileSystem := ⟨[], [([name.bytes], .dir true)]⟩

theorem usable_emptyDir {name : CString} (hname : IsFileName name) (hplain : PlainWord name.bytes)
    (hresolve : (emptyDir name).resolve name = some [name.bytes]) :
    Usable name [name.bytes] (emptyDir name) := by
  refine ⟨hname.uncut, hplain, hresolve, ?_, fun f _ => .inl ?_⟩
  · simp [FileSystem.node, emptyDir]
  · simp [FileSystem.node, emptyDir, List.lookup_cons]

/-- The directory `d` acts as a map. -/
theorem actsAsMap_d : Usable (lit "d") [ascii "d"] (emptyDir (lit "d")) ∧
    ∀ programs os, IsShell programs os →
      ActsAsMap os (lit "d") [ascii "d"] (emptyDir (lit "d")) := by
  have husable : Usable (lit "d") [ascii "d"] (emptyDir (lit "d")) :=
    usable_emptyDir (by decide) (by decide) (by decide)
  exact ⟨husable, (actsAsMap_iff husable).mpr (by decide)⟩

/-- A file that has been written to the directory `-d` is not deleted. -/
theorem not_forall_actsAsMap : ¬ ∀ (dir : CString) (p : Path) (fs : FileSystem),
    Usable dir p fs → ∀ programs os, IsShell programs os → ActsAsMap os dir p fs := by
  intro h
  have husable : Usable (lit "-d") [ascii "-d"] (emptyDir (lit "-d")) :=
    usable_emptyDir (by decide) (by decide) (by decide)
  have hos := @isShell_shellOs (fun _ fs => fs) [ascii "-d"]
  exact not_actsAsMap_of_head_eq husable (by decide) hos (h _ _ _ husable _ _ hos)

end PekarDrive
