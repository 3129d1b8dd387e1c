import PekarDrive.Worker.Directory
import Mathlib.Data.Fintype.EquivFin

/-!
# The command interpreter behind `system`

`fs_delete_file` hands a line to `system`, which passes it to `sh`. The line is cut into commands
at semicolons and newlines, and a command into words at blanks; `rm` removes the file that each of
its words names. What the other programs do to the file system, what `rm` does with options, and
what becomes of a line with a character that the interpreter gives a meaning of its own, is left
open.

Removing files changes no directory, so every word of a line names in the end what it named in the
beginning (`PekarDrive.FileSystem.node_foldl_rmWord`).

## Main definitions

* `PekarDrive.FileSystem.removable`, `PekarDrive.FileSystem.rmWord`.
* `PekarDrive.commands`, `PekarDrive.PlainLine`, `PekarDrive.runLine`.
* `PekarDrive.IsShell`: an operating system with this interpreter.

## Main results

* `PekarDrive.node_runLine_of_isRm`: a line of `rm` commands.
* `PekarDrive.node_runLine_of_not_isRm`: a line with another command.
-/

namespace PekarDrive

open CText

/-! ### Removing files -/

/-- A word of a command. -/
abbrev Word := List UInt8

namespace FileSystem

/-- A file in a directory that may be changed. -/
def removable (fs : FileSystem) (p : Path) : Bool :=
  match fs.node p, fs.node p.dropLast with
  | some (.file _ _ _), some (.dir true) => true
  | _, _ => false

/-- The file system without the node at a path. -/
def removeNode (fs : FileSystem) (p : Path) : FileSystem :=
  { fs with nodes := fs.nodes.filter fun e => decide (e.1 ≠ p) }

/-- The word names the file at `p`, and the file can be removed. -/
def Removes (fs : FileSystem) (w : Word) (p : Path) : Prop :=
  fs.resolve (CString.ofMemory w) = some p ∧ fs.removable p

instance (fs : FileSystem) (w : Word) (p : Path) : Decidable (fs.Removes w p) :=
  inferInstanceAs (Decidable (_ ∧ _))

/-- What `rm` does with one of its words. -/
def rmWord (fs : FileSystem) (w : Word) : FileSystem :=
  match fs.resolve (CString.ofMemory w) with
  | none => fs
  | some p => if fs.removable p then fs.removeNode p else fs

section Remove

variable {fs fs' : FileSystem} {p q : Path} {w : Word}

theorem removable_iff : fs.removable p = true ↔
    (∃ content readable writable, fs.node p = some (.file content readable writable)) ∧
      fs.node p.dropLast = some (.dir true) := by
  unfold removable
  constructor
  · intro h
    split at h
    · rename_i hfile hdir
      exact ⟨⟨_, _, _, hfile⟩, hdir⟩
    · exact absurd h (by simp)
  · rintro ⟨⟨content, readable, writable, hfile⟩, hdir⟩
    rw [hfile, hdir]

theorem ne_nil_of_removable (h : fs.removable p = true) : p ≠ [] := by
  rintro rfl
  obtain ⟨⟨content, readable, writable, hfile⟩, -⟩ := removable_iff.mp h
  simp [node] at hfile

theorem lookup_filter_of_ne (h : p ≠ q) (nodes : List (Path × Node)) :
    (nodes.filter fun e => decide (e.1 ≠ q)).lookup p = nodes.lookup p := by
  induction nodes with
  | nil => rfl
  | cons e es ih =>
    obtain ⟨path, n⟩ := e
    by_cases he : path = q
    · rw [List.filter_cons_of_neg (by simp [he]), ih, List.lookup_cons, he,
        beq_eq_false_iff_ne.mpr h]
    · rw [List.filter_cons_of_pos (by simp [he]), List.lookup_cons, List.lookup_cons, ih]

theorem node_removeNode_of_ne (h : p ≠ q) : (fs.removeNode q).node p = fs.node p := by
  rw [node, node, removeNode, lookup_filter_of_ne h]

theorem node_removeNode_self (hp : p ≠ []) : (fs.removeNode p).node p = none := by
  rw [node, if_neg hp, removeNode, List.lookup_eq_none_iff]
  intro e he
  have hne : e.1 ≠ p := by simpa using List.of_mem_filter he
  simpa using hne.symm

/-- One word. -/
theorem node_rmWord (fs : FileSystem) (w : Word) (q : Path) :
    (fs.rmWord w).node q = if fs.Removes w q then none else fs.node q := by
  by_cases h : fs.Removes w q
  · rw [if_pos h, rmWord, h.1]
    simp only [h.2, if_true]
    exact node_removeNode_self (ne_nil_of_removable h.2)
  · rw [if_neg h, rmWord]
    split
    · rfl
    · rename_i p hp
      split
      · rename_i hr
        have hne : q ≠ p := by
          rintro rfl
          exact h ⟨hp, hr⟩
        exact node_removeNode_of_ne hne
      · rfl

@[simp] theorem cwd_rmWord : (fs.rmWord w).cwd = fs.cwd := by
  unfold rmWord
  split
  · rfl
  · split <;> rfl

/-- Directories stay, and nothing becomes one. -/
theorem node_rmWord_dir (writable : Bool) :
    (fs.rmWord w).node q = some (.dir writable) ↔ fs.node q = some (.dir writable) := by
  rw [node_rmWord]
  split
  · rename_i h
    obtain ⟨⟨content, readable, writable', hfile⟩, -⟩ := removable_iff.mp h.2
    simp [hfile]
  · rfl

/-- What a path names depends on the directories only. -/
theorem walk_congr (h : ∀ p writable, fs'.node p = some (.dir writable) ↔
    fs.node p = some (.dir writable)) (a : Path) (names : List Name) :
    fs'.walk a names = fs.walk a names := by
  induction names generalizing a with
  | nil => rfl
  | cons x xs ih =>
    have hdir : (∃ writable, fs'.node a = some (.dir writable)) ↔
        ∃ writable, fs.node a = some (.dir writable) := exists_congr fun b => h a b
    unfold FileSystem.walk
    split
    · rename_i b hb
      rw [(h a b).mp hb]
      simp only [ih]
    · rename_i hnot
      split
      · rename_i b hb
        exact absurd ((h a b).mpr hb) (hnot b)
      · rfl

theorem resolve_rmWord (path : CString) : (fs.rmWord w).resolve path = fs.resolve path := by
  unfold FileSystem.resolve
  simp only [cwd_rmWord, walk_congr fun _ _ => node_rmWord_dir _]

/-- What a further word removes. -/
theorem removes_rmWord {w' : Word} :
    (fs.rmWord w).Removes w' q ↔ fs.Removes w' q ∧ ¬ fs.Removes w q := by
  rw [Removes, resolve_rmWord, Removes, and_assoc]
  refine and_congr_right fun _ => ?_
  rw [removable_iff, removable_iff, node_rmWord_dir, node_rmWord]
  by_cases h : fs.Removes w q
  · simp [h]
  · simp [h]

/-- **Several words.** -/
theorem node_foldl_rmWord (ws : List Word) (fs : FileSystem) (q : Path) :
    (ws.foldl rmWord fs).node q = if ∃ w ∈ ws, fs.Removes w q then none else fs.node q := by
  induction ws generalizing fs with
  | nil => simp
  | cons w ws ih =>
    rw [List.foldl_cons, ih, node_rmWord]
    simp only [removes_rmWord, List.mem_cons, exists_eq_or_imp]
    by_cases h : fs.Removes w q
    · simp [h]
    · simp [h]

theorem node_foldl_rmWord_dir {ws : List Word} {writable : Bool}
    (h : fs.node q = some (.dir writable)) :
    (ws.foldl rmWord fs).node q = some (.dir writable) := by
  induction ws generalizing fs with
  | nil => exact h
  | cons w ws ih => exact ih ((node_rmWord_dir writable).mpr h)

end Remove

end FileSystem

/-! ### Lines of commands -/

/-- Between words: a blank or a tab. -/
def isBlank (b : UInt8) : Bool := b == 32 || b == 9

/-- Between commands: a semicolon or a newline. -/
def isSeparator (b : UInt8) : Bool := b == 59 || b == 10

/-- The words of a command. -/
def words (command : List UInt8) : List Word :=
  (command.splitOnP isBlank).filter fun w => decide (w ≠ [])

/-- The commands of a line. -/
def commands (line : List UInt8) : List (List Word) := (line.splitOnP isSeparator).map words

/-- The characters that are not taken for themselves: `|`, `&`, `<`, `>` and the parentheses, the
dollar sign, the backquote, the backslash and both quotes, and `*`, `?` and `[`. -/
def specialBytes : List UInt8 := [124, 38, 60, 62, 40, 41, 36, 96, 92, 34, 39, 42, 63, 91]

/-- A word that is taken for itself. It does not start a comment or name a home directory. -/
def PlainWord (w : Word) : Prop :=
  (∀ b ∈ w, b ∉ specialBytes) ∧ w.head? ≠ some 126 ∧ w.head? ≠ some 35

instance (w : Word) : Decidable (PlainWord w) :=
  haveI := List.decidableBAll (fun b => b ∉ specialBytes) w
  inferInstanceAs (Decidable (_ ∧ _ ∧ _))

/-- A line whose words are all taken for themselves. -/
def PlainLine (line : List UInt8) : Prop := ∀ command ∈ commands line, ∀ w ∈ command, PlainWord w

instance (line : List UInt8) : Decidable (PlainLine line) :=
  inferInstanceAs (Decidable (∀ _ ∈ _, _))

/-- A command `rm` without options, or an empty one. -/
def isRm : List Word → Bool
  | [] => true
  | name :: args => decide (name = ascii "rm") && args.all fun a => decide (a.head? ≠ some 45)

/-- The programs that a line may start, as far as they are not `rm`. -/
abbrev Programs := List Word → FileSystem → FileSystem

/-- One command. -/
def runCommand (programs : Programs) (fs : FileSystem) (command : List Word) : FileSystem :=
  if isRm command then command.tail.foldl FileSystem.rmWord fs else programs command fs

/-- The commands of a line, one after the other. -/
def runLine (programs : Programs) (line : List UInt8) (fs : FileSystem) : FileSystem :=
  (commands line).foldl (runCommand programs) fs

/-- `system` runs plain lines. -/
def IsShell (programs : Programs) (os : Os) : Prop :=
  ∀ (line : CString) fs, PlainLine line.bytes → os.system line fs = runLine programs line.bytes fs

section Lines

variable {programs : Programs} {line : List UInt8} {fs : FileSystem} {q : Path}

theorem foldl_runCommand_of_isRm {cs : List (List Word)} (h : ∀ c ∈ cs, isRm c = true) :
    cs.foldl (runCommand programs) fs = (cs.flatMap List.tail).foldl FileSystem.rmWord fs := by
  induction cs generalizing fs with
  | nil => rfl
  | cons c cs ih =>
    obtain ⟨hc, hcs⟩ := List.forall_mem_cons.mp h
    rw [List.foldl_cons, runCommand, if_pos hc, ih hcs, List.flatMap_cons, List.foldl_append]

/-- **A line of `rm` commands.** A node is gone when a word removes it, and is as it was
otherwise. -/
theorem node_runLine_of_isRm (h : ∀ c ∈ commands line, isRm c = true) (q : Path) :
    (runLine programs line fs).node q =
      if ∃ w ∈ (commands line).flatMap List.tail, fs.Removes w q then none else fs.node q := by
  rw [runLine, foldl_runCommand_of_isRm h, FileSystem.node_foldl_rmWord]

/-- Programs that make a directory. -/
def makesDir (q : Path) : Programs := fun _ fs => fs.setNode q (.dir true)

/-- The directory that they make is kept by every command. -/
theorem node_foldl_runCommand_dir (hq : q ≠ []) (cs : List (List Word))
    (h : fs.node q = some (.dir true)) :
    (cs.foldl (runCommand (makesDir q)) fs).node q = some (.dir true) := by
  induction cs generalizing fs with
  | nil => exact h
  | cons c cs ih =>
    refine ih ?_
    rw [runCommand]
    split
    · exact FileSystem.node_foldl_rmWord_dir h
    · exact FileSystem.node_setNode_self hq

/-- **A line with another command.** The program of this command makes its directory. -/
theorem node_runLine_of_not_isRm (hq : q ≠ []) {c : List Word} (hc : c ∈ commands line)
    (hrm : isRm c = false) : (runLine (makesDir q) line fs).node q = some (.dir true) := by
  obtain ⟨before, behind, hcommands⟩ := List.append_of_mem hc
  rw [runLine, hcommands, List.foldl_append, List.foldl_cons, runCommand, if_neg (by simp [hrm])]
  exact node_foldl_runCommand_dir hq behind (FileSystem.node_setNode_self hq)

end Lines

end PekarDrive
