import PekarDrive.Foundation.Text

/-!
# The file system of a worker

The files a worker can reach, the calls of the C library on them that it uses, and the functions
of `src/fs/fs.c`.

A path is resolved against the current directory component by component: `.` and empty components
stay, `..` goes up, and every component that is not the last one must name a directory. `fopen`
opens a directory for reading and then reads nothing from it. The command interpreter that
`system` starts and the order of `readdir` are parameters (`PekarDrive.Os`).

## Main definitions

* `PekarDrive.FileSystem`, `PekarDrive.FileSystem.resolve`.
* `PekarDrive.FileSystem.fopenRead`, `PekarDrive.FileSystem.fopenWrite`,
  `PekarDrive.FileSystem.fopenAppend`, `PekarDrive.FileSystem.fprintf`.
* `PekarDrive.Os`.
* `PekarDrive.setPath`, `PekarDrive.fileExists`, `PekarDrive.fsCreateFile`,
  `PekarDrive.fsDeleteFile`, `PekarDrive.fsWriteFile`, `PekarDrive.fsReadFile`.
-/

namespace PekarDrive

open CText

/-! ### Files and directories -/

/-- A name in a directory. -/
abbrev Name := List UInt8

/-- A resolved path: the names from the root on. -/
abbrev Path := List Name

/-- What a path may name. -/
inductive Node
  /-- A directory, and whether entries may be made in it. -/
  | dir (writable : Bool)
  /-- A regular file with its content, and whether it may be read and written. -/
  | file (content : List UInt8) (readable writable : Bool)
  deriving DecidableEq

/-- The state of the file system, and the current directory of the worker. -/
@[ext] structure FileSystem where
  /-- The current directory. -/
  cwd : Path
  /-- The nodes below the root. -/
  nodes : List (Path × Node)
  deriving DecidableEq

namespace FileSystem

/-- The node at a resolved path; the root is a directory. -/
def node (fs : FileSystem) (p : Path) : Option Node :=
  if p = [] then some (.dir true) else fs.nodes.lookup p

/-- The file system with `n` at the resolved path `p`. -/
def setNode (fs : FileSystem) (p : Path) (n : Node) : FileSystem :=
  if (fs.nodes.lookup p).isSome then
    { fs with nodes := fs.nodes.map fun e => if e.1 = p then (p, n) else e }
  else
    { fs with nodes := fs.nodes ++ [(p, n)] }

/-- Following names from a directory. -/
def walk (fs : FileSystem) : Path → List Name → Option Path
  | p, [] => some p
  | p, name :: names =>
    match fs.node p with
    | some (.dir _) =>
      if name = [] ∨ name = [46] then fs.walk p names
      else if name = [46, 46] then fs.walk p.dropLast names
      else fs.walk (p ++ [name]) names
    | _ => none

/-- The resolved path of a path as the program gives it. -/
def resolve (fs : FileSystem) (path : CString) : Option Path :=
  match path.bytes with
  | [] => none
  | 47 :: rest => fs.walk [] (rest.splitOn 47)
  | bs => fs.walk fs.cwd (bs.splitOn 47)

/-- `fopen(path, "r")`: the bytes that reading gives. -/
def fopenRead (fs : FileSystem) (path : CString) : Option (List UInt8) :=
  match fs.resolve path with
  | none => none
  | some p =>
    match fs.node p with
    | some (.file content readable _) => if readable then some content else none
    | some (.dir _) => some []
    | none => none

/-- Opening for writing: the file opened, and the file system in which it has been created, or
changed by `f` if it was there. -/
def fopenFile (fs : FileSystem) (path : CString) (f : List UInt8 → List UInt8) :
    Option (Path × FileSystem) :=
  match fs.resolve path with
  | none => none
  | some p =>
    match fs.node p with
    | some (.file content readable writable) =>
      if writable then some (p, fs.setNode p (.file (f content) readable writable)) else none
    | some (.dir _) => none
    | none =>
      match fs.node p.dropLast with
      | some (.dir true) => some (p, fs.setNode p (.file [] true true))
      | _ => none

/-- `fopen(path, "w")`: the file is emptied or created. -/
def fopenWrite (fs : FileSystem) (path : CString) : Option (Path × FileSystem) :=
  fs.fopenFile path fun _ => []

/-- `fopen(path, "a")`: the file keeps its content or is created. -/
def fopenAppend (fs : FileSystem) (path : CString) : Option (Path × FileSystem) :=
  fs.fopenFile path fun content => content

/-- `fprintf(f, "%s", s)` on a file opened for writing, whose position is at its end: the value
returned is an `int`, and negative when the length is none. -/
def fprintf (fs : FileSystem) (p : Path) (s : CString) : ℤ × FileSystem :=
  (if s.strlen < 2 ^ 31 then s.strlen else -1,
    match fs.node p with
    | some (.file content readable writable) =>
      fs.setNode p (.file (content ++ s.bytes) readable writable)
    | _ => fs)

/-- The names in a directory, `.` and `..` among them, or nothing when it cannot be opened. -/
def opendir (fs : FileSystem) (path : CString) : Option (List Name) :=
  match fs.resolve path with
  | none => none
  | some p =>
    match fs.node p with
    | some (.dir _) => some ([[46], [46, 46]] ++ fs.nodes.filterMap fun e =>
        if e.1.dropLast = p ∧ e.1 ≠ [] then e.1.getLast? else none)
    | _ => none

theorem ne_nil_of_opendir {fs : FileSystem} {path : CString} {names : List Name}
    (h : fs.opendir path = some names) : names ≠ [] := by
  unfold opendir at h
  split at h
  · exact absurd h (by simp)
  · split at h
    · exact Option.some.inj h ▸ List.cons_ne_nil _ _
    · exact absurd h (by simp)

end FileSystem

/-- The parts of the operating system that are left open. -/
structure Os where
  /-- What a command given to `system` does. -/
  system : CString → FileSystem → FileSystem
  /-- The order in which `readdir` gives the names of a directory. -/
  readdirOrder : List CString → List CString
  /-- It gives every name as often as it is there. -/
  perm_readdirOrder : ∀ names, (readdirOrder names).Perm names

/-! ### The functions of `fs.c` -/

/-- `set_path`: the name behind the working directory, if one is set. -/
def setPath (workDir : Option CString) (fileName : CString) : CString :=
  match workDir with
  | none => fileName
  | some dir => (dir.append (lit "/")).append fileName

/-- `file_exists`. -/
def fileExists (fs : FileSystem) (file : CString) : Bool := (fs.fopenRead file).isSome

/-- `fs_create_file`: whether the file could be opened, and the file system afterwards. -/
def fsCreateFile (workDir : Option CString) (file : CString) (fs : FileSystem) :
    Bool × FileSystem :=
  match fs.fopenWrite (setPath workDir file) with
  | none => (false, fs)
  | some (_, fs') => (true, fs')

/-- `fs_delete_file`. -/
def fsDeleteFile (os : Os) (workDir : Option CString) (file : CString) (fs : FileSystem) :
    FileSystem :=
  let path := setPath workDir file
  if fileExists fs path then os.system ((lit "rm ").append path) fs else fs

/-- `fs_write_file`: its result and the file system afterwards. The length that it is given is not
looked at. -/
def fsWriteFile (workDir : Option CString) (file buffer : CString) (isappend : Bool)
    (fs : FileSystem) : ℤ × FileSystem :=
  let path := setPath workDir file
  if isappend && !fileExists fs path then (-1, fs)
  else
    let fs := if fileExists fs path then fs else (fsCreateFile workDir file fs).2
    match if isappend then fs.fopenAppend path else fs.fopenWrite path with
    | none => (-1, fs)
    | some (p, fs) => fs.fprintf p buffer

/-- The block that `fs_read_file` returns: the bytes stored, and the size last allocated. -/
structure ReadBuffer where
  /-- The bytes stored, from the start of the block on. -/
  bytes : List UInt8
  /-- The size of the block. -/
  allocated : ℕ
  deriving DecidableEq

/-- One iteration of the loop of `fs_read_file`: the block is resized when the character read is a
multiple of the read size, and the character stored. -/
def readStep (b : ReadBuffer) (c : UInt8) : ReadBuffer where
  bytes := b.bytes ++ [c]
  allocated := if c.toNat % 100 = 0 then 100 + b.bytes.length else b.allocated

/-- `fs_read_file`. All that is read is kept; whether it has room in the block is the question of
`PekarDrive.ContentFits`. -/
def fsReadFile (workDir : Option CString) (file : CString) (fs : FileSystem) : Option ReadBuffer :=
  match fs.fopenRead (setPath workDir file) with
  | none => none
  | some content => some (content.foldl readStep ⟨[], 100⟩)

end PekarDrive
