import PekarDrive.Foundation.Lines
import PekarDrive.Worker.Server
import PekarDrive.WorkerAdmin.Requests

/-!
# What `worker_ls` returns

`worker_ls` asks the workers in the order of the table and appends each answer to its result,
behind a newline; a worker that does not answer is left out. So the lines of the result are those
of the answers, behind what lay in the fresh block of the result. An answer is the text that
`file_list_to_str` makes of the names in the directory of the worker, and its lines are the names.

## Main definitions

* `PekarDrive.lines`: the lines of a text.
* `PekarDrive.listed`: the lines that `worker_ls` adds to its fresh block.

## Main results

* `PekarDrive.listed_eq`: they are the lines of the answers.
* `PekarDrive.lines_fileListToStr`: the lines of an answer are names.
-/

namespace PekarDrive

open CText LockedThreads

/-- The lines of a text. -/
def lines (s : CString) : List (List UInt8) := s.bytes.splitOn 10

theorem lines_append (s ls : CString) :
    lines ((s.append (lit "\n")).append ls) = lines s ++ lines ls := by
  have hnewline : (lit "\n").bytes = [10] := by decide
  rw [lines, CString.bytes_append, CString.bytes_append, hnewline, List.append_assoc,
    List.singleton_append, splitOn_append_cons]
  rfl

/-! ### The lines of a listing -/

/-- The lines are the names, when none has a newline and the fresh block starts with a
terminator. -/
theorem lines_fileListToStr {names : List CString} (hne : names ≠ [])
    (hnames : ∀ name ∈ names, 10 ∉ name.bytes) (behind : List UInt8) :
    lines (fileListToStr names (0 :: behind)) = names.map CString.bytes := by
  have hblock : (CString.ofMemory (0 :: behind)).bytes = [] := rfl
  rw [lines, fileListToStr, if_neg (by simpa using hne), bytes_fileListLoop, hblock,
    List.nil_append]
  exact List.splitOn_intercalate 10 (by simpa using hnames) (by simpa using hne)

/-! ### The result -/

/-- The lines of an answer. -/
def answerLines : Option CString → List (List UInt8)
  | none => []
  | some ls => lines ls

theorem lines_joinLs (result : CString) (answers : List (Option CString)) :
    lines (joinLs result answers) = lines result ++ answers.flatMap answerLines := by
  induction answers generalizing result with
  | nil => simp [joinLs]
  | cons answer answers ih =>
    rw [joinLs, List.foldl_cons]
    change lines (joinLs _ answers) = _
    rw [ih, List.flatMap_cons, ← List.append_assoc]
    cases answer with
    | none => rw [answerLines, List.append_nil]; rfl
    | some ls => rw [answerLines, appendAnswer, lines_append]

section Eval

variable (tokens : Tokens) (env : List Request → Request → Reply) (t : ServerTable)

/-- The lines that `worker_ls` adds to what lies in its fresh block. -/
def listed (freshBlock : List UInt8) : List (List UInt8) :=
  match ((workerLs tokens freshBlock).eval env [] t).2 with
  | none => []
  | some (result, _) => (lines result).drop (lines (CString.ofMemory freshBlock)).length

/-- **The lines.** -/
theorem listed_eq (freshBlock : List UInt8) : listed tokens env t freshBlock =
    (lsAnswers tokens env [] t.serverTable).flatMap answerLines := by
  rw [listed, eval_workerLs]
  simp only
  rw [lines_joinLs, List.drop_left]

end Eval

end PekarDrive
