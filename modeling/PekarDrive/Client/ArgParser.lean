import PekarDrive.Foundation.MessageCell

/-!
# The arguments of the client

`src/client/arg_parser.c`. `parse_args` looks at the operation and counts the arguments; the count,
an `int`, is passed on as an `unsigned short`. A call that rejects its arguments sets a message, and
so does one that is given too many of them.

## Main definitions

* `PekarDrive.Parsed`: what a parser does.
* `PekarDrive.parseArgs`, `PekarDrive.parseOperation`, `PekarDrive.parseArguments`.
* `PekarDrive.parseAll`: calls one after the other, with the static variable `parse_error_msg`.
* `PekarDrive.neededArguments`: how many arguments the operations need.

## Main results

* `PekarDrive.accepted_parseArgs_iff`.
* `PekarDrive.errorMsg_after`.
-/

namespace PekarDrive

open CMemory CText

/-! ### The parsers -/

/-- What a parser does: what it returns, and the message that it sets, if it sets one. -/
structure Parsed where
  /-- The arguments are accepted. -/
  accepted : Bool
  /-- The message. -/
  message : Option CString
  deriving DecidableEq

/-- The parser of an operation that needs arguments, from the count that it needs. -/
def parseArguments (needed : UInt16) (missing excess : CString) (argCount : UInt16) : Parsed :=
  if argCount < needed then ⟨false, some missing⟩
  else if argCount > needed then ⟨true, some excess⟩
  else ⟨true, none⟩

/-- `parse_ls`. -/
def parseLs (argCount : UInt16) : Parsed :=
  ⟨true, if argCount > 2 then some (lit "No arguments to 'ls'needed.") else none⟩

/-- `parse_read`. -/
def parseRead : UInt16 → Parsed :=
  parseArguments 3 (lit "Missing file name to read from.")
    (lit "'read' requires only one argument.")

/-- `parse_write`. -/
def parseWrite : UInt16 → Parsed :=
  parseArguments 4 (lit "'write' requires file name and data to write.")
    (lit "'write' requires only two arguments.")

/-- `parse_append`, with the message of `parse_write` for too many arguments. -/
def parseAppend : UInt16 → Parsed :=
  parseArguments 4 (lit "'append' requires file name and data to write.")
    (lit "'write' requires only two arguments.")

/-- `parse_delete`. -/
def parseDelete : UInt16 → Parsed :=
  parseArguments 3 (lit "Missing file name to delete.")
    (lit "'delete' requires only one argument.")

/-- `parse_set_ip`. -/
def parseSetIp : UInt16 → Parsed :=
  parseArguments 3 (lit "Missing IP address.") (lit "'set-ip' requires only one argument.")

/-- `parse_set_port`. -/
def parseSetPort : UInt16 → Parsed :=
  parseArguments 3 (lit "Missing port number.") (lit "'set-port' requires only one argument.")

/-- `parse_operation`. -/
def parseOperation (op : CString) (argCount : UInt16) : Parsed :=
  if op = lit "ls" then parseLs argCount
  else if op = lit "read" then parseRead argCount
  else if op = lit "write" then parseWrite argCount
  else if op = lit "append" then parseAppend argCount
  else if op = lit "delete" then parseDelete argCount
  else if op = lit "set-ip" then parseSetIp argCount
  else if op = lit "set-port" then parseSetPort argCount
  else ⟨false, some (lit "Unrecognized operation.")⟩

/-- `parse_args`, with `argc` arguments in `argv`: with fewer than two there is no operation. -/
def parseArgs (argv : List CString) : Parsed :=
  match argv[1]? with
  | none => ⟨false, some (lit "Not enough arguments.")⟩
  | some op => parseOperation op (UInt16.ofNat argv.length)

/-- Calls of `parse_args` one after the other: their results, and `parse_error_msg` afterwards. -/
def parseAll : List (List CString) → MessageCell → Option (List Bool × MessageCell)
  | [], cell => some ([], cell)
  | argv :: argvs, cell =>
    match cell.report (parseArgs argv).message with
    | none => none
    | some cell => (parseAll argvs cell).map fun r => ((parseArgs argv).accepted :: r.1, r.2)

/-- `error_msg`: the string at the pointer. -/
def errorMsg (cell : MessageCell) : Option CString := cell.message

/-! ### The arguments that are accepted -/

/-- The operations, with the least number of arguments, the name of the program and the operation
included. -/
def neededArguments : List (CString × UInt16) :=
  [(lit "ls", 0), (lit "read", 3), (lit "write", 4), (lit "append", 4), (lit "delete", 3),
    (lit "set-ip", 3), (lit "set-port", 3)]

theorem accepted_parseArguments_iff {needed argCount : UInt16} {missing excess : CString} :
    (parseArguments needed missing excess argCount).accepted = true ↔ needed ≤ argCount := by
  unfold parseArguments
  split_ifs with hfew hmany
  · exact iff_of_false (by simp) (UInt16.not_le.mpr hfew)
  · exact iff_of_true rfl (UInt16.le_of_lt hmany)
  · exact iff_of_true rfl (UInt16.not_lt.mp hfew)

/-- A rejected call sets a message. -/
theorem message_parseArguments {needed argCount : UInt16} {missing excess : CString}
    (h : (parseArguments needed missing excess argCount).accepted = false) :
    (parseArguments needed missing excess argCount).message = some missing := by
  unfold parseArguments at h ⊢
  split_ifs at h ⊢
  rfl

theorem lookup_neededArguments {op : CString}
    (hls : op ≠ lit "ls") (hread : op ≠ lit "read") (hwrite : op ≠ lit "write")
    (happend : op ≠ lit "append") (hdelete : op ≠ lit "delete") (hip : op ≠ lit "set-ip")
    (hport : op ≠ lit "set-port") : neededArguments.lookup op = none := by
  rw [List.lookup_eq_none_iff]
  simp [neededArguments, hls, hread, hwrite, happend, hdelete, hip, hport]

/-- The parser of a known operation compares its count; another operation is rejected. -/
theorem accepted_parseOperation_iff {op : CString} {argCount : UInt16} :
    (parseOperation op argCount).accepted = true ↔
      ∃ needed ∈ neededArguments.lookup op, needed ≤ argCount := by
  have hknown : ∀ (needed : UInt16) {parsed : Parsed}, neededArguments.lookup op = some needed →
      (parsed.accepted = true ↔ needed ≤ argCount) →
      (parsed.accepted = true ↔ ∃ needed ∈ neededArguments.lookup op, needed ≤ argCount) := by
    intro needed parsed hlookup hparsed
    simp [hlookup, hparsed]
  unfold parseOperation
  split_ifs with hls hread hwrite happend hdelete hip hport
  · exact hknown 0 (hls ▸ rfl) (iff_of_true rfl UInt16.zero_le)
  · exact hknown 3 (hread ▸ rfl) accepted_parseArguments_iff
  · exact hknown 4 (hwrite ▸ rfl) accepted_parseArguments_iff
  · exact hknown 4 (happend ▸ rfl) accepted_parseArguments_iff
  · exact hknown 3 (hdelete ▸ rfl) accepted_parseArguments_iff
  · exact hknown 3 (hip ▸ rfl) accepted_parseArguments_iff
  · exact hknown 3 (hport ▸ rfl) accepted_parseArguments_iff
  · simp [lookup_neededArguments hls hread hwrite happend hdelete hip hport]

/-- **Accepted arguments.** An operation that is known, and the low 16 bits of the count reach what
it needs. -/
theorem accepted_parseArgs_iff {argv : List CString} : (parseArgs argv).accepted = true ↔
    ∃ op ∈ argv[1]?, ∃ needed ∈ neededArguments.lookup op,
      needed.toNat ≤ argv.length % 2 ^ 16 := by
  rw [parseArgs]
  cases argv[1]? with
  | none => simp
  | some op =>
    simp only [accepted_parseOperation_iff, Option.mem_some_iff, exists_eq_left',
      UInt16.le_iff_toNat_le, UInt16.toNat_ofNat']

/-- What is rejected has a message. -/
theorem isSome_message_of_rejected {argv : List CString}
    (h : (parseArgs argv).accepted = false) : (parseArgs argv).message.isSome := by
  have hsome : ∀ {needed argCount : UInt16} {missing excess : CString},
      (parseArguments needed missing excess argCount).accepted = false →
      (parseArguments needed missing excess argCount).message.isSome := fun h =>
    Option.isSome_of_eq_some (message_parseArguments h)
  rw [parseArgs] at h ⊢
  cases hop : argv[1]? with
  | none => rfl
  | some op =>
    rw [hop] at h
    simp only [parseOperation] at h ⊢
    split_ifs at h ⊢
    · exact absurd h (by simp [parseLs])
    · exact hsome h
    · exact hsome h
    · exact hsome h
    · exact hsome h
    · exact hsome h
    · exact hsome h
    · rfl

/-! ### Sequences of calls -/

theorem parseAll_eq_reportAll (argvs : List (List CString)) (cell : MessageCell) :
    parseAll argvs cell = (MessageCell.reportAll (argvs.map fun a => (parseArgs a).message)
      cell).map fun cell' => (argvs.map fun a => (parseArgs a).accepted, cell') := by
  induction argvs generalizing cell with
  | nil => rfl
  | cons argv argvs ih =>
    simp only [parseAll, List.map_cons, MessageCell.reportAll_cons]
    cases cell.report (parseArgs argv).message with
    | none => rfl
    | some cell₁ =>
      simp only [ih, Option.map_map, Option.bind_some]
      rfl

/-- **Sequences of calls.** Whatever the arguments, no call frees a block that it has freed before,
`error_msg` returns the last message that was set, `NULL` as long as none was, and no block but the
one of this message is left. When the last call rejects its arguments, its message is returned. -/
theorem errorMsg_after (argvs : List (List CString)) : ∃ cell,
    parseAll argvs .empty = some (argvs.map fun a => (parseArgs a).accepted, cell) ∧
    errorMsg cell = (argvs.map fun a => (parseArgs a).message).reduceOption.getLast? ∧
    (∀ p, cell.heap.Live p ↔ cell.pointer = some p) ∧
    ∀ argv ∈ argvs.getLast?, (parseArgs argv).accepted = false →
      errorMsg cell = (parseArgs argv).message ∧ (parseArgs argv).message.isSome := by
  obtain ⟨cell, hall, hholds⟩ :=
    MessageCell.holds_empty.reportAll (argvs.map fun a => (parseArgs a).message)
  rw [Option.or_none] at hholds
  refine ⟨cell, ?_, hholds.message_eq, hholds.live_iff, fun argv hargv hrejected => ?_⟩
  · rw [parseAll_eq_reportAll, hall, Option.map_some]
  · have hsome := isSome_message_of_rejected hrejected
    obtain ⟨msg, hmsg⟩ := Option.isSome_iff_exists.mp hsome
    obtain ⟨before, rfl⟩ := List.getLast?_eq_some_iff.mp hargv
    refine ⟨hholds.message_eq.trans ?_, hsome⟩
    rw [List.map_append, List.reduceOption_append, List.map_singleton, hmsg]
    simp

end PekarDrive
