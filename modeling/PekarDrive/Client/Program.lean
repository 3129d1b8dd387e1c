import PekarDrive.Client.ArgParser
import PekarDrive.Client.Settings
import PekarDrive.Foundation.Contracts
import PekarDrive.Packet.RoundTrip
import PekarDrive.System.ReadAll

/-!
# The client program

`src/client/client.c`. `main` parses its arguments, asks for the address of the master unless it is
to be set, and hands the operation with its arguments to `operation_handler`, `NULL` for those that
are missing. The functions `exec_*` read the address from the config file, once more, contact the
master, read its response with `read_all` and print what they make of it.

Handing `NULL` to a function of `string.h` or `stdlib.h` is a fault, and so is a store outside a
block: of the first line of the config file, of the packet by `p_encode`, and of the response.

## Main definitions

* `PekarDrive.Command`: what `operation_handler` executes.
* `PekarDrive.operationHandler`, `PekarDrive.clientMain`.
* `PekarDrive.Surroundings`: what a run of the program finds.
* `PekarDrive.Command.perform`, `PekarDrive.Command.screen`: the functions `exec_ls`, `exec_read`,
  `exec_write_append`, `exec_delete`, `exec_set_ip` and `exec_set_port`.
* `PekarDrive.Typed`: the arguments that a command is typed with.
* `PekarDrive.sessionContract`: where the commands of a session are to go.

## Main results

* `PekarDrive.clientMain_returns_iff`: when `main` returns, and what it comes to.
* `PekarDrive.clientSessions`: every session goes to the address that was set last.
-/

namespace PekarDrive

open CMemory CText StepRuns

/-! ### Commands -/

/-- A command that `operation_handler` executes. -/
inductive Command
  /-- `exec_ls`. -/
  | ls
  /-- `exec_read`. -/
  | read (file : CString)
  /-- `exec_write_append`. -/
  | write (file data : CString) (isappend : Bool)
  /-- `exec_delete`. -/
  | delete (file : CString)
  /-- `exec_set_ip`. -/
  | setIp (ip : Option CString)
  /-- `exec_set_port`. -/
  | setPort (port : UInt16)
  deriving DecidableEq

/-- What a command sends to the master. -/
def Command.outgoing : Command → Option Outgoing
  | ls => some Interface.ls
  | read file => some (Interface.fileRead file)
  | write file data isappend => some (Interface.fileWrite file data isappend)
  | delete file => some (Interface.fileDelete file)
  | setIp _ => none
  | setPort _ => none

/-- `operation_handler`: the command, if the operation is one, or a fault. -/
def operationHandler (op : CString) (arg1 arg2 : Option CString) : Option (Option Command) :=
  if op = lit "ls" then some (some .ls)
  else if op = lit "read" then arg1.map fun file => some (.read file)
  else if op = lit "write" ∨ op = lit "append" then
    arg1.bind fun file => arg2.map fun data => some (.write file data (op = lit "append"))
  else if op = lit "delete" then arg1.map fun file => some (.delete file)
  else if op = lit "set-ip" then some (some (.setIp arg1))
  else if op = lit "set-port" then arg1.map fun port => some (.setPort (UInt16.ofInt (atoi port)))
  else some none

/-! ### What a run finds -/

/-- A connection to the master, and what is sent over it. -/
structure Contact where
  /-- The host, as `get_master_host` returns it. -/
  host : Option CString
  /-- The port. -/
  port : UInt16
  /-- The packet and its length. -/
  out : Outgoing
  deriving DecidableEq

/-- The fresh memory that a run of the program finds. -/
structure ProcessMemory where
  /-- In the call of `get_master_host` in `main`. -/
  main : CallMemory
  /-- In the call of `get_master_host` for a command. -/
  host : CallMemory
  /-- In the call of `get_master_port` for a command. -/
  port : CallMemory
  /-- In the blocks of `read_all`. -/
  response : ℕ → Mem
  /-- Behind the block that `read_all` returns. -/
  behind : List UInt8

/-- The results of the reads of a response. -/
structure ResponseReads where
  /-- The results. -/
  pieces : List (List UInt8)
  /-- A read delivers at most what was asked for. -/
  length_le : ∀ p ∈ pieces, p.length ≤ 1000

/-- What a run of the program finds. -/
structure Surroundings where
  /-- The config file can be opened for writing. -/
  writable : Bool
  /-- The fresh memory. -/
  memory : ProcessMemory
  /-- What is read from a connection, if it is made. -/
  reads : Contact → Option ResponseReads

/-- Every response is shorter than the sizes of 32 bits that `read_all` passes to `realloc`. -/
def Surroundings.Bounded (s : Surroundings) : Prop :=
  ∀ contact, ∀ reads ∈ s.reads contact, (fullReads reads.pieces).length < maxBlocks

namespace Command

/-- Executing a command: the connection that is asked for, if any, and the config file
afterwards. -/
def perform (writable : Bool) (memory : ProcessMemory) (config : Option (List UInt8)) :
    Command → Option (Option Contact × Option (List UInt8))
  | setIp ip => (getMasterPort memory.port config).map fun port =>
      (none, setMasterAddress writable ip port config)
  | setPort port => (setMasterPort writable memory.host port config).map fun config' =>
      (none, config')
  | command => (getMasterHost memory.host config).bind fun host =>
      (getMasterPort memory.port config).map fun port =>
        (command.outgoing.map fun out => ⟨host, port, out⟩, config)

/-- What is printed, from the memory at the block of `read_all`; `none` when the connection was not
made. -/
def printed (block : Option (List UInt8)) : Command → List UInt8
  | write _ _ _ => ascii "Wrote " ++
      decimalInt (((block.map Interface.written).getD (2 ^ 64 - 1)).bmod (2 ^ 32)) ++
        ascii " bytes\n"
  | delete _ => ascii "File was " ++
      (if (block.map Interface.deleted).getD 0 ≠ 0 then ascii "deleted" else ascii "not deleted") ++
        ascii ".\n"
  | ls => (block.map fun m => (CString.ofMemory m).bytes ++ [10]).getD []
  | read _ => (block.map fun m => (CString.ofMemory m).bytes ++ [10]).getD []
  | _ => []

variable (s : Surroundings)

/-- What a command prints in the end, when it has asked for a connection or for none. -/
def screen (command : Command) : Option Contact → Option (List UInt8)
  | none => some (command.printed none)
  | some contact =>
    match s.reads contact with
    | none => some (command.printed none)
    | some reads =>
      if contact.out.packet.WellFormed then
        (readAll s.memory.response reads.pieces).map fun block =>
          command.printed (some (block ++ s.memory.behind))
      else none

end Command

/-! ### The program -/

/-- What `main` comes to. -/
inductive MainResult
  /-- The arguments are rejected; the message of `parse_args` is logged. -/
  | rejected (msg : Option CString)
  /-- The address of the master is not set, which is logged. -/
  | noMaster
  /-- `operation_handler` returns. -/
  | handled (command : Option Command)
  deriving DecidableEq

/-- A run of the program that has returned. -/
structure ClientRun where
  /-- What `main` comes to. -/
  result : MainResult
  /-- The connection that was asked for. -/
  contact : Option Contact
  /-- What the command has printed. -/
  screen : List UInt8
  /-- The config file afterwards. -/
  config : Option (List UInt8)
  deriving DecidableEq

/-- Executing a command. -/
def Command.execute (s : Surroundings) (config : Option (List UInt8)) (command : Command) :
    Option ClientRun :=
  (command.perform s.writable s.memory config).bind fun r =>
    (command.screen s r.1).map fun text => ⟨.handled (some command), r.1, text, r.2⟩

/-- The operations that set the address of the master. -/
def setsAddress (op : CString) : Bool := op = lit "set-ip" || op = lit "set-port"

/-- `main`, with the contents of the config file. -/
def clientMain (s : Surroundings) (argv : List CString) (config : Option (List UInt8)) :
    Option ClientRun :=
  if (parseArgs argv).accepted = false then
    some ⟨.rejected (parseArgs argv).message, none, [], config⟩
  else
    argv[1]?.bind fun op =>
      let handled := (operationHandler op argv[2]? argv[3]?).bind fun command =>
        command.elim (some ⟨.handled none, none, [], config⟩) (Command.execute s config)
      if setsAddress op then handled
      else
        (getMasterHost s.memory.main config).bind fun host =>
          if host = none then some ⟨.noMaster, none, [], config⟩ else handled

/-! ### The arguments of a command -/

/-- The arguments, behind the name of the program, that are the command; more may follow. -/
def Typed : List CString → Command → Prop
  | _ :: op :: _, .ls => op = lit "ls"
  | _ :: op :: file :: _, .read file' => op = lit "read" ∧ file' = file
  | _ :: op :: file :: data :: _, .write file' data' isappend =>
    op = (if isappend then lit "append" else lit "write") ∧ file' = file ∧ data' = data
  | _ :: op :: file :: _, .delete file' => op = lit "delete" ∧ file' = file
  | _ :: op :: ip :: _, .setIp ip' => op = lit "set-ip" ∧ ip' = some ip
  | _ :: op :: port :: _, .setPort port' =>
    op = lit "set-port" ∧ port' = UInt16.ofInt (atoi port)
  | _, _ => False

theorem mem_of_lookup_neededArguments {op : CString} {needed : UInt16}
    (h : neededArguments.lookup op = some needed) : (op, needed) ∈ neededArguments := by
  obtain ⟨before, behind, heq, -⟩ := List.lookup_eq_some_iff.mp h
  rw [heq]
  exact List.mem_append_right _ List.mem_cons_self

/-- With the arguments that the parser asks for, `operation_handler` executes what was typed. -/
theorem exists_operationHandler {argv : List CString} (h : (parseArgs argv).accepted = true) :
    ∃ op command, argv[1]? = some op ∧
      operationHandler op argv[2]? argv[3]? = some (some command) ∧ Typed argv command := by
  obtain ⟨op, hop, needed, hneeded, hle⟩ := accepted_parseArgs_iff.mp h
  have hlen : needed.toNat ≤ argv.length := hle.trans (Nat.mod_le _ _)
  have hmem := mem_of_lookup_neededArguments hneeded
  simp only [neededArguments, List.mem_cons, Prod.mk.injEq, List.not_mem_nil, or_false] at hmem
  rcases argv with _ | ⟨prog, _ | ⟨op', args⟩⟩
  · exact absurd hop (by simp)
  · exact absurd hop (by simp)
  obtain rfl : op' = op := by simpa using hop
  rcases hmem with ⟨rfl, rfl⟩ | ⟨rfl, rfl⟩ | ⟨rfl, rfl⟩ | ⟨rfl, rfl⟩ | ⟨rfl, rfl⟩ | ⟨rfl, rfl⟩ |
    ⟨rfl, rfl⟩
  · exact ⟨_, .ls, rfl, rfl, rfl⟩
  all_goals
    rcases args with _ | ⟨arg1, args⟩
    · exact absurd hlen (by simp)
  · exact ⟨_, .read arg1, rfl, rfl, rfl, rfl⟩
  · rcases args with _ | ⟨arg2, args⟩
    · exact absurd hlen (by simp)
    · exact ⟨_, .write arg1 arg2 false, rfl, rfl, rfl, rfl, rfl⟩
  · rcases args with _ | ⟨arg2, args⟩
    · exact absurd hlen (by simp)
    · exact ⟨_, .write arg1 arg2 true, rfl, rfl, rfl, rfl, rfl⟩
  · exact ⟨_, .delete arg1, rfl, rfl, rfl, rfl⟩
  · exact ⟨_, .setIp (some arg1), rfl, rfl, rfl, rfl⟩
  · exact ⟨_, .setPort (UInt16.ofInt (atoi arg1)), rfl, rfl, rfl, rfl⟩

/-- The commands of the operations that set the address send nothing. -/
theorem setsAddress_iff {op : CString} {arg1 arg2 : Option CString} {command : Command}
    (h : operationHandler op arg1 arg2 = some (some command)) :
    setsAddress op = true ↔ command.outgoing = none := by
  unfold operationHandler at h
  split_ifs at h with hls hread hwrite hdelete hip hport
  · obtain rfl := Option.some.inj (Option.some.inj h)
    subst hls
    exact iff_of_false (by decide) (by simp [Command.outgoing])
  · obtain ⟨file, -, hfile⟩ := Option.map_eq_some_iff.mp h
    obtain rfl := Option.some.inj hfile
    subst hread
    exact iff_of_false (by decide) (by simp [Command.outgoing])
  · obtain ⟨file, -, hfile⟩ := Option.bind_eq_some_iff.mp h
    obtain ⟨data, -, hdata⟩ := Option.map_eq_some_iff.mp hfile
    obtain rfl := Option.some.inj hdata
    rcases hwrite with rfl | rfl
    · exact iff_of_false (by decide) (by simp [Command.outgoing])
    · exact iff_of_false (by decide) (by simp [Command.outgoing])
  · obtain ⟨file, -, hfile⟩ := Option.map_eq_some_iff.mp h
    obtain rfl := Option.some.inj hfile
    subst hdelete
    exact iff_of_false (by decide) (by simp [Command.outgoing])
  · obtain rfl := Option.some.inj (Option.some.inj h)
    subst hip
    exact iff_of_true (by decide) rfl
  · obtain ⟨port, -, hfile⟩ := Option.map_eq_some_iff.mp h
    obtain rfl := Option.some.inj hfile
    subst hport
    exact iff_of_true (by decide) rfl
  · exact absurd (Option.some.inj h) (by simp)

/-- The command that is executed for some arguments, if they are accepted. -/
def typedCommand (argv : List CString) : Option Command :=
  if (parseArgs argv).accepted = true then
    argv[1]?.bind fun op => (operationHandler op argv[2]? argv[3]?).join
  else none

section Main

variable {s : Surroundings} {argv : List CString} {config : Option (List UInt8)}

/-- What `main` does with accepted arguments. -/
theorem exists_typedCommand (h : (parseArgs argv).accepted = true) : ∃ command,
    typedCommand argv = some command ∧ Typed argv command ∧
    ∀ s config, clientMain s argv config =
      if command.outgoing = none then command.execute s config
      else (getMasterHost s.memory.main config).bind fun host =>
        if host = none then some ⟨.noMaster, none, [], config⟩ else command.execute s config := by
  obtain ⟨op, command, hop, hhandler, htyped⟩ := exists_operationHandler h
  have hsets := setsAddress_iff hhandler
  refine ⟨command, ?_, htyped, fun s config => ?_⟩
  · rw [typedCommand, if_pos h, hop, Option.bind_some, hhandler]
    rfl
  · rw [clientMain, if_neg (by simp [h]), hop, Option.bind_some]
    simp only [hhandler, hsets, Option.bind_some, Option.elim_some]

theorem typedCommand_of_rejected (h : (parseArgs argv).accepted = false) :
    typedCommand argv = none := if_neg (by simp [h])

end Main

/-! ### What fits -/

/-- What a command takes for the address in the first line of the config file. -/
def Command.isAddress : Command → UInt8 → Bool
  | .setPort _ => isHostByte
  | _ => isAddressByte

/-- The address has room in a block of 16 bytes. -/
def Command.ConfigFits (config : Option (List UInt8)) (command : Command) : Prop :=
  ∀ content ∈ config, (content.takeWhile command.isAddress).length < 16

instance (config : Option (List UInt8)) (command : Command) :
    Decidable (command.ConfigFits config) :=
  inferInstanceAs (Decidable (∀ content ∈ config, _))

/-- A command is typed with arguments that have less than 128 KiB, as the kernel hands them on. -/
def ArgumentsFit (argv : List CString) : Prop := ∀ arg ∈ argv, arg.strlen < 2 ^ 17

instance (argv : List CString) : Decidable (ArgumentsFit argv) :=
  inferInstanceAs (Decidable (∀ arg ∈ argv, _))

section Fits

variable {s : Surroundings} {argv : List CString} {config config' : Option (List UInt8)}
  {command : Command} {contact : Option Contact} {writable : Bool} {memory : ProcessMemory}

/-- A host is no longer than an address. -/
theorem length_takeWhile_isHostByte_le (content : List UInt8) :
    (content.takeWhile isHostByte).length ≤ (content.takeWhile isAddressByte).length := by
  induction content with
  | nil => exact le_rfl
  | cons b bs ih =>
    by_cases hb : isHostByte b = true
    · rw [List.takeWhile_cons_of_pos hb,
        List.takeWhile_cons_of_pos (isAddressByte_of_isHostByte hb)]
      exact Nat.succ_le_succ ih
    · rw [List.takeWhile_cons_of_neg hb]
      exact Nat.zero_le _

namespace Command

/-- Then the host has room. -/
theorem ConfigFits.isSome_getMasterHost (h : command.ConfigFits config) (memory : CallMemory) :
    (getMasterHost memory config).isSome := by
  have hle : ∀ content : List UInt8, (content.takeWhile isHostByte).length ≤
      (content.takeWhile command.isAddress).length := by
    intro content
    cases command with
    | setPort port => exact le_rfl
    | _ => exact length_takeWhile_isHostByte_le content
  exact isSome_getMasterHost_iff.mpr fun content hcontent =>
    (hle content).trans_lt (h content hcontent)

/-- A command gets over the config file if the address there has room. -/
theorem isSome_perform_iff :
    (command.perform writable memory config).isSome ↔ command.ConfigFits config := by
  have hboth : ∀ f : Option CString → UInt16 → Option Contact × Option (List UInt8),
      ((getMasterHost memory.host config).bind fun host =>
        (getMasterPort memory.port config).map (f host)).isSome ↔
          ∀ content ∈ config, (content.takeWhile isAddressByte).length < 16 := by
    intro f
    rw [← @isSome_getMasterPort_iff memory.port]
    constructor
    · intro h
      obtain ⟨r, hr⟩ := Option.isSome_iff_exists.mp h
      obtain ⟨host, -, hport⟩ := Option.bind_eq_some_iff.mp hr
      rw [← Option.isSome_map, hport]
      rfl
    · intro h
      have hfits : Command.ls.ConfigFits config := isSome_getMasterPort_iff.mp h
      have hhost := hfits.isSome_getMasterHost memory.host
      obtain ⟨host, hhost⟩ := Option.isSome_iff_exists.mp hhost
      rw [hhost, Option.bind_some, Option.isSome_map, h]
  cases command with
  | setIp ip => rw [perform, Option.isSome_map, isSome_getMasterPort_iff]; rfl
  | setPort port =>
    rw [perform, Option.isSome_map, setMasterPort, Option.isSome_map, isSome_getMasterHost_iff]
    rfl
  | _ => exact hboth _

/-- The connection that is asked for is for the packet of the command. -/
theorem contact_of_perform (h : command.perform writable memory config = some (contact, config')) :
    contact.map Contact.out = command.outgoing := by
  cases command with
  | setIp ip =>
    obtain ⟨port, -, hr⟩ := Option.map_eq_some_iff.mp h
    rw [← (Prod.mk.inj hr).1]
    rfl
  | setPort port =>
    obtain ⟨file, -, hr⟩ := Option.map_eq_some_iff.mp h
    rw [← (Prod.mk.inj hr).1]
    rfl
  | _ =>
    obtain ⟨host, -, hbind⟩ := Option.bind_eq_some_iff.mp h
    obtain ⟨port, -, hr⟩ := Option.map_eq_some_iff.mp hbind
    rw [← (Prod.mk.inj hr).1]
    rfl

/-- The packet of a command that was typed announces its argument. -/
theorem wellFormed_of_typed (h : Typed argv command) (hargs : ArgumentsFit argv) {out : Outgoing}
    (hout : command.outgoing = some out) : out.packet.WellFormed := by
  rcases argv with _ | ⟨prog, _ | ⟨op, args⟩⟩
  · exact h.elim
  · exact h.elim
  have hargs' : ∀ arg ∈ args, arg.strlen < 2 ^ 17 := fun arg harg =>
    hargs arg (List.mem_cons_of_mem _ (List.mem_cons_of_mem _ harg))
  cases command with
  | ls =>
    obtain rfl := Option.some.inj hout
    exact Packet.wellFormed_of_strlen_lt rfl rfl (show 0 < _ by decide)
  | read file | delete file =>
    rcases args with _ | ⟨arg, args⟩
    · exact h.elim
    obtain ⟨-, rfl⟩ := h
    obtain rfl := Option.some.inj hout
    have hlt := hargs' file List.mem_cons_self
    exact Packet.wellFormed_of_strlen_lt rfl rfl (by omega)
  | write file data isappend =>
    rcases args with _ | ⟨arg, _ | ⟨arg', args⟩⟩
    · exact h.elim
    · exact h.elim
    obtain ⟨-, rfl, rfl⟩ := h
    obtain rfl := Option.some.inj hout
    have hlt := hargs' file List.mem_cons_self
    have hlt' := hargs' data (List.mem_cons_of_mem _ List.mem_cons_self)
    have hlen := strlen_genWriteArg file data
    exact Packet.wellFormed_of_strlen_lt rfl rfl (show (genWriteArg file data).strlen < _ by omega)
  | setIp ip => exact absurd hout (by simp [outgoing])
  | setPort port => exact absurd hout (by simp [outgoing])

/-- What a command that was typed prints. -/
theorem exists_screen (hs : s.Bounded)
    (hout : ∀ c ∈ contact, c.out.packet.WellFormed) :
    ∃ text, command.screen s contact = some text := by
  cases contact with
  | none => exact ⟨_, rfl⟩
  | some c =>
    rw [screen]
    cases hreads : s.reads c with
    | none => exact ⟨_, rfl⟩
    | some reads =>
      simp only [if_pos (hout c rfl)]
      rw [readAll_eq s.memory.response reads.length_le (hs c reads hreads)]
      exact ⟨_, rfl⟩

/-- A command that was typed returns if it gets over the config file. -/
theorem exists_execute (hs : s.Bounded) (h : Typed argv command) (hargs : ArgumentsFit argv)
    (hperform : command.perform s.writable s.memory config = some (contact, config')) :
    ∃ text, command.execute s config =
      some ⟨.handled (some command), contact, text, config'⟩ := by
  have hcontact := contact_of_perform hperform
  obtain ⟨text, htext⟩ := @exists_screen s command contact hs fun c hc =>
    wellFormed_of_typed h hargs (by rw [← hcontact, hc]; rfl)
  refine ⟨text, ?_⟩
  rw [execute, hperform, Option.bind_some, htext]
  rfl

/-- **A command that was typed.** It returns if the address in the config file has room. -/
theorem isSome_execute_iff (hs : s.Bounded) (h : Typed argv command) (hargs : ArgumentsFit argv) :
    (command.execute s config).isSome ↔ command.ConfigFits config := by
  rw [← @isSome_perform_iff config command s.writable s.memory]
  constructor
  · intro hrun
    obtain ⟨run, hrun⟩ := Option.isSome_iff_exists.mp hrun
    obtain ⟨r, hr, -⟩ := Option.bind_eq_some_iff.mp hrun
    rw [hr]
    rfl
  · intro hperform
    obtain ⟨⟨contact, config'⟩, hr⟩ := Option.isSome_iff_exists.mp hperform
    obtain ⟨text, hrun⟩ := exists_execute hs h hargs hr
    rw [hrun]
    rfl

end Command

end Fits

/-! ### What `main` comes to -/

section Returns

variable {argv : List CString} {config : Option (List UInt8)} {run : ClientRun}

/-- Arguments that are rejected have a message; a command that needs the address of the master is
not executed without a config file; everything else is executed as it was typed. -/
def ClientRun.ComesOf (argv : List CString) (config : Option (List UInt8)) (run : ClientRun) :
    Prop :=
  (parseArgs argv).accepted = false ∧
    (∃ msg, run = ⟨.rejected (some msg), none, [], config⟩) ∨
  (parseArgs argv).accepted = true ∧ ∃ command, Typed argv command ∧
    (command.outgoing.isSome ∧ config = none ∧ run = ⟨.noMaster, none, [], config⟩ ∨
      (command.outgoing = none ∨ config.isSome) ∧ run.result = .handled (some command) ∧
        run.contact.map Contact.out = command.outgoing)

theorem getMasterHost_eq_some_none_iff {memory : CallMemory} :
    getMasterHost memory config = some none ↔ config = none := by
  cases config with
  | none => exact iff_of_true rfl rfl
  | some content => simp [getMasterHost]

theorem Command.of_execute {s : Surroundings} {command : Command}
    (h : command.execute s config = some run) : run.result = .handled (some command) ∧
      run.contact.map Contact.out = command.outgoing := by
  obtain ⟨r, hr, hrun⟩ := Option.bind_eq_some_iff.mp h
  obtain ⟨text, -, rfl⟩ := Option.map_eq_some_iff.mp hrun
  exact ⟨rfl, contact_of_perform hr⟩

/-- What a run that returns comes to. -/
theorem comesOf_of_clientMain {s : Surroundings} (h : clientMain s argv config = some run) :
    run.ComesOf argv config := by
  cases haccepted : (parseArgs argv).accepted with
  | false =>
    obtain ⟨msg, hmsg⟩ := Option.isSome_iff_exists.mp (isSome_message_of_rejected haccepted)
    rw [clientMain, if_pos haccepted, hmsg] at h
    exact .inl ⟨haccepted, msg, (Option.some.inj h).symm⟩
  | true =>
    obtain ⟨command, -, htyped, hmain⟩ := exists_typedCommand haccepted
    refine .inr ⟨haccepted, command, htyped, ?_⟩
    rw [hmain] at h
    split_ifs at h with hnone
    · exact .inr ⟨.inl hnone, Command.of_execute h⟩
    · obtain ⟨host, hhost, hrun⟩ := Option.bind_eq_some_iff.mp h
      split_ifs at hrun with hmissing
      · obtain rfl := Option.some.inj hrun
        rw [hmissing] at hhost
        exact .inl ⟨Option.isSome_iff_ne_none.mpr hnone,
          getMasterHost_eq_some_none_iff.mp hhost, rfl⟩
      · have hconfig : config ≠ none := fun hconfig =>
          hmissing (Option.some.inj (hhost.symm.trans (getMasterHost_eq_some_none_iff.mpr hconfig)))
        exact .inr ⟨.inr (Option.isSome_iff_ne_none.mpr hconfig), Command.of_execute hrun⟩

/-- **The program.** `main` returns, whatever the arguments, the memory and the response, if and
only if the arguments are rejected or the address in the config file has room in the block that it
is read into. What it rejects has a message, and what it executes was typed, unless the address of
the master is needed and not set. -/
theorem clientMain_returns_iff {s : Surroundings} (hs : s.Bounded) (hargs : ArgumentsFit argv) :
    ((clientMain s argv config).isSome ↔
      ∀ command ∈ typedCommand argv, command.ConfigFits config) ∧
    ∀ run ∈ clientMain s argv config, run.ComesOf argv config := by
  refine ⟨?_, fun run hrun => comesOf_of_clientMain hrun⟩
  cases haccepted : (parseArgs argv).accepted with
  | false =>
    rw [clientMain, if_pos haccepted, typedCommand_of_rejected haccepted]
    exact iff_of_true rfl (by simp)
  | true =>
    obtain ⟨command, hcommand, htyped, hmain⟩ := exists_typedCommand haccepted
    have hexecute := @Command.isSome_execute_iff s argv config command hs htyped hargs
    rw [hmain, hcommand]
    simp only [Option.mem_def, Option.some.injEq, forall_eq']
    split_ifs with hnone
    · exact hexecute
    · constructor
      · intro hrun
        obtain ⟨run, hrun⟩ := Option.isSome_iff_exists.mp hrun
        obtain ⟨host, hhost, hrun⟩ := Option.bind_eq_some_iff.mp hrun
        split_ifs at hrun with hmissing
        · rw [hmissing] at hhost
          rw [getMasterHost_eq_some_none_iff.mp hhost]
          exact fun content hcontent => absurd hcontent (by simp)
        · exact hexecute.mp (Option.isSome_iff_exists.mpr ⟨run, hrun⟩)
      · intro hfits
        obtain ⟨host, hhost⟩ :=
          Option.isSome_iff_exists.mp (hfits.isSome_getMasterHost s.memory.main)
        rw [hhost, Option.bind_some]
        split_ifs
        · rfl
        · exact hexecute.mpr hfits

end Returns

/-! ### Sessions -/

/-- The text as a host, if it is one. -/
def HostText.ofText? (text : CString) : Option HostText :=
  if h : text.bytes.isEmpty = false ∧ text.bytes.all PekarDrive.isHostByte = true ∧
      text.strlen < 16 then
    some ⟨text, List.isEmpty_eq_false_iff.mp h.1, List.all_eq_true.mp h.2.1, h.2.2⟩
  else none

namespace Settings

/-- The settings after a command. -/
def follow (s : Settings) : Command → Settings
  | .setIp ip => { s with host := (ip.bind HostText.ofText?).or s.host }
  | .setPort port => { s with port := port }
  | _ => s

/-- Where a command goes. -/
def contact (s : Settings) (command : Command) : Option Contact :=
  s.host.bind fun host => command.outgoing.map fun out => ⟨some host.text, s.port, out⟩

/-- The host that is set is one, and the port is set after a host. -/
def Admits (s : Settings) : Command → Prop
  | .setIp ip => (ip.bind HostText.ofText?).isSome
  | .setPort _ => s.host.isSome
  | _ => True

/-- The settings after a run of the program, which can write the config file or not. -/
def afterRun (s : Settings) (writable : Bool) (argv : List CString) : Settings :=
  if writable then (typedCommand argv).elim s s.follow else s

end Settings

/-- Where the commands of a session are to go. -/
def sessionContract : Contract Settings (List CString × Bool) ClientRun where
  Pre s e := e.2 = true → ∀ command ∈ typedCommand e.1, s.Admits command
  Post s e run := run.contact = (typedCommand e.1).bind s.contact
  after s e := s.afterRun e.2 e.1

instance (s : Settings) (command : Command) : Decidable (s.Admits command) :=
  match command with
  | .setIp _ => inferInstanceAs (Decidable (_ = true))
  | .setPort _ => inferInstanceAs (Decidable (_ = true))
  | .ls => .isTrue trivial
  | .read _ => .isTrue trivial
  | .write _ _ _ => .isTrue trivial
  | .delete _ => .isTrue trivial

instance (s : Settings) (e : List CString × Bool) : Decidable (sessionContract.Pre s e) :=
  inferInstanceAs (Decidable (e.2 = true → ∀ command ∈ typedCommand e.1, _))

/-- A run of the program, with the config file before and after it. -/
def invoke (run : List CString × Surroundings) (config : Option (List UInt8)) :
    Option (ClientRun × Option (List UInt8)) :=
  (clientMain run.2 run.1 config).map fun r => (r, r.config)

/-- The config file holds the settings; before a host is set there is none. -/
def Settings.Held (s : Settings) (config : Option (List UInt8)) : Prop :=
  s = ⟨none, 0⟩ ∧ config = none ∨ s.Recorded config

section Session

variable {s : Settings} {config : Option (List UInt8)} {argv : List CString}
  (memory : ProcessMemory) {command : Command}

theorem Settings.Held.getMasterHost_eq (h : s.Held config) (memory : CallMemory) :
    getMasterHost memory config = some (s.host.map HostText.text) := by
  rcases h with ⟨rfl, rfl⟩ | h
  · rfl
  · exact h.getMasterHost_eq memory

theorem Settings.Held.getMasterPort_eq (h : s.Held config) (memory : CallMemory) :
    getMasterPort memory config = some s.port := by
  rcases h with ⟨rfl, rfl⟩ | h
  · rfl
  · exact h.getMasterPort_eq memory

theorem HostText.text_of_ofText? {text : CString} {host : HostText}
    (h : HostText.ofText? text = some host) : host.text = text := by
  unfold HostText.ofText? at h
  split_ifs at h
  rw [← Option.some.inj h]

/-- A command that sets the address is recorded, if it can be. -/
theorem Settings.Held.perform_of_none (h : s.Held config) {writable : Bool}
    (hadmits : writable = true → s.Admits command) (hnone : command.outgoing = none) :
    ∃ config', command.perform writable memory config = some (none, config') ∧
      (if writable then s.follow command else s).Held config' := by
  cases command with
  | setIp ip =>
    rw [Command.perform, h.getMasterPort_eq memory.port, Option.map_some]
    refine ⟨_, rfl, ?_⟩
    cases writable with
    | false => exact h
    | true =>
      obtain ⟨host, hhost⟩ := Option.isSome_iff_exists.mp (hadmits rfl)
      obtain ⟨text, rfl, htext⟩ := Option.bind_eq_some_iff.mp hhost
      rw [if_pos rfl, Settings.follow, hhost, ← HostText.text_of_ofText? htext]
      exact .inr ⟨host, rfl, rfl⟩
  | setPort port =>
    rw [Command.perform, setMasterPort, h.getMasterHost_eq memory.host, Option.map_some,
      Option.map_some]
    refine ⟨_, rfl, ?_⟩
    cases writable with
    | false => exact h
    | true =>
      rcases h with ⟨rfl, -⟩ | ⟨host, hhost, -⟩
      · exact absurd (hadmits rfl) (by simp [Settings.Admits])
      · rw [hhost]
        exact .inr ⟨host, hhost, rfl⟩
  | _ => exact absurd hnone (by simp [Command.outgoing])

/-- Another command goes where the settings say, and leaves the file. -/
theorem Settings.Held.perform_of_some (h : s.Held config) {writable : Bool} {out : Outgoing}
    (hout : command.outgoing = some out) : command.perform writable memory config =
      some (some ⟨s.host.map HostText.text, s.port, out⟩, config) := by
  have hhost := h.getMasterHost_eq memory.host
  have hport := h.getMasterPort_eq memory.port
  cases command with
  | setIp ip => exact absurd hout (by simp [Command.outgoing])
  | setPort port => exact absurd hout (by simp [Command.outgoing])
  | _ => simp only [Command.perform, hhost, hport, hout, Option.bind_some, Option.map_some]

/-- **One run of the program.** Its command goes where the settings say, if they have a host, and
the file holds what it sets. -/
theorem Settings.Held.invoke (h : s.Held config) {e : Surroundings} (he : e.Bounded)
    (hargs : ArgumentsFit argv)
    (hadmits : e.writable = true → ∀ command ∈ typedCommand argv, s.Admits command) :
    ∃ run config', PekarDrive.invoke (argv, e) config = some (run, config') ∧
      run.contact = (typedCommand argv).bind s.contact ∧
      (s.afterRun e.writable argv).Held config' := by
  cases haccepted : (parseArgs argv).accepted with
  | false =>
    rw [PekarDrive.invoke, clientMain, if_pos haccepted, Settings.afterRun,
      typedCommand_of_rejected haccepted, Option.elim_none, ite_self]
    exact ⟨_, config, rfl, rfl, h⟩
  | true =>
    obtain ⟨command, hcommand, htyped, hmain⟩ := exists_typedCommand haccepted
    rw [PekarDrive.invoke, hmain, Settings.afterRun, hcommand, Option.elim_some, Option.bind_some]
    cases hout : command.outgoing with
    | none =>
      obtain ⟨config', hperform, hheld⟩ :=
        h.perform_of_none e.memory (fun hw => hadmits hw command hcommand) hout
      obtain ⟨text, hrun⟩ := Command.exists_execute he htyped hargs hperform
      rw [if_pos rfl, hrun, Settings.contact, hout]
      exact ⟨_, config', rfl, by simp, hheld⟩
    | some out =>
      have hfollow : s.follow command = s := by
        cases command <;> first | rfl | exact absurd hout (by simp [Command.outgoing])
      rw [if_neg (by simp), h.getMasterHost_eq e.memory.main, Option.bind_some, hfollow, ite_self]
      cases hhost : s.host with
      | none => exact ⟨_, config, rfl, by simp [Settings.contact, hhost], h⟩
      | some host =>
        obtain ⟨text, hrun⟩ :=
          Command.exists_execute he htyped hargs (h.perform_of_some e.memory hout)
        rw [if_neg (by simp), hrun]
        exact ⟨_, config, rfl, by simp [Settings.contact, hhost, hout], h⟩

end Session

/-- **Sessions.** In every sequence of runs of the program from the first one on, whatever their
arguments and whatever they find, no run faults, and each command goes to the address that was set
last while the config file could be written, or nowhere while there is none, provided that what is
set as a host is one and that the port is set after a host. -/
theorem clientSessions (runs : List (List CString × Surroundings))
    (hruns : ∀ run ∈ runs, ArgumentsFit run.1 ∧ run.2.Bounded)
    (hadmitted : sessionContract.Admits ⟨none, 0⟩ (runs.map fun run => (run.1, run.2.writable))) :
    ∃ results config, runAll invoke runs none = some (results, config) ∧
      sessionContract.Allows ⟨none, 0⟩ (runs.map fun run => (run.1, run.2.writable)) results := by
  have hstart : Settings.Held ⟨none, 0⟩ none := .inl ⟨rfl, rfl⟩
  have hstep : ∀ (run : List CString × Surroundings) (config : Option (List UInt8)) (s : Settings),
      ArgumentsFit run.1 ∧ run.2.Bounded → s.Held config →
      sessionContract.Pre s (run.1, run.2.writable) → ∃ r config',
        invoke run config = some (r, config') ∧
        sessionContract.Post s (run.1, run.2.writable) r ∧
        (sessionContract.after s (run.1, run.2.writable)).Held config' :=
    fun _ _ _ hrun hheld hpre => hheld.invoke hrun.2 hrun.1 hpre
  obtain ⟨results, config, hrun, hallows, -⟩ := sessionContract.exists_runAll
    (fun config s => Settings.Held s config) _ hstep hruns hstart hadmitted
  exact ⟨results, config, hrun, hallows⟩

/-! ### Examples -/

section Example

/-- Fresh memory that holds letters. -/
def exampleMemory : ProcessMemory :=
  ⟨lettersMemory, lettersMemory, lettersMemory, fun _ _ => 97, []⟩

/-- A response of one piece. -/
def exampleReads : ResponseReads := ⟨[ascii "3" ++ [0]], by decide⟩

/-- A run whose connection is answered. -/
def exampleSurroundings (writable : Bool) : Surroundings :=
  ⟨writable, exampleMemory, fun _ => some exampleReads⟩

theorem bounded_exampleSurroundings (writable : Bool) : (exampleSurroundings writable).Bounded := by
  intro contact reads hreads
  obtain rfl := Option.some.inj hreads
  decide

/-- A WRITE with an address. -/
def exampleWrite : List CString := [lit "drive", lit "write", lit "a", lit "abc"]

/-- It returns. -/
theorem clientMain_returns_exampleWrite : ∃ run,
    clientMain (exampleSurroundings true) exampleWrite (some (ascii "10.0.0.1\n8080\n")) =
      some run ∧ run.ComesOf exampleWrite (some (ascii "10.0.0.1\n8080\n")) := by
  obtain ⟨hreturns, hcomes⟩ := @clientMain_returns_iff exampleWrite
    (some (ascii "10.0.0.1\n8080\n")) _ (bounded_exampleSurroundings true) (by decide)
  obtain ⟨run, hrun⟩ := Option.isSome_iff_exists.mp (hreturns.mpr (by decide))
  exact ⟨run, hrun, hcomes run hrun⟩

/-- A session that asks for a listing before the address is set and afterwards, and in the end sets
another host that cannot be written. -/
def exampleSession : List (List CString × Surroundings) :=
  [([lit "drive", lit "ls"], exampleSurroundings true),
    ([lit "drive", lit "set-ip", lit "10.0.0.1"], exampleSurroundings true),
    ([lit "drive", lit "set-port", lit "8080"], exampleSurroundings true),
    ([lit "drive", lit "ls", lit "-l"], exampleSurroundings true),
    ([lit "drive", lit "set-ip", lit "host"], exampleSurroundings false),
    ([lit "drive", lit "ls"], exampleSurroundings false)]

/-- The last listing goes to the host that could be written. -/
theorem clientSessions_exampleSession : ∃ results config,
    runAll invoke exampleSession none = some (results, config) ∧
      ∃ run, results[5]? = some run ∧
        run.contact = some ⟨some (lit "10.0.0.1"), 8080, Interface.ls⟩ := by
  have hruns : ∀ run ∈ exampleSession, ArgumentsFit run.1 ∧ run.2.Bounded := by
    have hargs : ∀ run ∈ exampleSession, ArgumentsFit run.1 := by decide
    have hfinds : ∀ run ∈ exampleSession, ∃ writable, run.2 = exampleSurroundings writable := by
      simp [exampleSession]
    intro run hrun
    obtain ⟨writable, heq⟩ := hfinds run hrun
    exact ⟨hargs run hrun, heq ▸ bounded_exampleSurroundings writable⟩
  obtain ⟨results, config, hrun, hallows⟩ := clientSessions exampleSession hruns (by decide)
  obtain ⟨run, hget, hcontact⟩ := hallows.exists_getElem? sessionContract (i := 5) rfl
  exact ⟨results, config, hrun, run, hget, hcontact.trans (by decide)⟩

end Example

end PekarDrive
