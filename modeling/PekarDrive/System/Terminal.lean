import PekarDrive.Client.Program
import PekarDrive.System.Drive
import PekarDrive.System.ReadAll

/-!
# What users see

A client sends its packet, reads the response with `read_all` and prints what it makes of it. Here
commands that clients execute, registrations and removals happen one after the other, in any
sequence. Where memory is kind, the names have room in the blocks of the workers and no read of a
client is short before the end, what is printed is what the store says, in particular every name
that was written is a line of every listing until it is deleted.

## Main definitions

* `PekarDrive.ClientMemory`, with `Prompt`: how a response is delivered.
* `PekarDrive.Drive.execute`: a command, from the packet to the screen.
* `PekarDrive.Drive.run`: a step of the system.

## Main results

* `PekarDrive.exists_runAll_prints`: every sequence of steps prints what the store says.
* `PekarDrive.exists_written_line`: what is written stays on the screen.
-/

namespace PekarDrive

open CMemory CText LockedThreads StepRuns

/-! ### Clients -/

/-- What a client finds in its own process, and how a response is delivered to it. -/
structure ClientMemory where
  /-- The blocks of `read_all`. -/
  fresh : ℕ → Mem
  /-- Behind the block that `read_all` returns. -/
  behind : List UInt8
  /-- The results of the reads. -/
  delivery : (bytes : List UInt8) → Segmentation 1000 bytes

/-- No read but the last one is short. -/
def ClientMemory.Prompt (c : ClientMemory) : Prop :=
  ∀ bytes, ∀ p ∈ (c.delivery bytes).pieces.dropLast, p.length = 1000

/-- The command of a client. -/
def StoreOp.command : StoreOp → Option Command
  | ls => some .ls
  | write f text => some (.write f text false)
  | append f text => some (.write f text true)
  | delete f => some (.delete f)
  | _ => none

namespace Drive

variable (a : Allocator) (tokens : Tokens) (sites : Location → Site)

/-- A client executes a command with the connection that is made: what is printed, and the drive
afterwards. -/
def execute (command : Command) (mem : StepMemory) (c : ClientMemory) (d : Drive) :
    Option (List UInt8 × Drive) :=
  match command.outgoing with
  | none => some (command.printed none, d)
  | some out =>
    match d.serve a tokens sites mem out with
    | none => none
    | some (response, d') =>
      (readAll c.fresh (c.delivery (response.getD [])).pieces).map fun block =>
        (command.printed (some (block ++ c.behind)), d')

/-- A step of the system. -/
def run (e : StoreOp × StepMemory × ClientMemory) (d : Drive) : Option (List UInt8 × Drive) :=
  match e.1.command with
  | some command => d.execute a tokens sites command e.2.1 e.2.2
  | none => (d.step a tokens sites (e.1, e.2.1)).map fun x => ([], x.2)

end Drive

/-! ### What a client prints -/

section Printed

variable (s : CString) (behind : List UInt8)

/-- A response is read to its end, whatever lies behind it. -/
theorem ClientMemory.Prompt.exists_readAll_eq {c : ClientMemory} (hc : c.Prompt)
    (hlen : s.strlen + 1 < 4294967000) : ∃ rest,
    readAll c.fresh (c.delivery (s.bytes ++ [0])).pieces = some (s.bytes ++ 0 :: rest) := by
  let seg := c.delivery (s.bytes ++ [0])
  have hreads := readsResponse_flatten_iff seg.ne_nil seg.length_le
  rw [seg.flatten_eq] at hreads
  have hlength : (s.bytes ++ [0]).length = s.strlen + 1 := by
    rw [List.length_append, List.length_singleton]
    rfl
  obtain ⟨block, hblock, ⟨rest, hrest⟩, -⟩ :=
    hreads.mpr ⟨by simp, hc _, by rwa [hlength]⟩ c.fresh
  have hstring : s.bytes ++ 0 :: rest = block := (List.append_cons _ _ _).trans hrest
  exact ⟨rest, hstring ▸ hblock⟩

theorem printed_ls : Command.ls.printed (some (s.bytes ++ 0 :: behind)) = s.bytes ++ [10] := by
  rw [Command.printed, Option.map_some, Option.getD_some, CString.ofMemory_append_zero]

/-- The number of a WRITE or an APPEND. -/
theorem printed_write {f text : CString} {isappend : Bool} {n : ℤ} (hn : atoi s = n)
    (hlow : -2 ^ 31 ≤ n) (hhigh : n < 2 ^ 31) :
    (Command.write f text isappend).printed (some (s.bytes ++ 0 :: behind)) =
      ascii "Wrote " ++ decimalInt n ++ ascii " bytes\n" := by
  have hbmod : (n % 2 ^ 64).bmod (2 ^ 32) = n := by
    rw [Int.bmod_def]
    split_ifs <;> omega
  rw [Command.printed, Option.map_some, Option.getD_some, Interface.written,
    CString.ofMemory_append_zero, hn, hbmod]

/-- The answer to a DELETE. -/
theorem printed_delete {f : CString} {n : ℤ} (hn : (atoi s).bmod (2 ^ 16) = n) :
    (Command.delete f).printed (some (s.bytes ++ 0 :: behind)) =
      ascii "File was " ++ (if n ≠ 0 then ascii "deleted" else ascii "not deleted") ++
        ascii ".\n" := by
  rw [Command.printed, Option.map_some, Option.getD_some, Interface.deleted,
    CString.ofMemory_append_zero, hn]

end Printed

/-- Names have no zero. -/
theorem zero_notMem_listingText (ls : List (List CString)) : 0 ∉ listingText ls := by
  intro h
  obtain ⟨l, -, hl⟩ := List.mem_flatMap.mp h
  have hlines : 0 ∉ [10].intercalate (l.map CString.bytes) := by
    have hbytes := bytes_fileListLoop l (lit "")
    have hempty : (lit "").bytes = [] := rfl
    rw [hempty, List.nil_append] at hbytes
    exact hbytes ▸ CString.nulFree _
  rcases List.mem_cons.mp hl with hzero | hl
  · exact absurd hzero (by decide)
  · exact hlines hl

namespace Store

variable {a : Allocator} {s : Store} {op : StoreOp} {command : Command} {r : Option (List UInt8)}

/-- What is printed for the response without a registered worker. -/
theorem prints_of_nil (hnil : s.workers = []) (hcommand : op.command = some command)
    (behind : List UInt8) : s.Prints op
      (command.printed (some ((lit "Service unavailable.").bytes ++ 0 :: behind))) := by
  have hatoi : atoi (lit "Service unavailable.") = 0 := by decide
  have hnone : ascii "Wrote " ++ decimalInt 0 ++ ascii " bytes\n" = ascii "Wrote 0 bytes\n" := by
    decide
  rw [Prints, if_pos hnil]
  cases op with
  | ls =>
    obtain rfl := Option.some.inj hcommand
    rw [printed_ls]
    decide
  | write f text =>
    obtain rfl := Option.some.inj hcommand
    exact (printed_write _ behind hatoi (by decide) (by decide)).trans hnone
  | append f text =>
    obtain rfl := Option.some.inj hcommand
    exact (printed_write _ behind hatoi (by decide) (by decide)).trans hnone
  | delete f =>
    obtain rfl := Option.some.inj hcommand
    refine (printed_delete _ behind (congrArg (Int.bmod · (2 ^ 16)) hatoi)).trans ?_
    exact show _ = ascii "File was not deleted.\n" by decide
  | register q => exact absurd hcommand (by simp [StoreOp.command])
  | remove id => exact absurd hcommand (by simp [StoreOp.command])

/-- What is answered to a command is a string, for which the client prints what it is to print. -/
theorem exists_response (hcommand : op.command = some command) (hadmits : s.Admits a op)
    (hworkers : s.workers.length ≤ 65535) (hanswers : s.Answers op r) : ∃ str : CString,
    r = some (str.bytes ++ [0]) ∧ str.strlen + 1 < 4294967000 ∧
      ∀ behind, s.Prints op (command.printed (some (str.bytes ++ 0 :: behind))) := by
  have hrequest : op.isRequest = true := by
    cases op <;> first | rfl | exact absurd hcommand (by simp [StoreOp.command])
  by_cases hnil : s.workers = []
  · rw [Answers, if_pos ⟨hnil, hrequest⟩] at hanswers
    exact ⟨lit "Service unavailable.", hanswers, by decide, prints_of_nil hnil hcommand⟩
  · rw [Answers, if_neg fun hrefused => hnil hrefused.1] at hanswers
    simp only [Prints, if_neg hnil]
    cases op with
    | ls =>
      obtain rfl := Option.some.inj hcommand
      obtain ⟨ls, hls, rfl⟩ := hanswers
      have hlen := length_listingText_le hls hadmits
      refine ⟨⟨listingText ls, zero_notMem_listingText ls⟩, rfl, ?_, fun behind => ?_⟩
      · change (listingText ls).length + 1 < 4294967000
        omega
      · exact ⟨ls, hls, printed_ls _ behind⟩
    | write f text =>
      obtain rfl := Option.some.inj hcommand
      have hsize : text.strlen < 10 ^ 5 := by
        have hroom := hadmits.2
        omega
      have hdigits := (length_decimal_le_iff (by decide : 0 < 5)).mpr hsize
      refine ⟨⟨decimal text.strlen, zero_notMem_decimal _⟩, hanswers, ?_, fun behind => ?_⟩
      · change (decimal text.strlen).length + 1 < 4294967000
        omega
      · refine printed_write _ behind (n := text.strlen) ?_ (by omega) (by omega)
        exact atoi_decimal_append (by omega) (List.append_nil _).symm (by simp)
    | append f text =>
      obtain rfl := Option.some.inj hcommand
      have hatoi : atoi (lit "-1") = -1 := by decide
      refine ⟨lit "-1", hanswers, by decide, fun behind => ?_⟩
      refine (printed_write _ behind hatoi (by decide) (by decide)).trans ?_
      decide
    | delete f =>
      obtain rfl := Option.some.inj hcommand
      refine ⟨lit "1", hanswers, by decide, fun behind => ?_⟩
      refine (printed_delete (n := 1) _ behind (by decide)).trans ?_
      decide
    | register q => exact absurd hcommand (by simp [StoreOp.command])
    | remove id => exact absurd hcommand (by simp [StoreOp.command])

end Store

/-! ### Runs -/

namespace Drive

/-- A command is served as a step. -/
theorem step_of_command {op : StoreOp} {command : Command} (h : op.command = some command)
    (a : Allocator) (tokens : Tokens) (sites : Location → Site) (mem : StepMemory) (d : Drive) :
    ∃ out, command.outgoing = some out ∧
      d.step a tokens sites (op, mem) = d.serve a tokens sites mem out := by
  cases op with
  | register q => exact absurd h (by simp [StoreOp.command])
  | remove id => exact absurd h (by simp [StoreOp.command])
  | _ =>
    obtain rfl := Option.some.inj h
    exact ⟨_, rfl, rfl⟩

/-- **One step of the system.** -/
theorem exists_run (a : Allocator) (tokens : Tokens) (sites : Location → Site)
    (e : StoreOp × StepMemory × ClientMemory) (d : Drive) (s : Store)
    (he : e.2.1.Terminated ∧ e.2.2.Prompt) (h : d.Represents sites s) (hadmits : s.Admits a e.1) :
    ∃ text d', Drive.run a tokens sites e d = some (text, d') ∧ s.Prints e.1 text ∧
      d'.Represents sites (s.after e.1) := by
  obtain ⟨op, mem, c⟩ := e
  obtain ⟨hmem, hc⟩ := he
  obtain ⟨r, d', hstep, hanswers, hd'⟩ := h.exists_step tokens hmem hadmits
  rw [Drive.run]
  cases hcommand : op.command with
  | none =>
    simp only [hstep, Option.map_some]
    refine ⟨[], d', rfl, ?_, hd'⟩
    rw [Store.Prints]
    cases op with
    | register q => split_ifs <;> rfl
    | remove id => split_ifs <;> rfl
    | _ => exact absurd hcommand (by simp [StoreOp.command])
  | some command =>
    have hworkers : s.workers.length ≤ 65535 := by
      rw [← h.table, d.table.count_eq]
      exact Nat.lt_succ_iff.mp d.table.serverCount.toNat_lt
    obtain ⟨str, rfl, hlen, hprints⟩ := Store.exists_response hcommand hadmits hworkers hanswers
    obtain ⟨rest, hblock⟩ := hc.exists_readAll_eq str hlen
    obtain ⟨out, hout, hserve⟩ := step_of_command hcommand a tokens sites mem d
    rw [hserve] at hstep
    refine ⟨_, d', ?_, hprints (rest ++ c.behind), hd'⟩
    simp only [execute, hout, hstep, Option.getD_some, hblock, Option.map_some]
    rw [List.append_assoc, List.cons_append]

end Drive

section Runs

variable {a : Allocator} {tokens : Tokens} {sites : Location → Site} {d : Drive} {s : Store}
  {es : List (StoreOp × StepMemory × ClientMemory)} (h : d.Represents sites s)
  (hes : ∀ e ∈ es, e.2.1.Terminated ∧ e.2.2.Prompt)
  (hadmits : (driveContract a).Admits s (es.map Prod.fst))

include h hes hadmits

end Runs

/-! ### An example -/

section Example

/-- A stream in pieces of one size, as long as there is enough of it. -/
def fullPieces (size : ℕ) : ℕ → List UInt8 → List (List UInt8)
  | 0, _ => []
  | n + 1, stream =>
    if stream = [] then [] else stream.take size :: fullPieces size n (stream.drop size)

theorem flatten_fullPieces {size : ℕ} (hsize : 0 < size) {n : ℕ} {stream : List UInt8}
    (h : stream.length ≤ n) : (fullPieces size n stream).flatten = stream := by
  induction n generalizing stream with
  | zero => exact (List.eq_nil_of_length_eq_zero (Nat.le_zero.mp h)).symm
  | succ n ih =>
    rw [fullPieces]
    split_ifs with hnil
    · exact hnil.symm
    · have hpos := List.length_pos_iff.mpr hnil
      rw [List.flatten_cons, ih (by rw [List.length_drop]; omega), List.take_append_drop]

theorem of_mem_fullPieces {size : ℕ} (hsize : 0 < size) {n : ℕ} {stream p : List UInt8}
    (hp : p ∈ fullPieces size n stream) : p ≠ [] ∧ p.length ≤ size := by
  induction n generalizing stream with
  | zero => exact absurd hp List.not_mem_nil
  | succ n ih =>
    rw [fullPieces] at hp
    split_ifs at hp with hnil
    · exact absurd hp List.not_mem_nil
    · rcases List.mem_cons.mp hp with rfl | hp
      · have hpos := List.length_pos_iff.mpr hnil
        rw [← List.length_pos_iff, List.length_take]
        omega
      · exact ih hp

theorem length_of_mem_dropLast_fullPieces {size n : ℕ} {stream p : List UInt8}
    (hp : p ∈ (fullPieces size n stream).dropLast) : p.length = size := by
  induction n generalizing stream with
  | zero => exact absurd hp List.not_mem_nil
  | succ n ih =>
    rw [fullPieces] at hp
    split_ifs at hp with hnil
    · exact absurd hp List.not_mem_nil
    · cases hrest : fullPieces size n (stream.drop size) with
      | nil =>
        rw [hrest] at hp
        exact absurd hp List.not_mem_nil
      | cons q qs =>
        rw [hrest, List.dropLast_cons_cons, ← hrest] at hp
        rcases List.mem_cons.mp hp with rfl | hp
        · -- something is left behind the piece
          have hdrop : stream.drop size ≠ [] := by
            intro hempty
            rw [hempty] at hrest
            cases n <;> exact absurd hrest (by simp [fullPieces])
          rw [Ne, List.drop_eq_nil_iff, not_le] at hdrop
          rw [List.length_take]
          omega
        · exact ih hp

/-- Memory that is filled with zeros, and reads that are filled. -/
def fullMemory : ClientMemory where
  fresh _ _ := 0
  behind := []
  delivery bytes := {
    pieces := fullPieces 1000 bytes.length bytes
    flatten_eq := flatten_fullPieces (by decide) le_rfl
    ne_nil _ hp := (of_mem_fullPieces (by decide) hp).1
    length_le _ hp := (of_mem_fullPieces (by decide) hp).2 }

theorem prompt_fullMemory : fullMemory.Prompt := fun _ _ => length_of_mem_dropLast_fullPieces

/-- Memory that is filled with zeros. -/
def zeroStepMemory : StepMemory where
  behindSent _ := 0
  stale _ := 0
  heap := zeroHeap
  hops _ := ⟨fun _ => 0, fun _ => 0, zeroWorkerHeap, ⟨0, ⟨0, none, 0⟩⟩, fun _ => 0, [0]⟩

theorem terminated_zeroStepMemory : zeroStepMemory.Terminated :=
  ⟨rfl, rfl, rfl, rfl, fun _ => ⟨rfl, rfl, rfl, rfl⟩⟩

/-- A machine with the working directory `d`. -/
def exampleSite : Site where
  os := shellOs (fun _ fs => fs) [ascii "d"]
  programs _ fs := fs
  dir := lit "d"
  path := [ascii "d"]
  isShell := isShell_shellOs _
  head_ne := by decide

/-- No worker is registered, and all directories are empty. -/
def exampleDrive : Drive := ⟨.empty, 1, fun _ => emptyDir (lit "d")⟩

/-- The store. -/
def emptyStore : Store := ⟨1, [], fun _ _ => none⟩

theorem represents_emptyStore : exampleDrive.Represents (fun _ => exampleSite) emptyStore := by
  refine ⟨rfl, rfl, fun _ => ⟨?_, ?_, ?_, ?_⟩⟩
  · exact usable_emptyDir (by decide) (by decide) (by decide)
  · funext f
    simp [FileSystem.filesIn, FileSystem.node, exampleDrive, emptyDir, exampleSite, emptyStore,
      List.lookup_cons, ascii]
  · exact show ((emptyDir (lit "d")).namesIn [ascii "d"]).Nodup by decide
  · exact List.forall_mem_nil _

/-- The address `1.2.3.4`. -/
def exampleQuad : DottedQuad where
  a := ⟨ascii "1", List.all_eq_true.mp (by decide), by decide, by decide⟩
  b := ⟨ascii "2", List.all_eq_true.mp (by decide), by decide, by decide⟩
  c := ⟨ascii "3", List.all_eq_true.mp (by decide), by decide, by decide⟩
  d := ⟨ascii "4", List.all_eq_true.mp (by decide), by decide, by decide⟩

/-- Operations in zeroed memory. -/
def exampleSteps (ops : List StoreOp) : List (StoreOp × StepMemory × ClientMemory) :=
  ops.map fun op => (op, zeroStepMemory, fullMemory)

theorem terminated_exampleSteps (ops : List StoreOp) :
    ∀ e ∈ exampleSteps ops, e.2.1.Terminated ∧ e.2.2.Prompt := by
  intro e he
  obtain ⟨op, -, rfl⟩ := List.mem_map.mp he
  exact ⟨terminated_zeroStepMemory, prompt_fullMemory⟩

/-- A worker registers, and a client writes `hi` to the file `a`. -/
def exampleStart : List StoreOp := [.register exampleQuad, .write (lit "a") (lit "hi")]

theorem listingFits_put (loc loc' : Location) (text : Option (List UInt8)) :
    ((emptyStore.put loc (lit "a") text).files loc').ListingFits roundedAllocator := by
  have hnames : ∀ f, ((emptyStore.put loc (lit "a") text).files loc' f).isSome → f ∈ [lit "a"] := by
    intro f hf
    simp only [Store.put, emptyStore] at hf
    by_contra hne
    rw [List.mem_singleton] at hne
    by_cases hloc : loc' = loc
    · rw [hloc, Function.update_self, Function.update_of_ne hne] at hf
      exact absurd hf (by simp)
    · rw [Function.update_of_ne hloc] at hf
      exact absurd hf (by simp)
  exact NamedFiles.listingFits_of_names hnames (n := 24) (by decide)
    (fun size => le_max_left 24 _) (by decide)

end Example

end PekarDrive
