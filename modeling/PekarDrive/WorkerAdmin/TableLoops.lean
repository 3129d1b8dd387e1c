import PekarDrive.Foundation.Runs
import PekarDrive.Table.Refinement
import PekarDrive.WorkerAdmin.Requests
import Mathlib.Data.List.InsertIdx

/-!
# Loops over the table while another thread changes it

`worker_ls`, `find_by_file` and `least_load` use the table without holding the mutex from one step
to the next: the count is read once, `getfs_index` tests the bound before it takes the mutex, and
the pointer that it returns is read through after the mutex has been given back, once for the
address of the worker and once for the port. Between any two of these steps another thread may add
or remove a server. The calls are followed up to the reads of the caller, `worker_delete` or
`worker_write`, through the pointer that `find_by_file` or `least_load` returns.

A pointer is the address of the array and an index. Each change of the table resizes the array, and
`realloc` may give it any address. Registrations carry numbers, so that an entry can be told from
another one with the same content.

## Main definitions

* `PekarDrive.TableEntry`, `PekarDrive.EntryPointer`.
* `PekarDrive.LoopCall`, `PekarDrive.LoopPoint`, `PekarDrive.LoopState`: the call, the point that it
  has come to, and the state of the machine.
* `PekarDrive.LoopEvent`, `PekarDrive.loopStep`.
* `PekarDrive.LoopState.rest`: the program that is left to run.

## Main results

* `PekarDrive.LoopState.eval_rest_of_advance`, `PekarDrive.LoopState.eval_rest_of_answer`: the
  steps of the machine are those of the programs.
* `PekarDrive.LoopState.map_server_changed`: the steps of the other thread are those of the table.
* `PekarDrive.LoopState.AloneRun.eval_prog`: without the other thread, a run of the machine is one
  of the program.
-/

namespace PekarDrive

open CText LockedThreads StepRuns

/-! ### The machine -/

/-- An entry of the table with the number of its registration. -/
structure TableEntry where
  /-- The number; no two registrations have the same. -/
  tag : ℕ
  /-- The entry. -/
  server : FileServer
  deriving DecidableEq

/-- A `struct file_server *` that is not `NULL`. -/
structure EntryPointer where
  /-- The address of the array when the pointer was computed. -/
  base : ℕ
  /-- The index in the array. -/
  index : ℕ
  deriving DecidableEq

/-- The call, with what its caller was handed. -/
inductive LoopCall
  /-- `worker_ls`; the fresh block of the result. -/
  | workerLs (freshBlock : List UInt8)
  /-- `find_by_file`, called by `worker_delete`. -/
  | findByFile (file : CString)
  /-- `least_load`, called by `worker_write`. -/
  | leastLoad (file data : CString)

/-- The point that the call has come to. The flag says that the pointer is the one that the call
returns to its caller, who tests it for `NULL`. -/
inductive LoopPoint
  /-- Before the count is read. -/
  | count
  /-- Before the bound test of `getfs_index`. -/
  | bound (i : ℕ) (last : Bool)
  /-- Before `getfs_index` takes the mutex to compute the address. -/
  | address (i : ℕ) (last : Bool)
  /-- Before `worker->location.ip` is read. -/
  | ip (p : Option EntryPointer) (last : Bool)
  /-- Before `worker->location.port` is read; the entry that the address was read from. -/
  | port (p : EntryPointer) (a : TableEntry) (last : Bool)
  /-- Before the exchange with the worker. -/
  | query (i : ℕ) (server : FileServer) (last : Bool)
  /-- The call has returned, and its caller has made its own exchange. -/
  | done

/-- The state of the machine. -/
structure LoopState where
  /-- The call. -/
  call : LoopCall
  /-- The entries of the table. -/
  entries : List TableEntry
  /-- The address of the array. -/
  base : ℕ
  /-- A number above those of the registrations so far. -/
  nextTag : ℕ
  /-- The point that the call has come to. -/
  point : LoopPoint
  /-- The variable `workers`. -/
  workers : ℕ
  /-- The numbers below are of registrations before the count was read. -/
  sampled : ℕ
  /-- The registrations whose address and port were read for an exchange, in order. -/
  asked : List ℕ
  /-- The variable `result` of `worker_ls`. -/
  result : CString

/-- A step of the machine. -/
inductive LoopEvent
  /-- The next step of the call, but for an exchange. -/
  | advance
  /-- The exchange with the worker. -/
  | answer (r : Reply)
  /-- The other thread changes the table; the address that `realloc` returns. -/
  | change (c : TableChange) (base : ℕ)

namespace LoopState

variable (s : LoopState)

/-- The numbers of the entries. -/
def tags : List ℕ := s.entries.map TableEntry.tag

/-- The pointer refers to an entry of the array. -/
def Live (p : EntryPointer) : Prop := p.base = s.base ∧ p.index < s.entries.length

/-- The entry that the pointer refers to. -/
def target (p : EntryPointer) : Option TableEntry :=
  if p.base = s.base then s.entries[p.index]? else none

/-- The head of a loop at index `i`. -/
def loopAt (i : ℕ) : LoopState :=
  { s with point := if i < s.workers then .bound i false else .done }

/-- The count is read before a loop. -/
def sample : LoopState := { s with workers := s.entries.length, sampled := s.nextTag }

/-- The listing is appended to the result. -/
def appendLs (ls : CString) : LoopState :=
  { s with result := (s.result.append (lit "\n")).append ls }

/-- The next step of the call, but for an exchange. Reading through a pointer to no entry has no
result. -/
def advance : Option LoopState :=
  match s.point with
  | .count =>
    match s.call with
    | .workerLs freshBlock =>
      some ({ s.sample with result := CString.ofMemory freshBlock }.loopAt 0)
    | .findByFile _ => some (s.sample.loopAt 0)
    | .leastLoad _ _ =>
      some { s with point := if s.entries.length = 0 then .done else .bound 0 true }
  | .bound i last =>
    if s.entries.length ≤ i then
      -- `NULL` is tested for only by the caller that it is returned to
      some { s with point := if last then .done else .ip none false }
    else some { s with point := .address i last }
  | .address i last => some { s with point := .ip (some ⟨s.base, i⟩) last }
  | .ip none _ => none
  | .ip (some p) last => (s.target p).map fun a => { s with point := .port p a last }
  | .port p a last => (s.target p).map fun b =>
      { s with
        point := .query p.index
          { a.server with location := ⟨a.server.location.ip, b.server.location.port⟩ } last
        asked := if b.tag = a.tag then s.asked ++ [a.tag] else s.asked }
  | .query _ _ _ => none
  | .done => none

/-- The exchange, and what the call makes of the answer. -/
def answered (r : Reply) : Option LoopState :=
  match s.point with
  | .query _ _ true => some { s with point := .done }
  | .query i _ false =>
    match s.call, lsAnswer r with
    | .workerLs _, none => some (s.loopAt (i + 1))
    | .workerLs _, some ls => some ((s.appendLs ls).loopAt (i + 1))
    | .findByFile file, some ls =>
      some (if strstr ls file then { s with point := .bound i true } else s.loopAt (i + 1))
    | _, _ => none
  | _ => none

/-- The index of the entry that a change removes. -/
def removedAt : TableChange → Option ℕ
  | .add _ => none
  | .remove id => s.entries.findIdx? fun a => decide (a.server.id = id)

/-- The change of the table. -/
def changed (c : TableChange) (base : ℕ) : LoopState :=
  match c with
  | .add server =>
    { s with entries := s.entries ++ [⟨s.nextTag, server⟩], base := base, nextTag := s.nextTag + 1 }
  | .remove _ =>
    match s.removedAt c with
    | none => s
    | some idx => { s with entries := s.entries.eraseIdx idx, base := base }

end LoopState

/-- A step, if it can happen. `add_server` has no result when the count overflows. -/
def loopStep (s : LoopState) : LoopEvent → Option LoopState
  | .advance => s.advance
  | .answer r => s.answered r
  | .change c base =>
    if (s.changed c base).entries.length ≤ 65535 then some (s.changed c base) else none

/-! ### The programs -/

/-- The program of a call, with the part of the caller. -/
def LoopCall.prog (tokens : Tokens) : LoopCall → TableProg Request Reply Unit
  | workerLs freshBlock => do
    let _ ← PekarDrive.workerLs tokens freshBlock
    return ()
  | findByFile file => workerDelete tokens file
  | leastLoad file data => do
    let _ ← workerWrite tokens file data
    return ()

/-- The exchange with a worker: the one of the caller, or the one of `worker_ls_index`. -/
def LoopCall.request (tokens : Tokens) (server : FileServer) : LoopCall → Bool → Request
  | findByFile file, true => deleteRequest tokens file server
  | leastLoad file data, true => writeRequest tokens file data server
  | _, _ => lsRequest tokens server

/-- What the caller does with the pointer that is returned to it. -/
def LoopCall.caller (tokens : Tokens) (call : LoopCall) :
    Option ℕ → TableProg Request Reply Unit
  | none => return ()
  | some i => do
    let w ← derefServer (some i)
    let _ ← Prog.ask (call.request tokens w true)
    return ()

/-- `worker_delete` is its search and what it does with the pointer. -/
theorem LoopCall.prog_findByFile (tokens : Tokens) (file : CString) :
    (findByFile file).prog tokens =
      PekarDrive.findByFile tokens file >>= (findByFile file).caller tokens := by
  refine congrArg (PekarDrive.findByFile tokens file >>= ·) (funext fun worker => ?_)
  cases worker <;> rfl

/-- `worker_write` is `least_load` and what it does with the pointer. -/
theorem LoopCall.prog_leastLoad (tokens : Tokens) (file data : CString) :
    (leastLoad file data).prog tokens =
      PekarDrive.leastLoad >>= (leastLoad file data).caller tokens := by
  rw [prog, workerWrite, Prog.bind_assoc]
  refine congrArg (PekarDrive.leastLoad >>= ·) (funext fun fs => ?_)
  cases fs with
  | none => rfl
  | some i => exact Prog.bind_assoc _ _ _

@[simp] theorem LoopCall.request_false (tokens : Tokens) (server : FileServer) (call : LoopCall) :
    call.request tokens server false = lsRequest tokens server := by
  cases call <;> rfl

namespace LoopState

variable (tokens : Tokens) (s : LoopState)

/-- A loop from index `i` on, and the part of the caller. -/
def loopFrom (i : ℕ) : TableProg Request Reply Unit :=
  match s.call with
  | .workerLs _ => do
    let _ ← workerLsLoop tokens (s.workers - i) i s.result
    return ()
  | .findByFile file => findByFileLoop tokens file (s.workers - i) i >>= s.call.caller tokens
  | .leastLoad _ _ => Prog.fault

/-- What a loop does with the listing of the worker at index `i`. -/
def afterListing (i : ℕ) (ls : Option CString) : TableProg Request Reply Unit :=
  match s.call, ls with
  | .workerLs _, none => s.loopFrom tokens (i + 1)
  | .workerLs _, some ls => (s.appendLs ls).loopFrom tokens (i + 1)
  | .findByFile file, some ls =>
    if strstr ls file then getfsIndex i >>= s.call.caller tokens else s.loopFrom tokens (i + 1)
  | _, _ => Prog.fault

/-- The exchange with a worker and what comes behind it. -/
def exchange (i : ℕ) (w : FileServer) : Bool → TableProg Request Reply Unit
  | true => do
    let _ ← Prog.ask (s.call.request tokens w true)
    return ()
  | false => do
    let r ← Prog.ask (s.call.request tokens w false)
    s.afterListing tokens i (lsAnswer r)

/-- What is done with a pointer that `getfs_index` has returned. -/
def usePointer (i : ℕ) (p : Option ℕ) : Bool → TableProg Request Reply Unit
  | true => s.call.caller tokens p
  | false => do
    let w ← derefServer p
    s.exchange tokens i w false

/-- The program that is left to run. -/
def rest : TableProg Request Reply Unit :=
  match s.point with
  | .count => s.call.prog tokens
  | .bound i last => do
    let p ← getfsIndex i
    s.usePointer tokens i p last
  | .address i last => do
    Prog.acquire
    Prog.release
    s.usePointer tokens i (some i) last
  | .ip none _ => Prog.fault
  | .ip (some p) last => do
    let w ← derefServer (some p.index)
    s.exchange tokens p.index w last
  | .port p a last => do
    let w ← derefServer (some p.index)
    s.exchange tokens p.index
      { a.server with location := ⟨a.server.location.ip, w.location.port⟩ } last
  | .query i w last => s.exchange tokens i w last
  | .done => return ()

/-! ### The steps of the machine are those of the programs -/

/-- Asking the worker at index `i` and going on with its listing. -/
theorem workerLsIndex_bind (i : ℕ) :
    (workerLsIndex tokens i >>= fun ls => s.afterListing tokens i ls) =
      (getfsIndex i >>= fun p => derefServer p >>= fun w =>
        Prog.ask (lsRequest tokens w) >>= fun r => s.afterListing tokens i (lsAnswer r)) := by
  rw [workerLsIndex, Prog.bind_assoc]
  refine congrArg _ (funext fun p => ?_)
  rw [Prog.bind_assoc]
  rfl

/-- A loop that has an index left asks the worker there. -/
theorem loopFrom_of_lt {i : ℕ} (hi : i < s.workers)
    (hcall : ∀ file data, s.call ≠ .leastLoad file data) :
    s.loopFrom tokens i = workerLsIndex tokens i >>= fun ls => s.afterListing tokens i ls := by
  have hleft : s.workers - i = s.workers - (i + 1) + 1 := by omega
  cases hc : s.call with
  | workerLs freshBlock =>
    simp only [loopFrom, hc, hleft, workerLsLoop, Prog.bind_assoc]
    refine congrArg _ (funext fun ls => ?_)
    cases ls <;> simp only [afterListing, hc, loopFrom, appendLs]
  | findByFile file =>
    simp only [loopFrom, hc, hleft, findByFileLoop, Prog.bind_assoc]
    refine congrArg _ (funext fun ls => ?_)
    cases ls with
    | none => simp only [afterListing, hc, Prog.fault_bind]
    | some ls =>
      simp only [afterListing, hc, loopFrom]
      split <;> rfl
  | leastLoad file data => exact absurd hc (hcall file data)

theorem loopFrom_of_le {i : ℕ} (hi : s.workers ≤ i)
    (hcall : ∀ file data, s.call ≠ .leastLoad file data) : s.loopFrom tokens i = Prog.ret () := by
  cases hc : s.call with
  | workerLs freshBlock => simp only [loopFrom, hc, Nat.sub_eq_zero_of_le hi]; rfl
  | findByFile file => simp only [loopFrom, hc, Nat.sub_eq_zero_of_le hi]; rfl
  | leastLoad file data => exact absurd hc (hcall file data)

/-- At its head, a loop tests the bound for its next index or ends. -/
theorem rest_loopAt (i : ℕ) (hcall : ∀ file data, s.call ≠ .leastLoad file data) :
    (s.loopAt i).rest tokens = s.loopFrom tokens i := by
  by_cases hi : i < s.workers
  · rw [s.loopFrom_of_lt tokens hi hcall, workerLsIndex_bind, loopAt, if_pos hi]
    simp only [rest, usePointer, exchange, LoopCall.request_false]
    rfl
  · rw [s.loopFrom_of_le tokens (not_lt.mp hi) hcall, loopAt, if_neg hi]
    rfl

variable (env : List Request → Request → Reply) (h : List Request) {tokens s} {s' : LoopState}
  {t : ServerTable}

theorem eval_usePointer_some (i : ℕ) (last : Bool) :
    s.usePointer tokens i (some i) last =
      (derefServer (some i) >>= fun w => s.exchange tokens i w last) := by
  cases last <;> rfl

/-- Reading through a pointer into the array reads the entry it refers to. -/
theorem eval_derefServer_of_target (ht : t.serverTable = s.entries.map TableEntry.server)
    {p : EntryPointer} {a : TableEntry} (hp : s.target p = some a) :
    (derefServer (some p.index) : TableProg Request Reply FileServer).eval env h t =
      (h, some (a.server, t)) := by
  rw [target] at hp
  split at hp
  · exact eval_derefServer env h t (by rw [ht, List.getElem?_map, hp]; rfl)
  · exact absurd hp (by simp)

/-- The first step reads the count. -/
theorem eval_rest_of_count (ht : t.serverTable = s.entries.map TableEntry.server)
    (hpoint : s.point = .count) (hstep : s.advance = some s') :
    (s.rest tokens).eval env h t = (s'.rest tokens).eval env h t := by
  have hcount : t.serverCount.toNat = s.entries.length := by
    rw [← t.count_eq, ht, List.length_map]
  cases hcall : s.call with
  | workerLs freshBlock =>
    simp only [advance, hpoint, hcall, Option.some.injEq] at hstep
    rw [← hstep, rest_loopAt _ _ _ (by simp [sample, hcall])]
    simp only [rest, hpoint, hcall, LoopCall.prog, workerLs, loopFrom, sample, Prog.bind_assoc]
    rw [Prog.eval_bind_of_eq (eval_tableCount env h t), hcount, Nat.sub_zero]
  | findByFile file =>
    simp only [advance, hpoint, hcall, Option.some.injEq] at hstep
    rw [← hstep, rest_loopAt _ _ _ (by simp [sample, hcall])]
    simp only [rest, hpoint, hcall, LoopCall.prog_findByFile, findByFile, loopFrom, sample,
      Prog.bind_assoc]
    rw [Prog.eval_bind_of_eq (eval_tableCount env h t), hcount, Nat.sub_zero]
  | leastLoad file data =>
    simp only [advance, hpoint, hcall, Option.some.injEq] at hstep
    rw [← hstep, rest, hpoint]
    simp only [hcall, LoopCall.prog_leastLoad]
    by_cases hnil : s.entries.length = 0
    · have htab : t.serverTable = [] := List.eq_nil_of_length_eq_zero (by simp [ht, hnil])
      rw [Prog.eval_bind_of_eq (eval_leastLoad_of_nil env h htab), if_pos hnil]
      rfl
    · have htab : t.serverTable ≠ [] := fun h0 => hnil (by simpa [ht] using congrArg List.length h0)
      rw [Prog.eval_bind_of_eq (eval_leastLoad env h htab), if_neg hnil]
      simp only [rest]
      rw [Prog.eval_bind_of_eq (eval_getfsIndex env h t (List.length_pos_iff.mpr htab))]
      rfl

/-- **The steps of the machine.** A step does what the program does next on the table as it is. -/
theorem eval_rest_of_advance (ht : t.serverTable = s.entries.map TableEntry.server)
    (hstep : s.advance = some s') :
    (s.rest tokens).eval env h t = (s'.rest tokens).eval env h t := by
  have hlen : t.serverTable.length = s.entries.length := by rw [ht, List.length_map]
  cases hpoint : s.point with
  | count => exact eval_rest_of_count env h ht hpoint hstep
  | bound i last =>
    simp only [advance, hpoint] at hstep
    split at hstep
    · rename_i hi
      rw [← Option.some.inj hstep, rest, hpoint]
      simp only
      rw [Prog.eval_bind_of_eq (eval_getfsIndex_of_le env t (hlen ▸ hi) h)]
      cases last <;> rfl
    · rename_i hi
      rw [← Option.some.inj hstep, rest, hpoint]
      simp only
      rw [Prog.eval_bind_of_eq (eval_getfsIndex env h t (by omega))]
      rfl
  | address i last =>
    simp only [advance, hpoint, Option.some.injEq] at hstep
    rw [← hstep, rest, hpoint]
    simp only [eval_usePointer_some]
    rfl
  | ip p last =>
    cases p with
    | none => simp only [advance, hpoint] at hstep; exact absurd hstep (by simp)
    | some p =>
      simp only [advance, hpoint, Option.map_eq_some_iff] at hstep
      obtain ⟨a, ha, rfl⟩ := hstep
      have hread := eval_derefServer_of_target env h ht ha
      simp only [rest, hpoint]
      rw [Prog.eval_bind_of_eq hread, Prog.eval_bind_of_eq hread]
      rfl
  | port p a last =>
    simp only [advance, hpoint, Option.map_eq_some_iff] at hstep
    obtain ⟨b, hb, rfl⟩ := hstep
    simp only [rest, hpoint]
    rw [Prog.eval_bind_of_eq (eval_derefServer_of_target env h ht hb)]
    rfl
  | query i w last => simp only [advance, hpoint] at hstep; exact absurd hstep (by simp)
  | done => simp only [advance, hpoint] at hstep; exact absurd hstep (by simp)

/-- The exchange asks the environment, and the call goes on with the answer. -/
theorem eval_rest_of_answer {i : ℕ} {w : FileServer} {last : Bool}
    (hpoint : s.point = .query i w last)
    (hstep : s.answered (env h (s.call.request tokens w last)) = some s') :
    (s.rest tokens).eval env h t =
      (s'.rest tokens).eval env (h ++ [s.call.request tokens w last]) t := by
  have hrest : s.rest tokens = s.exchange tokens i w last := by rw [rest, hpoint]
  rw [hrest]
  cases last with
  | true =>
    simp only [answered, hpoint, Option.some.injEq] at hstep
    rw [← hstep]
    rfl
  | false =>
    change (s.afterListing tokens i (lsAnswer (env h _))).eval env (h ++ [_]) t = _
    generalize s.call.request tokens w false = q at hstep ⊢
    cases hcall : s.call with
    | workerLs freshBlock =>
      cases hls : lsAnswer (env h q) with
      | none =>
        simp only [answered, hpoint, hcall, hls, Option.some.injEq] at hstep
        rw [← hstep, rest_loopAt _ _ _ (by simp [hcall])]
        simp only [afterListing, hcall]
      | some ls =>
        simp only [answered, hpoint, hcall, hls, Option.some.injEq] at hstep
        rw [← hstep, rest_loopAt _ _ _ (by simp [appendLs, hcall])]
        simp only [afterListing, hcall]
    | findByFile file =>
      cases hls : lsAnswer (env h q) with
      | none => simp only [answered, hpoint, hcall, hls] at hstep; exact absurd hstep (by simp)
      | some ls =>
        simp only [answered, hpoint, hcall, hls, Option.some.injEq] at hstep
        simp only [afterListing, hcall]
        rw [← hstep]
        split
        · rfl
        · rw [rest_loopAt _ _ _ (by simp [hcall])]
    | leastLoad file data =>
      simp only [answered, hpoint, hcall] at hstep
      exact absurd hstep (by simp)

/-- The other thread does to the entries what the call does to the table. -/
theorem map_server_changed (s : LoopState) (c : TableChange) (base : ℕ) :
    (s.changed c base).entries.map TableEntry.server =
      c.applyTo (s.entries.map TableEntry.server) := by
  cases c with
  | add server => simp [changed, TableChange.applyTo]
  | remove id =>
    rw [TableChange.applyTo, List.eraseP_eq_eraseIdx, List.findIdx?_map, changed]
    change _ = match s.removedAt (.remove id) with
      | none => _
      | some idx => _
    cases s.removedAt (.remove id) with
    | none => rfl
    | some idx => exact (List.eraseIdx_map _ _ _).symm

/-! ### The machine run alone -/

theorem entries_of_advance (hstep : s.advance = some s') : s'.entries = s.entries := by
  unfold advance at hstep
  split at hstep
  · split at hstep <;> exact Option.some.inj hstep ▸ rfl
  · split at hstep <;> exact Option.some.inj hstep ▸ rfl
  · exact Option.some.inj hstep ▸ rfl
  · exact absurd hstep (by simp)
  · obtain ⟨a, -, rfl⟩ := Option.map_eq_some_iff.mp hstep
    rfl
  · obtain ⟨b, -, rfl⟩ := Option.map_eq_some_iff.mp hstep
    rfl
  · exact absurd hstep (by simp)
  · exact absurd hstep (by simp)

theorem entries_of_answered {r : Reply} (hstep : s.answered r = some s') :
    s'.entries = s.entries := by
  unfold answered at hstep
  split at hstep
  · exact Option.some.inj hstep ▸ rfl
  · split at hstep
    · exact Option.some.inj hstep ▸ rfl
    · exact Option.some.inj hstep ▸ rfl
    · rw [← Option.some.inj hstep]
      split <;> rfl
    · exact absurd hstep (by simp)
  · exact absurd hstep (by simp)

/-- A run of the machine without the other thread, on the answers of the environment: the exchanges
made before it and at its end. -/
inductive AloneRun (tokens : Tokens) (env : List Request → Request → Reply) :
    List Request → LoopState → List Request → LoopState → Prop
  | done (h : List Request) (s : LoopState) : AloneRun tokens env h s h s
  | advance {h h' : List Request} {s s' s'' : LoopState} (hstep : s.advance = some s')
      (hr : AloneRun tokens env h s' h' s'') : AloneRun tokens env h s h' s''
  | answer {h h' : List Request} {s s' s'' : LoopState} {i : ℕ} {w : FileServer} {last : Bool}
      (hpoint : s.point = .query i w last)
      (hstep : s.answered (env h (s.call.request tokens w last)) = some s')
      (hr : AloneRun tokens env (h ++ [s.call.request tokens w last]) s' h' s'') :
      AloneRun tokens env h s h' s''

theorem AloneRun.eval_rest {h h' : List Request} (hr : AloneRun tokens env h s h' s')
    (ht : t.serverTable = s.entries.map TableEntry.server) :
    (s.rest tokens).eval env h t = (s'.rest tokens).eval env h' t := by
  induction hr with
  | done h s => rfl
  | advance hstep hr ih =>
    rw [eval_rest_of_advance env _ ht hstep]
    exact ih (by rw [ht, entries_of_advance hstep])
  | answer hpoint hstep hr ih =>
    rw [eval_rest_of_answer env _ hpoint hstep]
    exact ih (by rw [ht, entries_of_answered hstep])

/-- **The machine alone.** Run to its end without the other thread, it makes the exchanges of the
program, which returns and leaves the table as it was. -/
theorem AloneRun.eval_prog {h h' : List Request} (hr : AloneRun tokens env h s h' s')
    (hstart : s.point = .count) (hdone : s'.point = .done)
    (ht : t.serverTable = s.entries.map TableEntry.server) :
    (s.call.prog tokens).eval env h t = (h', some ((), t)) := by
  have heval := hr.eval_rest env ht
  have hfirst : s.rest tokens = s.call.prog tokens := by rw [rest, hstart]
  have hlast : s'.rest tokens = Prog.ret () := by rw [rest, hdone]; rfl
  rw [hfirst, hlast] at heval
  exact heval

end LoopState

/-- A call before its first step. -/
structure LoopState.Begins (s : LoopState) : Prop where
  /-- No step was taken. -/
  point : s.point = .count
  /-- No worker was asked. -/
  asked : s.asked = []
  /-- No count was read. -/
  sampled : s.sampled = 0
  /-- The entries have numbers of their own. -/
  nodup : s.tags.Nodup
  /-- The next number is a new one. -/
  lt_nextTag : ∀ a ∈ s.entries, a.tag < s.nextTag

end PekarDrive
