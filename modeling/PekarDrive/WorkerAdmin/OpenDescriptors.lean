import PekarDrive.Foundation.Runs
import PekarDrive.Packet.Connection
import PekarDrive.WorkerAdmin.Deletion
import PekarDrive.WorkerAdmin.PingRound
import Mathlib.Data.List.Count

/-!
# Descriptors left open

The operations of the master on its workers, and the descriptors that are open when they return.
Each exchange makes a connection of its own. `worker_write` and `worker_delete` close it;
`ping_server` and `worker_ls_index` do not, and a connection that could not be made is closed as
descriptor zero.

## Main definitions

* `PekarDrive.MasterOp`: the operations.
* `PekarDrive.Exchange`, `PekarDrive.openAfter`: exchanges and the descriptors after them.
* `PekarDrive.opStep`: one operation after the other.
* `PekarDrive.Balanced`: the exchanges close what they have opened.

## Main results

* `PekarDrive.sameOpen_openAfter_iff`: one operation.
* `PekarDrive.forall_sameOpen_iff`: runs of operations.
-/

namespace PekarDrive

open CText Descriptors LockedThreads StepRuns

/-! ### Exchanges and descriptors -/

/-- What an exchange does with descriptors. -/
structure Exchange where
  /-- The connection is closed in the end. -/
  closes : Bool
  /-- How `client_init` goes. -/
  outcome : InitOutcome
  deriving DecidableEq

/-- The descriptors after one exchange. -/
def Exchange.run (t : Table) (x : Exchange) : Table :=
  let (c, t') := clientInit t x.outcome
  if x.closes then (connClose t' c).2 else t'

/-- The descriptors after several exchanges. -/
def openAfter (t : Table) (xs : List Exchange) : Table := xs.foldl Exchange.run t

/-- The same descriptors are open. -/
def SameOpen (t t' : Table) : Prop := ∀ fd, t.IsOpen fd ↔ t'.IsOpen fd

/-- The exchange leaves a descriptor open. -/
def Exchange.keeps (x : Exchange) : Bool := !x.closes && decide (x.outcome ≠ .socketFails)

/-- The exchanges close what they have opened, and nothing else. -/
def Balanced (t : Table) (xs : List Exchange) : Prop :=
  match xs.find? Exchange.closes with
  | none => xs.countP Exchange.keeps = 0
  | some ⟨_, .connected⟩ => xs.countP Exchange.keeps = 0
  -- descriptor zero is closed, which is one that was opened if it was free before
  | some ⟨_, .socketFails⟩ => ¬ t.IsOpen 0 ∧ xs.countP Exchange.keeps ≤ 1
  | some _ => ¬ t.IsOpen 0 ∧ xs.countP Exchange.keeps = 0

section Balance

variable (t : Table)

theorem isOpen_iterate_opened {fd : ℤ} (h : t.IsOpen fd) (m : ℕ) :
    (Table.opened^[m] t).IsOpen fd := by
  induction m with
  | zero => exact h
  | succ m ih =>
    rw [Function.iterate_succ_apply', Table.isOpen_opened_iff]
    exact .inr ih

theorem isOpen_iterate_lowestFree (m : ℕ) : (Table.opened^[m + 1] t).IsOpen t.lowestFree := by
  rw [Function.iterate_succ_apply]
  exact isOpen_iterate_opened _ ((t.isOpen_opened_iff _).mpr (.inl rfl)) m

theorem sameOpen_congr_left {t₁ t₂ t : Table} (h : SameOpen t₁ t₂) :
    SameOpen t₁ t ↔ SameOpen t₂ t :=
  forall_congr' fun fd => by rw [h fd]

/-- Closing what was opened last. -/
theorem sameOpen_close_lowestFree : SameOpen (t.opened.close t.lowestFree) t := by
  intro fd
  rw [Table.isOpen_close_iff, Table.isOpen_opened_iff]
  have hne : t.IsOpen fd → fd ≠ t.lowestFree := fun h heq => t.not_isOpen_lowestFree (heq ▸ h)
  exact ⟨fun h => h.2.resolve_left h.1, fun h => ⟨hne h, .inr h⟩⟩

/-- Openings leave the same descriptors open only if there are none. -/
theorem sameOpen_iterate_opened_iff (m : ℕ) : SameOpen (Table.opened^[m] t) t ↔ m = 0 := by
  constructor
  · intro h
    cases m with
    | zero => rfl
    | succ m =>
      exact absurd ((h _).mp (isOpen_iterate_lowestFree t m)) t.not_isOpen_lowestFree
  · rintro rfl fd
    rfl

/-- Closing descriptor zero makes up for one opening at most, if it was free. -/
theorem sameOpen_close_iterate_opened_iff (m : ℕ) :
    SameOpen ((Table.opened^[m] t).close 0) t ↔ ¬ t.IsOpen 0 ∧ m ≤ 1 := by
  have hclosed : ¬ ((Table.opened^[m] t).close 0).IsOpen 0 := by simp [Table.isOpen_close_iff]
  constructor
  · intro h
    refine ⟨fun h0 => hclosed ((h 0).mpr h0), ?_⟩
    by_contra hm
    obtain ⟨n, rfl⟩ := Nat.exists_eq_add_of_le (show 2 ≤ m by omega)
    -- two numbers have been opened, and only one of them can be zero
    have hzero : ∀ l, (Table.opened^[2 + n] t).IsOpen l → ¬ t.IsOpen l → l = 0 := by
      intro l hl hnot
      by_contra hne
      exact hnot ((h l).mp ((Table.isOpen_close_iff _ _ _).mpr ⟨hne, hl⟩))
    have hiter : Table.opened^[2 + n] t = Table.opened^[n + 1] t.opened := by
      rw [← Function.iterate_succ_apply]
      congr 1
      omega
    have hfirst := hzero t.lowestFree (by
      rw [Nat.add_comm 2 n]
      exact isOpen_iterate_lowestFree t (n + 1)) t.not_isOpen_lowestFree
    have hsecond := hzero t.opened.lowestFree (hiter ▸ isOpen_iterate_lowestFree t.opened n)
      fun hl => t.opened.not_isOpen_lowestFree ((t.isOpen_opened_iff _).mpr (.inr hl))
    refine t.opened.not_isOpen_lowestFree ((t.isOpen_opened_iff _).mpr (.inl ?_))
    rw [hfirst, hsecond]
  · rintro ⟨h0, hm⟩ fd
    have hne : t.IsOpen fd → fd ≠ 0 := fun hfd heq => h0 (heq ▸ hfd)
    rw [Table.isOpen_close_iff]
    rcases Nat.le_one_iff_eq_zero_or_eq_one.mp hm with rfl | rfl
    · exact ⟨fun h => h.2, fun h => ⟨hne h, h⟩⟩
    · have hfree : t.lowestFree = 0 :=
        Nat.le_zero.mp (t.lowestFree_le (n := 0) (by simpa [Table.IsOpen] using h0))
      rw [Function.iterate_one, Table.isOpen_opened_iff, hfree]
      exact ⟨fun h => h.2.resolve_left h.1, fun h => ⟨hne h, .inr h⟩⟩

theorem openAfter_append (xs ys : List Exchange) :
    openAfter t (xs ++ ys) = openAfter (openAfter t xs) ys :=
  List.foldl_append

/-- Exchanges that close nothing open a descriptor for each socket made. -/
theorem openAfter_of_not_closes {xs : List Exchange} (hxs : ∀ x ∈ xs, x.closes = false) :
    openAfter t xs = Table.opened^[xs.countP Exchange.keeps] t := by
  induction xs generalizing t with
  | nil => rfl
  | cons x xs ih =>
    obtain ⟨hx, hxs⟩ := List.forall_mem_cons.mp hxs
    change openAfter (x.run t) xs = _
    have hrun : x.run t = if x.outcome = .socketFails then t else t.opened := by
      rw [← table_clientInit, Exchange.run, hx]
      rfl
    rw [ih _ hxs, hrun, List.countP_cons]
    by_cases hout : x.outcome = .socketFails
    · simp [Exchange.keeps, hout]
    · simp [Exchange.keeps, hout, hx, Function.iterate_succ_apply]

/-- **The balance of an operation.** Exchanges of which at most the last closes its connection
leave the same descriptors open exactly when they are balanced. -/
theorem sameOpen_openAfter_iff {xs ys : List Exchange} (hxs : ∀ x ∈ xs, x.closes = false)
    (hys : ∀ y ∈ ys, y.closes = true) (hlen : ys.length ≤ 1) :
    SameOpen (openAfter t (xs ++ ys)) t ↔ Balanced t (xs ++ ys) := by
  have hfind : (xs ++ ys).find? Exchange.closes = ys.head? := by
    rw [List.find?_append, List.find?_eq_none.mpr fun x hx => by simp [hxs x hx]]
    cases ys with
    | nil => rfl
    | cons y ys => simp [hys y List.mem_cons_self]
  have hcount : (xs ++ ys).countP Exchange.keeps = xs.countP Exchange.keeps := by
    have hlast : ys.countP Exchange.keeps = 0 :=
      List.countP_eq_zero.mpr fun y hy => by simp [Exchange.keeps, hys y hy]
    rw [List.countP_append, hlast, Nat.add_zero]
  rw [openAfter_append, openAfter_of_not_closes t hxs, Balanced, hfind, hcount]
  generalize xs.countP Exchange.keeps = m
  match ys, hlen with
  | [], _ => exact sameOpen_iterate_opened_iff t m
  | [⟨closes, outcome⟩], _ =>
    obtain rfl : closes = true := hys _ List.mem_cons_self
    have hsucc : SameOpen ((Table.opened^[m] t).opened.close 0) t ↔ ¬ t.IsOpen 0 ∧ m = 0 := by
      rw [← Function.iterate_succ_apply' Table.opened m t, sameOpen_close_iterate_opened_iff,
        Nat.succ_le_iff, Nat.lt_one_iff]
    cases outcome with
    | connected =>
      rw [← sameOpen_iterate_opened_iff t m]
      exact sameOpen_congr_left (sameOpen_close_lowestFree _)
    | socketFails => exact sameOpen_close_iterate_opened_iff t m
    | _ => exact hsucc

end Balance

/-! ### The operations -/

/-- An operation of the master on its workers. -/
inductive MasterOp
  /-- One ping round. -/
  | pingRound
  /-- `worker_ls`. -/
  | ls (freshBlock : List UInt8)
  /-- `worker_write`. -/
  | write (file data : CString)
  /-- `worker_delete`. -/
  | delete (file : CString)

/-- The program of an operation, its result dropped. -/
def MasterOp.prog (tokens : Tokens) : MasterOp → TableProg Request Reply Unit
  | pingRound => forEachServer (pingServer tokens)
  | ls freshBlock => do
    let _ ← workerLs tokens freshBlock
    return ()
  | write file data => do
    let _ ← workerWrite tokens file data
    return ()
  | delete file => workerDelete tokens file

/-- The exchange closes its connection: the one of `worker_write` and the one of `worker_delete`
do. -/
def Request.closesConn (q : Request) : Bool :=
  q.packet.msgType == MsgType.write.code || q.packet.msgType == MsgType.delete.code

/-- An operation with all that it meets. -/
structure OpEvent where
  /-- The operation. -/
  op : MasterOp
  /-- The server table. -/
  table : ServerTable
  /-- What the writes and reads return. -/
  env : List Request → Request → Reply
  /-- How each `client_init` goes. -/
  outcomes : ℕ → InitOutcome

namespace OpEvent

/-- The run of the operation. -/
def run (tokens : Tokens) (e : OpEvent) : List Request × Option (Unit × ServerTable) :=
  (e.op.prog tokens).eval e.env [] e.table

/-- Its exchanges. -/
def exchanges (tokens : Tokens) (e : OpEvent) : List Exchange :=
  (e.run tokens).1.zipIdx.map fun q => ⟨q.1.closesConn, e.outcomes q.2⟩

end OpEvent

/-- The descriptors after an operation, if it returns. -/
def opStep (tokens : Tokens) (t : Table) (e : OpEvent) : Option Table :=
  (e.run tokens).2.map fun _ => openAfter t (e.exchanges tokens)

/-- At most the last exchange closes its connection. -/
def ClosesLast (qs : List Request) : Prop :=
  ∃ kept last, qs = kept ++ last ∧ (∀ q ∈ kept, q.closesConn = false) ∧
    (∀ q ∈ last, q.closesConn = true) ∧ last.length ≤ 1

section Operations

variable (tokens : Tokens)

theorem closesLast_of_forall {qs : List Request} (h : ∀ q ∈ qs, q.closesConn = false) :
    ClosesLast qs :=
  ⟨qs, [], (List.append_nil qs).symm, h, by simp, by simp⟩

theorem closesLast_of_within {p : TableProg Request Reply Unit} {W : Prop}
    (hp : p.Within W fun q => q.closesConn = false) (env : List Request → Request → Reply)
    (t : ServerTable) : ClosesLast (p.eval env [] t).1 :=
  closesLast_of_forall (hp.forall_mem_eval env (by simp) t)

theorem closesLast_searchHistory (t : ServerTable) (i : ℕ) {last : List Request}
    (hlast : ∀ q ∈ last, q.closesConn = true) (hlen : last.length ≤ 1) :
    ClosesLast (searchHistory tokens [] t i ++ last) := by
  refine ⟨_, last, rfl, ?_, hlast, hlen⟩
  intro q hq
  obtain ⟨w, -, rfl⟩ := List.mem_map.mp hq
  rfl

/-- The exchanges of an operation. -/
theorem closesLast_run (e : OpEvent) : ClosesLast (e.run tokens).1 := by
  obtain ⟨op, t, env, outcomes⟩ := e
  cases op with
  | pingRound =>
    refine closesLast_of_within (within_forEachServer fun w => within_pingServer tokens ?_) env t
    rfl
  | ls freshBlock =>
    have hls := within_workerLs (W := True) (P := fun q => q.closesConn = false) tokens
      (fun w => rfl) freshBlock
    exact closesLast_of_within (hls.bind (f := fun _ => Prog.ret ()) fun _ => trivial) env t
  | write file data =>
    change ClosesLast ((workerWrite tokens file data >>= fun _ => Prog.ret ()).eval env [] t).1
    cases hw : t.serverTable[0]? with
    | none =>
      have hnil : t.serverTable = [] :=
        List.length_eq_zero_iff.mp (Nat.le_zero.mp (List.getElem?_eq_none_iff.mp hw))
      rw [Prog.eval_bind_of_eq (eval_workerWrite_of_nil tokens env [] file data hnil)]
      exact closesLast_of_forall (by simp)
    | some w =>
      rw [Prog.eval_bind_of_eq (eval_workerWrite tokens env [] file data hw)]
      exact ⟨[], [writeRequest tokens file data w], rfl, by simp, by simp; rfl, le_rfl⟩
  | delete file =>
    change ClosesLast ((workerDelete tokens file).eval env [] t).1
    rw [eval_workerDelete]
    cases hstop : searchStop tokens env [] t file with
    | none => exact List.append_nil (searchHistory tokens [] t _) ▸
        closesLast_searchHistory tokens t _ (by simp) (by simp)
    | some i =>
      refine closesLast_searchHistory tokens t (i + 1) ?_ ?_
      · intro q hq
        split at hq
        · exact absurd hq List.not_mem_nil
        · obtain ⟨w, -, rfl⟩ := Option.map_eq_some_iff.mp (Option.mem_toList.mp hq)
          rfl
      · split
        · exact Nat.zero_le _
        · exact Option.length_toList_le

theorem closesLast_exchanges (e : OpEvent) : ∃ xs ys, e.exchanges tokens = xs ++ ys ∧
    (∀ x ∈ xs, x.closes = false) ∧ (∀ y ∈ ys, y.closes = true) ∧ ys.length ≤ 1 := by
  obtain ⟨kept, last, hio, hkept, hlast, hlen⟩ := closesLast_run tokens e
  refine ⟨_, _, by rw [OpEvent.exchanges, hio, List.zipIdx_append, List.map_append], ?_, ?_, ?_⟩
  · intro x hx
    obtain ⟨q, hq, rfl⟩ := List.mem_map.mp hx
    exact hkept q.1 (List.fst_mem_of_mem_zipIdx hq)
  · intro x hx
    obtain ⟨q, hq, rfl⟩ := List.mem_map.mp hx
    exact hlast q.1 (List.fst_mem_of_mem_zipIdx hq)
  · rwa [List.length_map, List.length_zipIdx]

end Operations

/-- **Descriptors left open.** In a run of operations, the open descriptors are those of the start
whenever an operation has returned if and only if every operation is balanced: apart from the
connection that `worker_write` and `worker_delete` close, no socket is made. -/
theorem forall_sameOpen_iff {tokens : Tokens} {t t' : Table} {trace : List (Table × OpEvent)}
    (hr : Run (opStep tokens) t trace t') :
    (∀ x ∈ visited trace t', SameOpen x t) ↔
      ∀ x ∈ trace, Balanced x.1 (x.2.exchanges tokens) := by
  have hiff : ∀ s e s', True → SameOpen s t → opStep tokens s e = some s' →
      (SameOpen s' t ↔ Balanced s (e.exchanges tokens)) := by
    intro s e s' _ hs hstep
    obtain ⟨out, -, rfl⟩ := Option.map_eq_some_iff.mp hstep
    obtain ⟨xs, ys, heq, hxs, hys, hlen⟩ := closesLast_exchanges tokens e
    rw [heq, ← sameOpen_openAfter_iff s hxs hys hlen]
    exact ⟨fun h fd => (h fd).trans (hs fd).symm, fun h fd => (h fd).trans (hs fd)⟩
  exact hr.forall_visited_iff (fun _ _ _ _ _ => trivial) hiff trivial fun _ => Iff.rfl

/-! ### Small runs -/

/-- A WRITE to one worker, which can be reached. -/
def writtenOnce : OpEvent where
  op := .write (lit "a") (lit "x")
  table := oneServer
  env _ _ := silentReply
  outcomes _ := .connected

/-- The connection of a WRITE is closed. -/
theorem sameOpen_writtenOnce :
    SameOpen (openAfter standardTable [⟨true, .connected⟩]) standardTable := by
  have hstep : opStep exampleTokens standardTable writtenOnce =
      some (openAfter standardTable [⟨true, .connected⟩]) := rfl
  refine (forall_sameOpen_iff (.step hstep (.done _))).mpr ?_ _ (mem_visited_last _ _)
  rintro x hx
  obtain rfl := List.mem_singleton.mp hx
  change List.countP _ _ = 0
  decide

/-- One ping round over one worker, which can be reached and answers. -/
def answeredRound : OpEvent where
  op := .pingRound
  table := oneServer
  env _ _ := pingReply
  outcomes _ := .connected

/-- The connection of a ping stays open. -/
theorem not_forall_sameOpen : ¬ ∀ (tokens : Tokens) (t t' : Table) (trace : List (Table × OpEvent)),
    Run (opStep tokens) t trace t' → ∀ x ∈ visited trace t', SameOpen x t := by
  intro h
  obtain ⟨table, hrun, -⟩ := pingRound_eq exampleTokens (fun _ => pingReply) (t := oneServer)
    (by decide)
  have hstep : opStep exampleTokens standardTable answeredRound =
      some (openAfter standardTable [⟨false, .connected⟩]) := by
    have hround : answeredRound.run exampleTokens =
        ([pingRequest exampleTokens (exampleServer 1)], some ((), table)) := hrun
    rw [opStep, OpEvent.exchanges, hround]
    rfl
  have hsame := h exampleTokens standardTable _ [(standardTable, answeredRound)]
    (.step hstep (.done _)) _ (mem_visited_last _ _)
  exact absurd ((hsame 3).mp (by decide)) (by decide)

end PekarDrive
