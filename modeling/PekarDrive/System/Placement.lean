import PekarDrive.Foundation.Runs
import PekarDrive.Worker.Directory
import PekarDrive.WorkerAdmin.Deletion
import PekarDrive.WorkerAdmin.Listings
import Mathlib.Data.List.Count

/-!
# Where the files are

A WRITE goes to the first worker of the table, a DELETE to the first one whose listing has the
name. Which worker is the first changes with registrations and removals, and a worker that is
registered twice is asked twice. What a worker has in its directory after a request, and what the
workers answer, is left open; a directory belongs to an address, so a removed worker keeps its files
and a worker that registers again has them again. That a worker's own code stores a written file
under its name, and answers LS with the names of its directory, are `exists_lists_fsWriteFile` and
`exists_eval_fileList_of_lists`.

A name is listed once as long as at most one entry of the table has it. A registration of a worker
with a written name that another entry has, a WRITE while another entry has the address of the
first or the name, and a registration of a worker with a deleted name end that.

## Main definitions

* `PekarDrive.Cluster`, `PekarDrive.ClusterEvent`, `PekarDrive.clusterStep`.
* `PekarDrive.Cluster.Answers`: the workers answer with what is in their directories.
* `PekarDrive.Cluster.ListsOnce`: each written name is listed at most once, and no deleted one.
* `PekarDrive.Cluster.Keeps`: the steps after which this still holds.
* `PekarDrive.Cluster.holders`, `PekarDrive.Cluster.Placed`: the invariant.

## Main results

* `PekarDrive.placement`.
-/

namespace PekarDrive

open CText LockedThreads StepRuns

/-! ### The state -/

/-- The master and its workers between two steps. -/
structure Cluster where
  /-- The server table. -/
  table : ServerTable
  /-- The directory of the worker at an address, registered or not. -/
  dirs : Location → Directory
  /-- The names that were written. -/
  written : List CString
  /-- The names that were deleted and not written since. -/
  deleted : List CString

/-- A step of the master with what the contacted worker does. -/
inductive ClusterEvent
  /-- A worker registers. -/
  | register (w : FileServer)
  /-- A WRITE; the answers, and the name under which the worker stores the file, if it does. -/
  | write (f data : CString) (env : List Request → Request → Reply) (entry : Option CString)
  /-- A DELETE; the answers, and the names that the worker removes. -/
  | delete (f : CString) (env : List Request → Request → Reply) (removed : List CString)
  /-- A worker is removed from the table. -/
  | remove (id : UInt64)

namespace Cluster

variable (s : Cluster)

/-- The names in the directory of a registered worker. -/
def namesAt (w : FileServer) : List CString := (s.dirs w.location).names

/-- The worker `w` stores a file that was written as `f` under the name `g`. -/
def store (w : FileServer) (f g : CString) : Cluster :=
  { s with
    dirs := Function.update s.dirs w.location ((s.dirs w.location).insert g)
    written := f :: s.written
    deleted := s.deleted.filter fun f' => decide (f' ≠ f) }

/-- The worker `w` is asked to delete `f` and removes some names. -/
def discard (w : FileServer) (f : CString) (removed : List CString) : Cluster :=
  { s with
    dirs := Function.update s.dirs w.location ((s.dirs w.location).discard removed)
    deleted := if f ∈ s.namesAt w then f :: s.deleted else s.deleted }

end Cluster

/-- A step, if it can happen: the process does not stop in it. -/
def clusterStep (tokens : Tokens) (s : Cluster) : ClusterEvent → Option Cluster
  | .register w => (s.table.add w).map fun t => { s with table := t }
  | .write f data env entry =>
    match ((workerWrite tokens f data).eval env [] s.table).1.head?, entry with
    | some q, some g => some (s.store q.server f g)
    | _, _ => some s
  | .delete f env removed =>
    match ((workerDelete tokens f).eval env [] s.table).2,
      (deletesSent tokens env [] s.table f).head? with
    | none, _ => none
    | some _, none => some s
    | some _, some q => some (s.discard q.server f removed)
  | .remove id => some { s with table := s.table.remove id }

namespace Cluster

variable (tokens : Tokens) (s : Cluster)

/-- No worker is registered, and nothing was written. -/
structure Starts : Prop where
  /-- The table is empty. -/
  table : s.table = .empty
  /-- No name was written. -/
  written : s.written = []

/-! ### The property -/

/-- Each answer to an LS is the text of the names in the directory of the worker, in any order. -/
def Answers (env : List Request → Request → Reply) : Prop :=
  ∀ h, ∀ w ∈ s.table.serverTable, ∀ ls ∈ lsAnswer (env h (lsRequest tokens w)), ∃ names behind,
    names.Perm (lit "." :: lit ".." :: s.namesAt w) ∧ ls = fileListToStr names (0 :: behind)

/-- Whatever the workers answer, each name that was written is listed at most once, and no more
when it was deleted. -/
def ListsOnce : Prop :=
  ∀ env freshBlock, s.Answers tokens env → ∀ f ∈ s.written, f ≠ lit "." → f ≠ lit ".." →
    (listed tokens env s.table freshBlock).count f.bytes ≤ 1 ∧
    (f ∈ s.deleted → f.bytes ∉ listed tokens env s.table freshBlock)

/-! ### The condition on the steps -/

/-- The step keeps each written name from being at two entries of the table, and each deleted one
from being at any. -/
def Keeps : ClusterEvent → Prop
  | .register w => (∀ f ∈ s.namesAt w, 10 ∉ f.bytes) ∧ ∀ f ∈ s.written, f ∈ s.namesAt w →
      f ∉ s.deleted ∧ ∀ v ∈ s.table.serverTable, f ∉ s.namesAt v
  | .write f _ _ entry => ∀ g ∈ entry, g = f ∧ 10 ∉ f.bytes ∧
      ∀ w ∈ s.table.serverTable.head?, ∀ v ∈ s.table.serverTable.tail,
        v.location ≠ w.location ∧ f ∉ s.namesAt v
  | .delete f _ removed => f ∈ removed
  | .remove _ => True

/-! ### The invariant -/

/-- The number of entries whose worker has the file. -/
def holders (f : CString) : ℕ := s.table.serverTable.countP fun w => decide (f ∈ s.namesAt w)

/-- Each written name is at one entry at most, and each deleted one at none. -/
structure Placed : Prop where
  /-- Each name is one line of a listing. -/
  newlineFree : ∀ w ∈ s.table.serverTable, ∀ f ∈ s.namesAt w, 10 ∉ f.bytes
  /-- No written name is at two entries. -/
  once : ∀ f ∈ s.written, s.holders f ≤ 1
  /-- No deleted name is at any. -/
  gone : ∀ f ∈ s.written, f ∈ s.deleted → s.holders f = 0

section Steps

variable {tokens : Tokens} {s s' : Cluster} {f g : CString}

theorem mem_namesAt_store {v w : FileServer} : g ∈ (s.store w f f).namesAt v ↔
    g ∈ s.namesAt v ∨ g = f ∧ v.location = w.location := by
  simp only [namesAt, store]
  by_cases hloc : v.location = w.location
  · rw [hloc, Function.update_self, Directory.mem_names_insert, or_comm]
    simp
  · rw [Function.update_of_ne hloc]
    simp [hloc]

theorem mem_namesAt_discard {v w : FileServer} {removed : List CString} :
    g ∈ (s.discard w f removed).namesAt v ↔
      g ∈ s.namesAt v ∧ (v.location = w.location → g ∉ removed) := by
  simp only [namesAt, discard]
  by_cases hloc : v.location = w.location
  · rw [hloc, Function.update_self, Directory.mem_names_discard]
    simp
  · rw [Function.update_of_ne hloc]
    simp [hloc]

/-- A worker registers. -/
theorem Placed.register (h : s.Placed) {w : FileServer} {t : ServerTable}
    (hadd : s.table.add w = some t) (hok : s.Keeps (.register w)) :
    ({ s with table := t } : Cluster).Placed := by
  obtain ⟨hlines, hnew⟩ := hok
  have htab := ServerTable.serverTable_add hadd
  have hholders : ∀ f, ({ s with table := t } : Cluster).holders f =
      s.holders f + if f ∈ s.namesAt w then 1 else 0 := by
    intro f
    rw [holders, htab, List.countP_append, List.countP_singleton]
    simp only [decide_eq_true_eq]
    rfl
  have hzero : ∀ f ∈ s.written, f ∈ s.namesAt w → s.holders f = 0 := fun f hf hfw =>
    List.countP_eq_zero.mpr fun v hv => by simpa using (hnew f hf hfw).2 v hv
  refine ⟨fun v hv => ?_, fun f hf => ?_, fun f hf hdel => ?_⟩
  · rw [htab] at hv
    rcases List.mem_append.mp hv with hv | hv
    · exact h.newlineFree v hv
    · exact List.mem_singleton.mp hv ▸ hlines
  · rw [hholders]
    split
    · rw [hzero f hf ‹_›]
    · exact h.once f hf
  · rw [hholders]
    split
    · exact absurd hdel (hnew f hf ‹_›).1
    · exact h.gone f hf hdel

/-- A worker is removed. -/
theorem Placed.remove (h : s.Placed) (id : UInt64) :
    ({ s with table := s.table.remove id } : Cluster).Placed := by
  have hsub : (s.table.remove id).serverTable.Sublist s.table.serverTable := by
    rw [ServerTable.serverTable_remove]
    exact List.eraseP_sublist
  have hholders : ∀ f, ({ s with table := s.table.remove id } : Cluster).holders f ≤
      s.holders f := fun f => hsub.countP_le
  exact ⟨fun w hw => h.newlineFree w (hsub.subset hw),
    fun f hf => (hholders f).trans (h.once f hf),
    fun f hf hdel => Nat.le_zero.mp ((h.gone f hf hdel) ▸ hholders f)⟩

/-- The first worker stores a file. -/
theorem Placed.store (h : s.Placed) {w : FileServer} {ws : List FileServer}
    (htab : s.table.serverTable = w :: ws) (hnewline : 10 ∉ f.bytes)
    (hothers : ∀ v ∈ ws, v.location ≠ w.location ∧ f ∉ s.namesAt v) :
    (s.store w f f).Placed := by
  have hsame : ∀ g, g ≠ f → (s.store w f f).holders g = s.holders g := by
    intro g hg
    refine List.countP_congr fun v _ => ?_
    simp [mem_namesAt_store, hg]
  have hone : (s.store w f f).holders f = 1 := by
    have hws : ws.countP (fun v => decide (f ∈ (s.store w f f).namesAt v)) = 0 := by
      refine List.countP_eq_zero.mpr fun v hv => ?_
      simp [mem_namesAt_store, hothers v hv]
    rw [holders]
    change s.table.serverTable.countP _ = 1
    rw [htab, List.countP_cons, hws]
    simp [mem_namesAt_store]
  refine ⟨fun v hv g hg => ?_, fun g hg => ?_, fun g hg hdel => ?_⟩
  · rcases mem_namesAt_store.mp hg with hg | ⟨rfl, -⟩
    · exact h.newlineFree v hv g hg
    · exact hnewline
  · by_cases hgf : g = f
    · rw [hgf, hone]
    · rw [hsame g hgf]
      exact h.once g ((List.mem_cons.mp hg).resolve_left hgf)
  · obtain ⟨hdel, hgf⟩ := List.mem_filter.mp hdel
    have hgf : g ≠ f := by simpa using hgf
    rw [hsame g hgf]
    exact h.gone g ((List.mem_cons.mp hg).resolve_left hgf) hdel

/-- The entry that has the name is the only one; without it there is none left. -/
theorem holders_discard_eq_zero {w : FileServer} (hw : w ∈ s.table.serverTable)
    {removed : List CString} (hf : f ∈ removed) (hfw : f ∈ s.namesAt w) (hone : s.holders f ≤ 1) :
    (s.discard w f removed).holders f = 0 := by
  refine List.countP_eq_zero.mpr fun v hv hfv => ?_
  have hfv := mem_namesAt_discard.mp (of_decide_eq_true hfv)
  have hne : v ≠ w := fun heq => hfv.2 (heq ▸ rfl) hf
  obtain ⟨pre, post, htab⟩ := List.append_of_mem hw
  rw [holders, htab, List.countP_append, List.countP_cons_of_pos (by simpa using hfw)] at hone
  obtain ⟨hpre, hpost⟩ : pre.countP (fun w => decide (f ∈ s.namesAt w)) = 0 ∧
      post.countP (fun w => decide (f ∈ s.namesAt w)) = 0 := by omega
  have hnot : ∀ vs : List FileServer, vs.countP (fun w => decide (f ∈ s.namesAt w)) = 0 → v ∉ vs :=
    fun vs hvs hmem => List.countP_eq_zero.mp hvs v hmem (by simpa using hfv.1)
  change v ∈ s.table.serverTable at hv
  rw [htab, List.mem_append, List.mem_cons] at hv
  exact hv.elim (hnot pre hpre) fun hv => hv.elim hne (hnot post hpost)

/-- A registered worker removes a file. -/
theorem Placed.discard (h : s.Placed) {w : FileServer} (hw : w ∈ s.table.serverTable)
    {removed : List CString} (hf : f ∈ removed) : (s.discard w f removed).Placed := by
  have hle : ∀ g, (s.discard w f removed).holders g ≤ s.holders g := fun g =>
    List.countP_mono_left fun v _ hv => by
      simpa using (mem_namesAt_discard.mp (by simpa using hv)).1
  refine ⟨fun v hv g hg => h.newlineFree v hv g (mem_namesAt_discard.mp hg).1,
    fun g hg => (hle g).trans (h.once g hg), fun g hg hdel => ?_⟩
  by_cases hold : g ∈ s.deleted
  · exact Nat.le_zero.mp (h.gone g hg hold ▸ hle g)
  · -- the name has just been deleted from the only entry that had it
    change g ∈ (if f ∈ s.namesAt w then f :: s.deleted else s.deleted) at hdel
    split at hdel
    · obtain rfl := (List.mem_cons.mp hdel).resolve_right hold
      exact holders_discard_eq_zero hw hf ‹_› (h.once g hg)
    · exact absurd hdel hold

/-- A WRITE goes to the first worker, which stores the file or does not. -/
theorem clusterStep_write {data : CString} {env : List Request → Request → Reply}
    {entry : Option CString} (hstep : clusterStep tokens s (.write f data env entry) = some s') :
    s' = s ∨ ∃ w ws g, s.table.serverTable = w :: ws ∧ entry = some g ∧ s' = s.store w f g := by
  simp only [clusterStep] at hstep
  cases htab : s.table.serverTable with
  | nil =>
    rw [eval_workerWrite_of_nil tokens env [] f data htab] at hstep
    exact .inl (Option.some.inj hstep).symm
  | cons w ws =>
    rw [eval_workerWrite tokens env [] f data (w := w) (by rw [htab]; rfl)] at hstep
    cases entry with
    | none => exact .inl (Option.some.inj hstep).symm
    | some g => exact .inr ⟨w, ws, g, rfl, rfl, (Option.some.inj hstep).symm⟩

theorem server_mem_of_deletesSent {env : List Request → Request → Reply} {h : List Request}
    {t : ServerTable} {q : Request} (hq : q ∈ deletesSent tokens env h t f) :
    q.server ∈ t.serverTable := by
  rw [deletesSent_eq] at hq
  split at hq
  · exact absurd hq List.not_mem_nil
  · split at hq
    · exact absurd hq List.not_mem_nil
    · obtain ⟨w, hw, rfl⟩ := Option.map_eq_some_iff.mp (Option.mem_toList.mp hq)
      exact List.mem_of_getElem? hw

/-- A DELETE goes to a worker of the table, or to none. -/
theorem clusterStep_delete {env : List Request → Request → Reply} {removed : List CString}
    (hstep : clusterStep tokens s (.delete f env removed) = some s') :
    s' = s ∨ ∃ w ∈ s.table.serverTable, s' = s.discard w f removed := by
  simp only [clusterStep] at hstep
  split at hstep
  · exact absurd hstep (by simp)
  · exact .inl (Option.some.inj hstep).symm
  · rename_i q _ hq
    exact .inr ⟨q.server, server_mem_of_deletesSent (List.mem_of_mem_head? hq),
      (Option.some.inj hstep).symm⟩

/-- **The steps.** -/
theorem Placed.step (h : s.Placed) {e : ClusterEvent} (hok : s.Keeps e)
    (hstep : clusterStep tokens s e = some s') : s'.Placed := by
  cases e with
  | register w =>
    obtain ⟨t, hadd, rfl⟩ := Option.map_eq_some_iff.mp hstep
    exact h.register hadd hok
  | write f data env entry =>
    rcases clusterStep_write hstep with rfl | ⟨w, ws, g, htab, rfl, rfl⟩
    · exact h
    · obtain ⟨rfl, hnewline, hothers⟩ := hok g rfl
      rw [htab] at hothers
      exact h.store htab hnewline (hothers w rfl)
  | delete f env removed =>
    rcases clusterStep_delete hstep with rfl | ⟨w, hw, rfl⟩
    · exact h
    · exact h.discard hw hok
  | remove id => exact Option.some.inj hstep ▸ h.remove id

end Steps

/-! ### The listings -/

section Listings

variable {tokens : Tokens} {s : Cluster} {env : List Request → Request → Reply} {f : CString}

/-- A worker lists a name if it is in its directory, and then once. -/
theorem count_answerLines_le (henv : s.Answers tokens env) (hs : s.Placed) (hdot : f ≠ lit ".")
    (hdotdot : f ≠ lit "..") (h : List Request) {w : FileServer}
    (hw : w ∈ s.table.serverTable) :
    (answerLines (lsAnswer (env h (lsRequest tokens w)))).count f.bytes ≤
      if f ∈ s.namesAt w then 1 else 0 := by
  cases hls : lsAnswer (env h (lsRequest tokens w)) with
  | none => exact Nat.zero_le _
  | some ls =>
    obtain ⟨names, behind, hperm, rfl⟩ := henv h w hw ls hls
    have hlines : ∀ name ∈ names, 10 ∉ name.bytes := by
      intro name hname
      rcases List.mem_cons.mp (hperm.subset hname) with rfl | hname
      · decide
      rcases List.mem_cons.mp hname with rfl | hname
      · decide
      exact hs.newlineFree w hw name hname
    have hne : names ≠ [] := fun hnil => by simp [hnil] at hperm
    have hcount : (s.namesAt w).count f ≤ if f ∈ s.namesAt w then 1 else 0 := by
      split
      · exact List.nodup_iff_count_le_one.mp (s.dirs w.location).nodup f
      · rw [List.count_eq_zero_of_not_mem ‹_›]
    rw [answerLines, lines_fileListToStr hne hlines,
      List.count_map_of_injective names CString.bytes (fun _ _ => CString.ext), hperm.count_eq,
      List.count_cons_of_ne hdot.symm, List.count_cons_of_ne hdotdot.symm]
    exact hcount

/-- All workers together list a name as often as they have it. -/
theorem count_lsAnswers_le (henv : s.Answers tokens env) (hs : s.Placed) (hdot : f ≠ lit ".")
    (hdotdot : f ≠ lit "..") (h : List Request) (ws : List FileServer)
    (hws : ∀ w ∈ ws, w ∈ s.table.serverTable) :
    ((lsAnswers tokens env h ws).flatMap answerLines).count f.bytes ≤
      ws.countP fun w => decide (f ∈ s.namesAt w) := by
  induction ws generalizing h with
  | nil => exact Nat.zero_le _
  | cons w ws ih =>
    have hfirst := count_answerLines_le henv hs hdot hdotdot h (hws w List.mem_cons_self)
    have hrest := ih (h ++ [lsRequest tokens w]) fun v hv => hws v (List.mem_cons_of_mem w hv)
    rw [lsAnswers, List.flatMap_cons, List.count_append, List.countP_cons]
    simp only [decide_eq_true_eq]
    omega

/-- **The listing.** Where each written name is at one entry at most, it is listed once at most. -/
theorem Placed.listsOnce (hs : s.Placed) : s.ListsOnce tokens := by
  intro env freshBlock henv f hf hdot hdotdot
  have hcount : (listed tokens env s.table freshBlock).count f.bytes ≤ s.holders f := by
    rw [listed_eq]
    exact count_lsAnswers_le henv hs hdot hdotdot [] s.table.serverTable fun _ hw => hw
  refine ⟨hcount.trans (hs.once f hf), fun hdel => ?_⟩
  rw [hs.gone f hf hdel] at hcount
  exact List.count_eq_zero.mp (Nat.le_zero.mp hcount)

end Listings

theorem Starts.placed {s : Cluster} (h : s.Starts) : s.Placed := by
  refine ⟨fun w hw => ?_, fun f hf => ?_, fun f hf => ?_⟩
  · rw [h.table] at hw
    exact absurd hw List.not_mem_nil
  · rw [h.written] at hf
    exact absurd hf List.not_mem_nil
  · rw [h.written] at hf
    exact absurd hf List.not_mem_nil

end Cluster

/-- **Placement.** In every run of registrations, WRITE and DELETE requests and removals whose steps
all keep the placement, `worker_ls` lists each written name at most once, and no name that was
deleted and not written since. -/
theorem placement {tokens : Tokens} {s s' : Cluster} {trace : List (Cluster × ClusterEvent)}
    (hr : Run (clusterStep tokens) s trace s') (hs : s.Starts)
    (hok : ∀ x ∈ trace, x.1.Keeps x.2) : ∀ x ∈ visited trace s', x.ListsOnce tokens := by
  have hplaced := hr.forall_visited_of_forall_trace (I := Cluster.Placed)
    (fun _ _ _ h hok hstep => h.step hok hstep) hs.placed hok
  exact fun x hx => (hplaced x hx).listsOnce

/-! ### Small runs -/

/-- The start, with empty directories. -/
def emptyCluster : Cluster := ⟨.empty, fun _ => ⟨[], List.nodup_nil⟩, [], []⟩

/-- Workers that answer each LS with the same names. -/
def listingOf (names : String) (_ : List Request) (_ : Request) : Reply := lsReply names

/-- A second worker at another address. -/
def otherServer : FileServer := ⟨2, 0, ⟨lit "10.0.0.3", 55443⟩⟩

/-- Only the first worker has the file. -/
def listingAtFirst (_ : List Request) (q : Request) : Reply :=
  if q.server = exampleServer 1 then lsReply ".\n..\na" else lsReply ".\n.."

/-- A file is written to the first of two workers and deleted again. -/
theorem listsOnce_deleted : ∃ trace s', Run (clusterStep exampleTokens) emptyCluster trace s' ∧
    s'.deleted = [lit "a"] ∧ s'.table.serverTable = [exampleServer 1, otherServer] ∧
    ∀ x ∈ visited trace s', x.ListsOnce exampleTokens := by
  obtain ⟨trace, s', hr, hdel, htab, hok⟩ : ∃ trace s',
      Run (clusterStep exampleTokens) emptyCluster trace s' ∧ s'.deleted = [lit "a"] ∧
      s'.table.serverTable = [exampleServer 1, otherServer] ∧ ∀ x ∈ trace, x.1.Keeps x.2 := by
    refine ⟨_, _, .step (e := .register (exampleServer 1)) rfl <|
      .step (e := .register otherServer) rfl <|
      .step (e := .write (lit "a") (lit "x") (listingOf ".\n..") (some (lit "a"))) rfl <|
      .step (e := .delete (lit "a") listingAtFirst [lit "a"]) rfl <| .done _, ?_, rfl, ?_⟩
    · decide
    · simp only [List.forall_mem_cons]
      refine ⟨⟨fun f hf => absurd hf List.not_mem_nil, fun f hf => absurd hf List.not_mem_nil⟩,
        ⟨fun f hf => absurd hf List.not_mem_nil, fun f hf => absurd hf List.not_mem_nil⟩,
        fun g hg => ⟨(Option.some.inj hg).symm, by decide, fun w hw v hv => ?_⟩,
        List.mem_singleton_self _, fun _ hx => absurd hx List.not_mem_nil⟩
      obtain rfl := Option.some.inj hw
      obtain rfl := List.mem_singleton.mp hv
      exact ⟨by decide, List.not_mem_nil⟩
  exact ⟨trace, s', hr, hdel, htab, placement hr ⟨rfl, rfl⟩ hok⟩

/-- A worker that has registered again is asked twice. -/
theorem not_forall_listsOnce : ¬ ∀ (tokens : Tokens) (s s' : Cluster)
    (trace : List (Cluster × ClusterEvent)), Run (clusterStep tokens) s trace s' → s.Starts →
      ∀ x ∈ visited trace s', x.ListsOnce tokens := by
  intro h
  obtain ⟨trace, s', hr, htab, hdirs, hwritten⟩ : ∃ trace s',
      Run (clusterStep exampleTokens) emptyCluster trace s' ∧
      s'.table.serverTable = [exampleServer 1, exampleServer 2] ∧
      (∀ id, s'.namesAt (exampleServer id) = [lit "a"]) ∧ s'.written = [lit "a"] :=
    ⟨_, _, .step (e := .register (exampleServer 1)) rfl <|
      .step (e := .register (exampleServer 2)) rfl <|
      .step (e := .write (lit "a") (lit "x") (listingOf ".\n..") (some (lit "a"))) rfl <|
      .done _, rfl, fun _ => rfl, rfl⟩
  have hls : lsAnswer (lsReply ".\n..\na") =
      some (fileListToStr [lit ".", lit "..", lit "a"] [0]) := by decide
  have henv : s'.Answers exampleTokens (listingOf ".\n..\na") := by
    intro h' w hw ls hls'
    refine ⟨[lit ".", lit "..", lit "a"], [], ?_,
      (Option.some.inj (hls.symm.trans hls')).symm⟩
    rw [htab] at hw
    rcases List.mem_pair.mp hw with rfl | rfl <;> rw [hdirs]
  have hcount := (h exampleTokens emptyCluster s' trace hr ⟨rfl, rfl⟩ s'
    (mem_visited_last trace s') _ [0] henv (lit "a") (by rw [hwritten]; decide) (by decide)
    (by decide)).1
  rw [listed_eq, htab] at hcount
  exact absurd hcount (by decide)

end PekarDrive
