import PekarDrive.Foundation.Runs
import PekarDrive.Master.Registration
import PekarDrive.Table.Refinement

/-!
# Runs of registrations and removals

The master assigns ids from the static variable `worker_id` of `handle_client`, an `unsigned` that
starts at one, and `add_server` counts the entries in an `unsigned short`. A run is made of packets
handed to `handle_client` and of calls of `remove_server`. Beside the table and the variable, a
state keeps which workers were added and not removed, which ids were assigned, and where
`add_server` has stored last.

The store at `server_count - 1` goes to index `-1` of an array of length zero when the 65536th
entry is added; nothing is defined after that, so the run ends there. An id that is assigned while
an entry still carries it hides the new entry from `getfs_id`.

## Main definitions

* `PekarDrive.ServerTable.addStore`: where `add_server` stores, and how long the array is.
* `PekarDrive.registered`: the entry that `handle_client` adds for a packet.
* `PekarDrive.Registry`, `PekarDrive.RegistryEvent`, `PekarDrive.registryStep`.
* `PekarDrive.Registry.Accurate`: the table is what was added and not removed.
* `PekarDrive.Registry.WellNumbered`: the ids are in order and identify the workers.

## Main results

* `PekarDrive.Registry.forall_accurate_iff`, `PekarDrive.Registry.forall_wellNumbered`.
-/

namespace PekarDrive

open CMemory CText LockedThreads StepRuns

/-! ### The store of `add_server` -/

/-- A store into an array. -/
structure ArrayStore where
  /-- The index. -/
  index : ℤ
  /-- The length of the array. -/
  length : ℕ

/-- The store lies inside the array. -/
def ArrayStore.Inside (x : ArrayStore) : Prop := 0 ≤ x.index ∧ x.index < x.length

instance (x : ArrayStore) : Decidable x.Inside :=
  inferInstanceAs (Decidable (0 ≤ x.index ∧ x.index < x.length))

/-- The store of `add_server`: the size expression increments the count, and the index is computed
as an `int`. -/
def ServerTable.addStore (t : ServerTable) : ArrayStore where
  index := (t.serverCount + 1).toNat - 1
  length := (t.serverCount + 1).toNat

theorem ServerTable.inside_addStore_iff (t : ServerTable) :
    t.addStore.Inside ↔ t.serverTable.length < 65535 := by
  have hcount := t.serverCount.toNat_lt
  rw [t.count_eq, ArrayStore.Inside]
  simp only [addStore, UInt16.toNat_add, UInt16.reduceToNat]
  omega

/-! ### The entry of a packet -/

/-- The entry that `handle_client` adds for a packet; none for other packets than a REGISTER with
the token of the workers, and for an argument that it cannot take apart. -/
def registered (tokens : Tokens) (heap : Heap) (workerId : UInt32) (r : ReadResult) :
    Option FileServer :=
  if 0 < r.bytes ∧ (pDecode r.buffer).val.msgType = MsgType.register.code ∧
      (pDecode r.buffer).val.token = tokens.workerTkn then
    match parsePort (argMemory r heap), parseIp (argMemory r heap) with
    | some port, some ip => some {
        id := workerId.toUInt64
        size := 0
        location := ⟨CString.ofMemory (ip ++ heap.behindIp), port⟩ }
    | _, _ => none
  else none

section Registered

variable {tokens : Tokens} {heap : Heap} {workerId : UInt32} {r : ReadResult} {w : FileServer}

theorem id_of_registered (hw : registered tokens heap workerId r = some w) :
    w.id = workerId.toUInt64 := by
  rw [registered] at hw
  split at hw
  · split at hw
    · rw [← Option.some.inj hw]
    · exact absurd hw (by simp)
  · exact absurd hw (by simp)

/-- A registration adds its entry and counts the id up. -/
theorem handleClient_of_registered (hw : registered tokens heap workerId r = some w) :
    handleClient tokens heap workerId r = do
      addServer w
      return ⟨none, workerId + 1⟩ := by
  rw [registered] at hw
  split at hw
  · rename_i hreg
    obtain ⟨hr, htype, htoken⟩ := hreg
    rw [handleClient_of_register tokens heap workerId hr htype htoken]
    cases hport : parsePort (argMemory r heap) with
    | none => exact absurd hw (by simp [hport])
    | some port =>
      cases hip : parseIp (argMemory r heap) with
      | none => exact absurd hw (by simp [hport, hip])
      | some ip =>
        simp only [hport, hip, Option.some.injEq] at hw
        rw [← hw]
  · exact absurd hw (by simp)

/-- Serving a request keeps the variable. -/
theorem workerId_of_eval_sendBack {p : TableProg Request Reply (Option CString)}
    {env : List Request → Request → Reply} {h h' : List Request} {t t' : ServerTable}
    {served : Served}
    (heval : (p >>= sendBack workerId).eval env h t = (h', some (served, t'))) :
    served.workerId = workerId := by
  rw [Prog.eval_bind] at heval
  split at heval
  · exact absurd (congrArg Prod.snd heval) (by simp)
  · rename_i retVal _ _
    cases retVal with
    | none => exact absurd (congrArg Prod.snd heval) (by simp)
    | some s =>
      rw [← (Prod.mk.inj (Option.some.inj (congrArg Prod.snd heval))).1]

/-- Any other packet leaves the table and the variable as they are, if `handle_client` returns. -/
theorem eval_handleClient_of_not_registered (hw : registered tokens heap workerId r = none)
    {env : List Request → Request → Reply} {h h' : List Request} {t t' : ServerTable}
    {served : Served}
    (heval : (handleClient tokens heap workerId r).eval env h t = (h', some (served, t'))) :
    t' = t ∧ served.workerId = workerId := by
  by_cases hreg : 0 < r.bytes ∧ (pDecode r.buffer).val.msgType = MsgType.register.code ∧
    (pDecode r.buffer).val.token = tokens.workerTkn
  · -- the argument of a registration cannot be taken apart
    obtain ⟨hr, htype, htoken⟩ := hreg
    rw [registered, if_pos ⟨hr, htype, htoken⟩] at hw
    rw [handleClient_of_register tokens heap workerId hr htype htoken] at heval
    split at hw
    · exact absurd hw (by simp)
    · rename_i hnone
      split at heval
      · rename_i port ip hport hip
        exact absurd hip (hnone port ip hport)
      · exact absurd (congrArg Prod.snd heval) (by simp)
  by_cases hr : 0 < r.bytes
  · refine ⟨(readOnly_handleClient tokens heap workerId fun h => hreg ⟨hr, h⟩).eq_of_eval heval, ?_⟩
    by_cases htype : (pDecode r.buffer).val.msgType = MsgType.register.code
    · -- the token is not the one of the workers
      have htoken : (pDecode r.buffer).val.token ≠ tokens.workerTkn := fun h =>
        hreg ⟨hr, htype, h⟩
      rw [handleClient, DecodeSite.masterClient.decode_of_pos hr] at heval
      simp only at heval
      rw [if_neg (not_not.mpr htype), if_pos htoken] at heval
      rw [← (Prod.mk.inj (Option.some.inj (congrArg Prod.snd heval))).1]
    · by_cases hcount : t.serverCount = 0
      · rw [eval_handleClient_of_unavailable tokens heap workerId env h hr hcount htype] at heval
        rw [← (Prod.mk.inj (Option.some.inj (congrArg Prod.snd heval))).1]
      · rw [eval_handleClient_of_request tokens heap workerId env h hr hcount htype] at heval
        exact workerId_of_eval_sendBack heval
  · rw [handleClient_of_not_pos tokens heap workerId hr] at heval
    obtain ⟨hserved, ht⟩ := Prod.mk.inj (Option.some.inj (congrArg Prod.snd heval))
    exact ⟨ht.symm, by rw [← hserved]⟩

end Registered

/-! ### The runs -/

/-- The state of the master between two steps. -/
structure Registry where
  /-- The server table. -/
  table : ServerTable
  /-- The static variable `worker_id`. -/
  workerId : UInt32
  /-- The workers that have been added and not removed, in the order of their registrations. -/
  workers : List FileServer
  /-- The ids assigned so far. -/
  assigned : List UInt64
  /-- The last store of `add_server`. -/
  store : Option ArrayStore

/-- A step of the master. -/
inductive RegistryEvent
  /-- `handle_client` is called; the memory, the packet and the answers of the workers. -/
  | client (heap : Heap) (r : ReadResult) (env : List Request → Request → Reply)
  /-- `remove_server` is called. -/
  | remove (id : UInt64)

namespace Registry

/-- The start of the master. -/
def start : Registry := ⟨.empty, 1, [], [], none⟩

/-- The entry is added. Past the greatest count the array is freed and the count is zero. -/
def register (s : Registry) (w : FileServer) : Registry where
  table := (s.table.add w).getD .empty
  workerId := s.workerId + 1
  workers := s.workers ++ [w]
  assigned := s.assigned ++ [w.id]
  store := some s.table.addStore

/-- The entry is removed. -/
def unregister (s : Registry) (id : UInt64) : Registry :=
  { s with
    table := s.table.remove id
    workers := s.workers.eraseP fun w => decide (w.id = id) }

/-- All stores so far lie inside the array. -/
def Inside (s : Registry) : Prop := ∀ x ∈ s.store, x.Inside

instance (s : Registry) : Decidable s.Inside :=
  inferInstanceAs (Decidable (∀ x ∈ s.store, x.Inside))

end Registry

/-- A step, if it can happen: the process has to return from it, but for the step with a store
outside the array. -/
def registryStep (tokens : Tokens) (s : Registry) : RegistryEvent → Option Registry
  | .client heap r env =>
    if s.Inside then
      match registered tokens heap s.workerId r,
        ((handleClient tokens heap s.workerId r).eval env [] s.table).2 with
      | none, none => none
      | none, some (served, t) => some { s with table := t, workerId := served.workerId }
      | some w, none => some (s.register w)
      | some w, some (served, t) =>
        some { s.register w with table := t, workerId := served.workerId }
    else none
  | .remove id =>
    if s.Inside then
      match ((removeServer id : TableProg Unit Unit Unit).eval (fun _ _ => ()) [] s.table).2 with
      | none => none
      | some (_, t) => some { s.unregister id with table := t }
    else none

/-- What a step does to the state. -/
inductive RegistryStep (tokens : Tokens) (s : Registry) : RegistryEvent → Registry → Prop
  | registered {heap : Heap} {r : ReadResult} {env : List Request → Request → Reply}
      {w : FileServer} (hw : registered tokens heap s.workerId r = some w) :
      RegistryStep tokens s (.client heap r env) (s.register w)
  | served {heap : Heap} {r : ReadResult} {env : List Request → Request → Reply}
      (hw : registered tokens heap s.workerId r = none) :
      RegistryStep tokens s (.client heap r env) s
  | removed (id : UInt64) : RegistryStep tokens s (.remove id) (s.unregister id)

section Steps

variable {tokens : Tokens} {s s' : Registry} {e : RegistryEvent}

theorem eval_handleClient_register {heap : Heap} {workerId : UInt32} {r : ReadResult}
    {w : FileServer} (hw : registered tokens heap workerId r = some w)
    (env : List Request → Request → Reply) (t : ServerTable) :
    ((handleClient tokens heap workerId r).eval env [] t).2 =
      (t.add w).map fun t' => (⟨none, workerId + 1⟩, t') := by
  rw [handleClient_of_registered hw]
  cases hadd : t.add w with
  | none =>
    simp only [addServer, Prog.acquire_bind, Prog.read_bind, Prog.lock_bind, Prog.get_bind,
      Prog.eval_lock, Prog.eval_get, hadd]
    rfl
  | some t' =>
    rw [Prog.eval_bind_of_eq (eval_addServer env [] t hadd)]
    rfl

theorem registryStep_remove (hs : s.Inside) (id : UInt64) :
    registryStep tokens s (.remove id) = some (s.unregister id) := by
  rw [registryStep, if_pos hs, eval_removeServer]
  rfl

/-- **The steps.** The programs of the master change the state as the entry that is added or
removed says. -/
theorem registryStep_cases (hstep : registryStep tokens s e = some s') :
    s.Inside ∧ RegistryStep tokens s e s' := by
  cases e with
  | client heap r env =>
    rw [registryStep] at hstep
    split at hstep
    · rename_i hinside
      refine ⟨hinside, ?_⟩
      cases hw : registered tokens heap s.workerId r with
      | none =>
        rw [hw] at hstep
        cases heval : (handleClient tokens heap s.workerId r).eval env [] s.table with
        | mk h' result =>
          rw [heval] at hstep
          cases result with
          | none => exact absurd hstep (by simp)
          | some out =>
            obtain ⟨served, t⟩ := out
            obtain ⟨ht, hid⟩ := eval_handleClient_of_not_registered hw heval
            simp only [ht, hid, Option.some.injEq] at hstep
            exact hstep ▸ .served hw
      | some w =>
        rw [hw, eval_handleClient_register hw] at hstep
        have hs' : s' = s.register w := by
          cases hadd : s.table.add w with
          | none =>
            rw [hadd] at hstep
            exact (Option.some.inj hstep).symm
          | some t =>
            rw [hadd] at hstep
            rw [← Option.some.inj hstep, Registry.register, hadd]
            rfl
        exact hs' ▸ .registered hw
    · exact absurd hstep (by simp)
  | remove id =>
    by_cases hinside : s.Inside
    · rw [registryStep_remove hinside] at hstep
      exact ⟨hinside, Option.some.inj hstep ▸ .removed id⟩
    · rw [registryStep, if_neg hinside] at hstep
      exact absurd hstep (by simp)

end Steps

/-! ### The table is what was added and not removed -/

namespace Registry

/-- The stores were inside the array, the count is the number of the workers that were added and
not removed, and `getfs_id` finds each of them. -/
structure Accurate (s : Registry) : Prop where
  /-- Each store of `add_server` lies inside the array it has just resized. -/
  inside : s.Inside
  /-- `table_count` is the number of workers. -/
  tableCount : ∀ (env : List Request → Request → Reply) h, ∃ n,
    tableCount.eval env h s.table = (h, some (n, s.table)) ∧ n.toNat = s.workers.length
  /-- `getfs_id` gives the entry of each worker. -/
  getfsId : ∀ i w, s.workers[i]? = some w → s.table.serverTable[i]? = some w ∧
    ∀ (env : List Request → Request → Reply) h,
      (getfsId w.id).eval env h s.table = (h, some (some i, s.table))

/-- The step adds no worker to a full table, and none under an id that an entry carries. -/
def Admits (tokens : Tokens) (s : Registry) : RegistryEvent → Prop
  | .client heap r _ => registered tokens heap s.workerId r ≠ none →
    s.table.serverTable.length < 65535 ∧
      ∀ v ∈ s.table.serverTable, v.id ≠ s.workerId.toUInt64
  | .remove _ => True

/-- The entries of the table are the workers, as long as the stores are inside. -/
def Listed (s : Registry) : Prop := s.Inside → s.table.serverTable = s.workers

/-- In a list without a repeated id, an entry is the first one with its id. -/
theorem findIdx?_id_of_nodup {l : List FileServer} (hl : (l.map FileServer.id).Nodup) {i : ℕ}
    {w : FileServer} (hw : l[i]? = some w) : (l.findIdx? fun v => v.id == w.id) = some i := by
  rw [List.Nodup, List.pairwise_map, List.pairwise_iff_getElem] at hl
  obtain ⟨hi, rfl⟩ := List.getElem?_eq_some_iff.mp hw
  refine List.findIdx?_eq_some_iff_getElem.mpr ⟨hi, by simp, fun j hj => ?_⟩
  simpa using hl j i (hj.trans hi) hi hj

/-- `getfs_id` finds every entry of a table exactly when no two carry the same id. -/
theorem forall_eval_getfsId_iff (t : ServerTable) :
    (∀ i w, t.serverTable[i]? = some w → ∀ (env : List Request → Request → Reply) h,
      (PekarDrive.getfsId w.id).eval env h t = (h, some (some i, t))) ↔
      (t.serverTable.map FileServer.id).Nodup := by
  constructor
  · intro hall
    rw [List.Nodup, List.pairwise_map, List.pairwise_iff_getElem]
    intro i j hi hj hlt hid
    have hfirst := hall i _ (List.getElem?_eq_getElem hi) (fun _ _ => silentReply) []
    have hsecond := hall j _ (List.getElem?_eq_getElem hj) (fun _ _ => silentReply) []
    rw [← hid, hfirst] at hsecond
    simp only [Prod.mk.injEq, Option.some.injEq, true_and, and_true] at hsecond
    omega
  · intro hnodup i w hw env h
    rw [eval_getfsId, findIdx?_id_of_nodup hnodup hw]

theorem accurate_iff {s : Registry} (hs : s.Listed) :
    s.Accurate ↔ s.Inside ∧ (s.workers.map FileServer.id).Nodup := by
  constructor
  · intro h
    refine ⟨h.inside, ?_⟩
    rw [← hs h.inside, ← forall_eval_getfsId_iff]
    intro i w hw
    rw [hs h.inside] at hw
    exact (h.getfsId i w hw).2
  · rintro ⟨hinside, hnodup⟩
    have htab := hs hinside
    rw [← htab, ← forall_eval_getfsId_iff] at hnodup
    refine ⟨hinside, fun env h => ⟨s.table.serverCount, eval_tableCount env h s.table, ?_⟩, ?_⟩
    · rw [← s.table.count_eq, htab]
    · intro i w hw
      rw [← htab] at hw
      exact ⟨hw, hnodup i w hw⟩

theorem listed_start : start.Listed := fun _ => rfl

theorem inside_start : start.Inside := fun x hx => absurd hx (by simp [start])

theorem accurate_start : start.Accurate :=
  (accurate_iff listed_start).mpr ⟨inside_start, List.nodup_nil⟩

theorem inside_register_iff {s : Registry} {w : FileServer} :
    (s.register w).Inside ↔ s.table.serverTable.length < 65535 := by
  rw [← ServerTable.inside_addStore_iff]
  simp [Inside, register]

theorem serverTable_register {s : Registry} {w : FileServer}
    (h : s.table.serverTable.length < 65535) :
    (s.register w).table.serverTable = s.table.serverTable ++ [w] := by
  rw [s.table.count_eq] at h
  obtain ⟨t, hadd⟩ := ServerTable.add_isSome w h
  rw [register, hadd]
  exact ServerTable.serverTable_add hadd

end Registry

section Accuracy

variable {tokens : Tokens} {s s' : Registry} {e : RegistryEvent}

theorem RegistryStep.listed (hs : s.Listed) (hinside : s.Inside)
    (hstep : RegistryStep tokens s e s') : s'.Listed := by
  intro hinside'
  have htab := hs hinside
  cases hstep with
  | @registered _ _ _ w hw =>
    rw [Registry.serverTable_register (Registry.inside_register_iff.mp hinside'), htab]
    rfl
  | served hw => exact htab
  | removed id =>
    change (s.table.remove id).serverTable = s.workers.eraseP _
    rw [s.table.serverTable_remove, htab]

/-- A step from an accurate state leads to an accurate one exactly when it adds no worker to a full
table or under an id in use. -/
theorem RegistryStep.accurate_iff (hs : s.Listed) (hacc : s.Accurate)
    (hstep : RegistryStep tokens s e s') : s'.Accurate ↔ s.Admits tokens e := by
  have hs' := hstep.listed hs hacc.inside
  rw [Registry.accurate_iff hs']
  obtain ⟨hinside, hnodup⟩ := (Registry.accurate_iff hs).mp hacc
  have htab := hs hinside
  cases hstep with
  | @registered heap r env w hw =>
    have hid := id_of_registered hw
    have hnew : ((s.register w).workers.map FileServer.id).Nodup ↔
        ∀ v ∈ s.table.serverTable, v.id ≠ s.workerId.toUInt64 := by
      change ((s.workers ++ [w]).map FileServer.id).Nodup ↔ _
      rw [List.map_append, List.nodup_append, htab, ← hid]
      simp [hnodup]
    rw [Registry.inside_register_iff, hnew]
    exact ⟨fun h _ => h, fun h => h (by simp [hw])⟩
  | served hw => exact ⟨fun _ h => absurd hw h, fun _ => ⟨hinside, hnodup⟩⟩
  | removed id =>
    refine ⟨fun _ => trivial, fun _ => ⟨hinside, ?_⟩⟩
    exact hnodup.sublist (List.Sublist.map _ (List.eraseP_sublist))

end Accuracy

/-- **Accurate runs.** In every state of a run the stores of `add_server` were inside the array,
`table_count` is the number of the workers added and not removed, and `getfs_id` finds each of
them, if and only if no step of the run adds a worker to a table of 65535 entries, or under an id
that an entry of the table carries. -/
theorem Registry.forall_accurate_iff {tokens : Tokens} {s : Registry}
    {trace : List (Registry × RegistryEvent)}
    (hr : Run (registryStep tokens) Registry.start trace s) :
    (∀ x ∈ visited trace s, x.Accurate) ↔ ∀ x ∈ trace, x.1.Admits tokens x.2 := by
  refine hr.forall_visited_iff (I := Registry.Listed) ?_ ?_ Registry.listed_start
    Registry.accurate_start
  · intro s e s' hs hstep
    obtain ⟨hinside, hstep⟩ := registryStep_cases hstep
    exact hstep.listed hs hinside
  · intro s e s' hs hacc hstep
    exact (registryStep_cases hstep).2.accurate_iff hs hacc

/-! ### The ids -/

namespace Registry

/-- The ids are in order, and identify the entries. -/
structure WellNumbered (s : Registry) : Prop where
  /-- The ids increase in table order. -/
  increasing : s.table.serverTable.Pairwise fun v w => v.id < w.id
  /-- The next id is greater than all of them. -/
  lt_next : ∀ w ∈ s.table.serverTable, w.id < s.workerId.toUInt64
  /-- No id has been assigned twice, and the next one not at all. -/
  not_reused : s.assigned.Nodup ∧ s.workerId.toUInt64 ∉ s.assigned
  /-- `remove_server` with the id of an entry removes this entry and no other. -/
  removes : ∀ i w, s.table.serverTable[i]? = some w →
    ∀ (env : List Request → Request → Reply) h, ∃ t,
      (removeServer w.id).eval env h s.table = (h, some ((), t)) ∧
        t.serverTable = s.table.serverTable.eraseIdx i
  /-- `getfs_id` with the id of an entry gives this entry. -/
  identifies : ∀ i w, s.table.serverTable[i]? = some w →
    ∀ (env : List Request → Request → Reply) h,
      (PekarDrive.getfsId w.id).eval env h s.table = (h, some (some i, s.table))

/-- Fewer than `2 ^ 32 - 1` registrations so far, and at most 65535 workers now. -/
def WithinBounds (s : Registry) : Prop :=
  s.assigned.length < 2 ^ 32 - 1 ∧ s.workers.length ≤ 65535

/-- The invariant: the assigned ids increase up to the next one, and the workers carry some of
them in the same order. -/
structure Numbered (s : Registry) : Prop where
  /-- The stores were inside the array. -/
  inside : s.Inside
  /-- The entries of the table are the workers. -/
  listed : s.table.serverTable = s.workers
  /-- The variable counts the registrations, from one on. -/
  next : s.workerId.toNat = s.assigned.length + 1
  /-- The assigned ids increase. -/
  increasing : s.assigned.Pairwise (· < ·)
  /-- They are below the next one. -/
  lt_next : ∀ id ∈ s.assigned, id < s.workerId.toUInt64
  /-- The ids of the workers are among them, in this order. -/
  workers : (s.workers.map FileServer.id).Sublist s.assigned

theorem numbered_start : start.Numbered where
  inside := inside_start
  listed := rfl
  next := rfl
  increasing := .nil
  lt_next _ h := absurd h List.not_mem_nil
  workers := .slnil

theorem Numbered.wellNumbered {s : Registry} (hs : s.Numbered) : s.WellNumbered := by
  have hids : (s.table.serverTable.map FileServer.id).Pairwise (· < ·) := by
    rw [hs.listed]
    exact hs.increasing.sublist hs.workers
  have hnodup : (s.table.serverTable.map FileServer.id).Nodup := hids.imp UInt64.ne_of_lt
  refine ⟨List.pairwise_map.mp hids, ?_, ⟨hs.increasing.imp UInt64.ne_of_lt, ?_⟩, ?_, ?_⟩
  · intro w hw
    rw [hs.listed] at hw
    exact hs.lt_next _ (hs.workers.subset (List.mem_map_of_mem hw))
  · exact fun hmem => UInt64.lt_irrefl _ (hs.lt_next _ hmem)
  · intro i w hw env h
    refine ⟨_, eval_removeServer env h s.table w.id, ?_⟩
    have hfind : (s.table.serverTable.findIdx? fun v => decide (v.id = w.id)) = some i :=
      findIdx?_id_of_nodup hnodup hw
    rw [s.table.serverTable_remove, List.eraseP_eq_eraseIdx, hfind]
  · exact (forall_eval_getfsId_iff s.table).mpr hnodup

theorem Numbered.register {s : Registry} {w : FileServer} (hs : s.Numbered)
    (hw : w.id = s.workerId.toUInt64) (hbound : (s.register w).WithinBounds) :
    (s.register w).Numbered := by
  obtain ⟨hassigned, hworkers⟩ := hbound
  have hassigned' : s.assigned.length + 1 < 2 ^ 32 - 1 := by
    simpa only [Registry.register, List.length_append, List.length_singleton] using hassigned
  have hroom : s.table.serverTable.length < 65535 := by
    simp only [Registry.register, List.length_append, List.length_singleton] at hworkers
    rw [hs.listed]
    omega
  -- the variable does not wrap around
  have hnext : (s.workerId + 1).toNat = s.workerId.toNat + 1 := by
    have := hs.next
    rw [UInt32.toNat_add, UInt32.toNat_one, Nat.mod_eq_of_lt (by omega)]
  have hlt : s.workerId.toUInt64 < (s.workerId + 1).toUInt64 := by
    rw [UInt64.lt_iff_toNat_lt, UInt32.toNat_toUInt64, UInt32.toNat_toUInt64, hnext]
    exact Nat.lt_succ_self _
  refine ⟨inside_register_iff.mpr hroom, ?_, ?_, ?_, ?_, ?_⟩
  · rw [serverTable_register hroom, hs.listed]
    rfl
  · change (s.workerId + 1).toNat = (s.assigned ++ [w.id]).length + 1
    rw [hnext, hs.next, List.length_append, List.length_singleton]
  · change (s.assigned ++ [w.id]).Pairwise (· < ·)
    refine List.pairwise_append.mpr ⟨hs.increasing, List.pairwise_singleton _ _, ?_⟩
    intro id hid id' hid'
    rw [List.mem_singleton.mp hid', hw]
    exact hs.lt_next id hid
  · intro id hid
    change id ∈ s.assigned ++ [w.id] at hid
    rcases List.mem_append.mp hid with hid | hid
    · exact UInt64.lt_trans (hs.lt_next id hid) hlt
    · rw [List.mem_singleton.mp hid, hw]
      exact hlt
  · change ((s.workers ++ [w]).map FileServer.id).Sublist (s.assigned ++ [w.id])
    rw [List.map_append]
    exact hs.workers.append (List.Sublist.refl _)

theorem Numbered.unregister {s : Registry} (hs : s.Numbered) (id : UInt64) :
    (s.unregister id).Numbered where
  inside := hs.inside
  listed := by
    change (s.table.remove id).serverTable = s.workers.eraseP _
    rw [s.table.serverTable_remove, hs.listed]
  next := hs.next
  increasing := hs.increasing
  lt_next := hs.lt_next
  workers := (List.Sublist.map _ List.eraseP_sublist).trans hs.workers

/-- **Ids.** In every state of a run with fewer than `2 ^ 32 - 1` registrations and at most 65535
workers at a time, the ids in the table increase, the next id is greater than all of them, no id
has been reused, and each id stands for one entry. -/
theorem forall_wellNumbered {tokens : Tokens} {s : Registry}
    {trace : List (Registry × RegistryEvent)} (hr : Run (registryStep tokens) start trace s)
    (hbound : ∀ x ∈ visited trace s, x.WithinBounds) :
    ∀ x ∈ visited trace s, x.WellNumbered := by
  have hinv := hr.forall_visited (I := Numbered) (H := WithinBounds) ?_ numbered_start hbound
  · exact fun x hx => (hinv x hx).wellNumbered
  · intro s e s' hs hbound' hstep
    cases (registryStep_cases hstep).2 with
    | registered hw => exact hs.register (id_of_registered hw) hbound'
    | served hw => exact hs
    | removed id => exact hs.unregister id

end Registry

/-! ### A table that is filled up -/

section Filling

/-- The packet of a worker at `192.168.100.100`, in a memory of zeros. -/
def exampleRegistration : RegistryEvent :=
  .client (blankMemory (fun _ => 0) [0]).heap
    (.delivered (registerWire exampleTokens exampleAddress.text fun _ => 0) fun _ => 0)
    fun _ _ => silentReply

/-- The entry that the packet adds. -/
def exampleEntry (workerId : UInt32) : FileServer where
  id := workerId.toUInt64
  size := 0
  location := ⟨CString.ofMemory (exampleAddress.bytes ++ [0]), portRead exampleAddress.text.strlen⟩

theorem registered_exampleRegistration (workerId : UInt32) :
    registered exampleTokens (blankMemory (fun _ => 0) [0]).heap workerId
      (.delivered (registerWire exampleTokens exampleAddress.text fun _ => 0) fun _ => 0) =
    some (exampleEntry workerId) := by
  have hip := exampleAddress.strlen_text.2
  obtain ⟨-, htype, htoken⟩ :=
    pDecode_registerWire exampleTokens exampleAddress.text (fun _ => 0) hip fun _ => 0
  obtain ⟨zs, harg⟩ := exists_argMemory_eq exampleTokens exampleAddress.text (fun _ => 0) [0] hip
  obtain ⟨hparseIp, hparsePort⟩ := parse_registration exampleAddress harg
  have hpos : 0 < (ReadResult.delivered (registerWire exampleTokens exampleAddress.text
      fun _ => 0) fun _ => 0).bytes := by
    simp [ReadResult.delivered, registerLen]
  rw [registered, if_pos ⟨hpos, htype, htoken⟩, hparsePort, hparseIp]
  rfl

/-- The packet can be served again and again. -/
theorem registryStep_exampleRegistration {s : Registry} (hs : s.Inside) :
    registryStep exampleTokens s exampleRegistration =
      some (s.register (exampleEntry s.workerId)) := by
  have hw := registered_exampleRegistration s.workerId
  rw [exampleRegistration, registryStep, if_pos hs, hw, eval_handleClient_register hw]
  cases hadd : s.table.add (exampleEntry s.workerId) with
  | none => rfl
  | some t => simp [Registry.register, hadd]

/-- It can be served as often as the table has room, and once more. -/
theorem exists_run_exampleRegistration (n : ℕ) {s : Registry} (hs : s.Listed) (hinside : s.Inside)
    (hn : s.workers.length + n ≤ 65536) : ∃ trace s',
      Run (registryStep exampleTokens) s trace s' ∧ s'.workers.length = s.workers.length + n := by
  induction n generalizing s with
  | zero => exact ⟨[], s, .done s, rfl⟩
  | succ n ih =>
    have hstep := registryStep_exampleRegistration hinside
    have hlen : (s.register (exampleEntry s.workerId)).workers.length = s.workers.length + 1 := by
      simp [Registry.register]
    rcases Nat.eq_zero_or_pos n with rfl | hpos
    · exact ⟨_, _, .step hstep (.done _), hlen⟩
    · have hinside' : (s.register (exampleEntry s.workerId)).Inside := by
        rw [Registry.inside_register_iff, hs hinside]
        omega
      obtain ⟨trace, s', hr, hs'⟩ := ih ((registryStep_cases hstep).2.listed hs hinside) hinside'
        (by omega)
      exact ⟨_, s', .step hstep hr, by omega⟩

/-- The 65536th registration of the same worker makes the count zero. -/
theorem Registry.not_forall_accurate : ¬ ∀ (tokens : Tokens)
    (trace : List (Registry × RegistryEvent)) (s : Registry),
    Run (registryStep tokens) Registry.start trace s →
      ∀ x ∈ visited trace s, x.Accurate := by
  intro h
  obtain ⟨trace, s, hr, hlen⟩ := exists_run_exampleRegistration 65536 Registry.listed_start
    Registry.inside_start (by decide)
  have hmem : s ∈ visited trace s := List.mem_append_right _ (List.mem_singleton_self s)
  have hacc := h exampleTokens trace s hr s hmem
  obtain ⟨n, -, hn⟩ := hacc.tableCount (fun _ _ => silentReply) []
  have hlt := n.toNat_lt
  have hstart : Registry.start.workers.length = 0 := rfl
  omega

/-- The state after two registrations. -/
def registeredTwice : Registry :=
  (Registry.start.register (exampleEntry 1)).register (exampleEntry 2)

/-- The first worker is removed, and one more registers. -/
def registeredAgain : Registry := (registeredTwice.unregister 1).register (exampleEntry 3)

theorem run_registeredAgain : Run (registryStep exampleTokens) Registry.start
    [(Registry.start, exampleRegistration),
      (Registry.start.register (exampleEntry 1), exampleRegistration), (registeredTwice, .remove 1),
      (registeredTwice.unregister 1, exampleRegistration)] registeredAgain := by
  have hone : (Registry.start.register (exampleEntry 1)).Inside :=
    Registry.inside_register_iff.mpr (by decide)
  have htwo : registeredTwice.Inside := Registry.inside_register_iff.mpr (by decide)
  have hremoved : (registeredTwice.unregister 1).Inside := htwo
  exact .step (registryStep_exampleRegistration Registry.inside_start)
    (.step (registryStep_exampleRegistration hone)
      (.step (registryStep_remove htwo 1)
        (.step (registryStep_exampleRegistration hremoved) (.done _))))

theorem Registry.accurate_again :
    (registeredTwice.unregister 1).Accurate ∧ registeredAgain.Accurate := by
  have hall := (Registry.forall_accurate_iff run_registeredAgain).mpr (by
    simp only [List.forall_mem_cons]
    exact ⟨fun _ => ⟨by decide, by decide⟩, fun _ => ⟨by decide, by decide⟩, trivial,
      fun _ => ⟨by decide, by decide⟩, fun x hx => absurd hx List.not_mem_nil⟩)
  exact ⟨hall _ (.tail _ (.tail _ (.tail _ (.head _)))), hall _ (mem_visited_last _ _)⟩

theorem Registry.wellNumbered_again :
    (registeredTwice.unregister 1).WellNumbered ∧ registeredAgain.WellNumbered := by
  have hall := Registry.forall_wellNumbered run_registeredAgain (by
    simp only [visited, List.map_cons, List.map_nil, List.cons_append, List.nil_append,
      List.forall_mem_cons]
    exact ⟨⟨by decide, by decide⟩, ⟨by decide, by decide⟩, ⟨by decide, by decide⟩,
      ⟨by decide, by decide⟩, ⟨by decide, by decide⟩, fun x hx => absurd hx List.not_mem_nil⟩)
  exact ⟨hall _ (.tail _ (.tail _ (.tail _ (.head _)))), hall _ (mem_visited_last _ _)⟩

end Filling

end PekarDrive
