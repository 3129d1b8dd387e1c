import PekarDrive.Foundation.Questions
import PekarDrive.Master.Standstill

/-!
# Whom the master contacts

In every interleaving of the two threads of the master the table only grows. `add_server` is the one
function that writes it: `remove_server` is called by the handler of the pings alone, and there it
waits for the mutex that `for_each_server` holds. So a worker stays in the table, and an entry that
one of the threads has read is in the table whenever the request to it is made, however much the
other thread has done in between.

A request carries the token of the master. It goes to no server but those that have been in the
table from the start on, or that a REGISTER packet with the token of the workers names.

## Main definitions

* `PekarDrive.servingPackets`: the programs of the threads, for given packets.
* `PekarDrive.RegisteredBy`: the entries that these packets register.

## Main results

* `PekarDrive.prefix_of_enters`, `PekarDrive.asks_servingPackets`.
* `PekarDrive.contacts_registered`.
-/

namespace PekarDrive

open CMemory CText LockedThreads

/-- The programs that the threads start when the packets of the clients are among those `served`. -/
def servingPackets (tokens : Tokens) (served : Heap → UInt32 → ReadResult → Prop) :
    MasterThread → TableProg Request Reply Unit → Prop
  | .admin, p => p = forEachServer (pingServer tokens)
  | .main, p => ∃ heap workerId r, served heap workerId r ∧ p = serveClient tokens heap workerId r

/-- The entries that `handle_client` adds for these packets. -/
def RegisteredBy (tokens : Tokens) (served : Heap → UInt32 → ReadResult → Prop) (w : FileServer) :
    Prop :=
  ∃ heap workerId r, served heap workerId r ∧ registered tokens heap workerId r = some w

/-- An entry that may be added is added to the table. -/
def Enters (Added : FileServer → Prop) (t t' : ServerTable) : Prop :=
  ∃ w, Added w ∧ t.add w = some t'

/-! ### The table -/

/-- A table to which entries were added. -/
theorem prefix_of_enters {Added : FileServer → Prop} {t t' : ServerTable}
    (h : Relation.ReflTransGen (Enters Added) t t') :
    t.serverTable <+: t'.serverTable ∧ ∀ w ∈ t'.serverTable, w ∈ t.serverTable ∨ Added w := by
  induction h with
  | refl => exact ⟨List.prefix_rfl, fun w hw => .inl hw⟩
  | tail _ hstep ih =>
    obtain ⟨hgrows, hcases⟩ := ih
    obtain ⟨w', hadded, hadd⟩ := hstep
    rw [ServerTable.serverTable_add hadd]
    refine ⟨hgrows.trans (List.prefix_append _ _), fun w hw => ?_⟩
    rcases List.mem_append.mp hw with hw | hw
    · exact hcases w hw
    · exact .inr (List.mem_singleton.mp hw ▸ hadded)

/-- The threads write the table only to add the entry of a packet. -/
theorem updates_servingPackets (tokens : Tokens) (served : Heap → UInt32 → ReadResult → Prop)
    (th : MasterThread) (p : TableProg Request Reply Unit)
    (hp : servingPackets tokens served th p) :
    p.Updates PingAnswered (FoundWorker th) (Enters (RegisteredBy tokens served))
      (fun own _ => own = none) none := by
  cases th with
  | admin =>
    rw [show p = forEachServer (pingServer tokens) from hp]
    exact updates_pingRound tokens
  | main =>
    obtain ⟨heap, workerId, r, hserved, rfl⟩ := hp
    exact updates_serveClient tokens (fun hadded hadd => ⟨_, hadded, hadd⟩) heap workerId r
      fun w hw => ⟨heap, workerId, r, hserved, hw⟩

/-! ### The requests -/

section Asks

variable {tokens : Tokens} {servers : List FileServer}

/-- A request with the token of the master, to one of the servers. -/
def Contacts (tokens : Tokens) (servers : List FileServer) (q : Request) : Prop :=
  q.server ∈ servers ∧ q.packet.token = tokens.masterTkn

/-- The rules for programs whose requests go to the servers, as long as the table holds no
others. -/
theorem servingRules_asks (Added : FileServer → Prop) :
    ServingRules tokens (· ∈ servers) Added fun _ p post =>
      p.Asks (fun t => t.serverTable ⊆ servers) (Contacts tokens servers) post where
  ret hpost := hpost
  fault := trivial
  bind hp hf := hp.bind hf
  tableCount _ _ := trivial
  getfsIndex index := by
    intro t _
    change (if t.serverCount.toNat ≤ index then Prog.ret none
      else Prog.lock (Prog.unlock (Prog.ret (some index))) : TableProg Request Reply _).Asks _ _ _
    split <;> trivial
  derefServer server := by
    cases server with
    | none => trivial
    | some i =>
      simp only [derefServer, Prog.read_bind]
      intro t ht
      beta_reduce
      split
      · trivial
      · rename_i w hw
        exact ht (List.mem_of_getElem? hw)
  ask hq hmem := by
    refine ⟨⟨hmem, ?_⟩, fun _ => trivial⟩
    cases hq <;> rfl
  addServer _ := by
    simp only [addServer, Prog.acquire_bind, Prog.read_bind]
    intro t _
    beta_reduce
    split <;> trivial

theorem asks_pingServer {server : FileServer} (hmem : server ∈ servers) :
    (pingServer tokens server).Asks (fun t => t.serverTable ⊆ servers) (Contacts tokens servers)
      fun _ => True := by
  have hremove : ∀ id, (removeServer id : TableProg Request Reply Unit).Asks
      (fun t => t.serverTable ⊆ servers) (Contacts tokens servers) fun _ => True := by
    intro id
    simp only [removeServer, Prog.acquire_bind, Prog.read_bind]
    intro t _
    beta_reduce
    split <;> trivial
  refine ⟨⟨hmem, rfl⟩, fun r => ?_⟩
  change (handlePingResponse r.read server).Asks _ _ _
  rw [handlePingResponse, decode_pingResponse]
  have htype : (if (pDecode r.read.buffer).val.msgType ≠ MsgType.ping.code then
      removeServer server.id else pure () : TableProg Request Reply Unit).Asks
        (fun t => t.serverTable ⊆ servers) (Contacts tokens servers) fun _ => True := by
    split
    · exact hremove _
    · trivial
  split
  · exact (hremove _).bind fun _ _ => htype
  · exact htype

/-- What the threads ask. -/
theorem asks_servingPackets (served : Heap → UInt32 → ReadResult → Prop) (th : MasterThread)
    (p : TableProg Request Reply Unit) (hp : servingPackets tokens served th p) :
    p.Asks (fun t => t.serverTable ⊆ servers) (Contacts tokens servers) fun _ => True := by
  cases th with
  | admin =>
    rw [show p = forEachServer (pingServer tokens) from hp]
    have hloop : ∀ n i, (forEachLoop (pingServer tokens) n i).Asks
        (fun t => t.serverTable ⊆ servers) (Contacts tokens servers) fun _ => True := by
      intro n
      induction n with
      | zero => exact fun _ => trivial
      | succ n ih =>
        intro i
        rw [forEachLoop_succ]
        intro t ht
        beta_reduce
        split
        · split
          · trivial
          · rename_i w hw
            exact (asks_pingServer (ht (List.mem_of_getElem? hw))).bind fun _ _ => ih (i + 1)
        · trivial
    exact (hloop ushrtMax 0).bind fun _ _ => trivial
  | main =>
    obtain ⟨heap, workerId, r, -, rfl⟩ := hp
    exact ((servingRules_asks fun _ => True).handleClient heap workerId r
      fun _ _ => trivial).bind fun _ _ => trivial

end Asks

/-! ### Runs -/

/-- **Whom the master contacts.** In every run of the two threads, whatever the packets and the
answers are, no entry leaves the table. Every entry was there at the start or is the one of a
REGISTER packet that was served, and every request carries the token of the master and goes to an
entry. -/
theorem contacts_registered (tokens : Tokens) (served : Heap → UInt32 → ReadResult → Prop)
    (t : ServerTable) {io : List (Request × Reply)}
    {visited : List (Config MasterThread Request Reply ServerTable)}
    {c : Config MasterThread Request Reply ServerTable}
    (hr : Run (servingPackets tokens served) (masterStart t) io visited c) :
    (∀ v ∈ visited, v.shared.serverTable <+: c.shared.serverTable) ∧
      (∀ w ∈ c.shared.serverTable, w ∈ t.serverTable ∨ RegisteredBy tokens served w) ∧
      ∀ x ∈ io, Contacts tokens c.shared.serverTable x.1 := by
  have hidle : (masterStart t).Updating PingAnswered FoundWorker
      (Enters (RegisteredBy tokens served)) := fun _ => rfl
  have hgrown := (hr.reflTransGen_shared (updates_servingPackets tokens served) hidle).2
  have hgrows : ∀ v ∈ visited, v.shared.serverTable <+: c.shared.serverTable := fun v hv =>
    (prefix_of_enters (hgrown v hv)).1
  have hasks : ∀ th, ((masterStart t).prog th).Asks
      (fun t' => t'.serverTable ⊆ c.shared.serverTable) (Contacts tokens c.shared.serverTable)
        fun _ => True := fun _ => trivial
  exact ⟨hgrows, (prefix_of_enters (hgrown _ hr.start_mem_visited)).2,
    hr.forall_call (asks_servingPackets served) hasks fun v hv => (hgrows v hv).subset⟩

/-- The idle main thread serves a packet that registers a worker. -/
theorem exists_run_registration {tokens : Tokens} {served : Heap → UInt32 → ReadResult → Prop}
    {heap : Heap} {workerId : UInt32} {r : ReadResult} (hserved : served heap workerId r)
    {w : FileServer} (hw : registered tokens heap workerId r = some w) {t t' : ServerTable}
    (hadd : t.add w = some t') : ∃ visited c,
      Run (servingPackets tokens served) (masterStart t) [] visited c ∧ c.shared = t' ∧
        c.holder = none ∧ c.prog .admin = .ret () := by
  obtain ⟨k, hk, hkt⟩ : ∃ k, serveClient tokens heap workerId r = .lock (.get k) ∧
      k t = .set t' (.unlock (.ret ())) := by
    rw [serveClient, handleClient_of_registered hw]
    refine ⟨_, rfl, ?_⟩
    simp only [Prog.bind, hadd]
    rfl
  have hentry : servingPackets tokens served .main (.lock (.get k)) :=
    ⟨heap, workerId, r, hserved, hk.symm⟩
  have h₁ : Run (servingPackets tokens served) (masterStart t) [] _ _ :=
    Run.start.step (.start rfl hentry)
  have h₂ : Run (servingPackets tokens served) (masterStart t) [] _ _ :=
    h₁.step (.lock (Config.prog_resume_self _ _ _) rfl)
  have h₃ : Run (servingPackets tokens served) (masterStart t) [] _ _ :=
    h₂.step (.get (Config.prog_resume_self _ _ _))
  have h₄ : Run (servingPackets tokens served) (masterStart t) [] _ _ :=
    h₃.step (.set ((Config.prog_resume_self _ _ _).trans hkt))
  have h₅ : Run (servingPackets tokens served) (masterStart t) [] _ _ :=
    h₄.step (.unlock (Config.prog_resume_self _ _ _))
  exact ⟨_, _, h₅, rfl, rfl, rfl⟩

/-- The packet of a worker at `192.168.100.100`, and no other one. -/
def exampleServed (heap : Heap) (_ : UInt32) (r : ReadResult) : Prop :=
  heap = (blankMemory (fun _ => 0) [0]).heap ∧
    r = .delivered (registerWire exampleTokens exampleAddress.text fun _ => 0) fun _ => 0

/-- A worker that was registered is in the table after a ping that it did not answer. -/
theorem contacts_registered_exampleServed : ∃ visited c,
    Run (servingPackets exampleTokens exampleServed) (masterStart .empty)
      [(pingRequest exampleTokens (exampleEntry 1), silentReply)] visited c ∧
    exampleEntry 1 ∈ c.shared.serverTable := by
  have hadd : ServerTable.empty.add (exampleEntry 1) = some ⟨[exampleEntry 1], 1, rfl⟩ := rfl
  obtain ⟨visited, c, hr, hshared, hfree, hidle⟩ := exists_run_registration
    (show exampleServed _ 1 _ from ⟨rfl, rfl⟩) (registered_exampleRegistration 1) hadd
  obtain ⟨visited', c', hr', -, -⟩ := exists_run_ping
    (show servingPackets exampleTokens exampleServed .admin
      (forEachServer (pingServer exampleTokens)) from rfl) hr hidle hfree (w := exampleEntry 1)
    (by rw [hshared]; rfl) silentReply
  exact ⟨visited', c', hr',
    ((contacts_registered exampleTokens exampleServed .empty hr').2.2 _
      (List.mem_singleton_self _)).1⟩

end PekarDrive
