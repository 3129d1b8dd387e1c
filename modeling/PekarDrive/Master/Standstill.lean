import PekarDrive.Foundation.Standstill
import PekarDrive.Master.Response
import PekarDrive.Master.Serving
import PekarDrive.WorkerAdmin.PingLocking

/-!
# The master after a ping that was not answered

The main thread of the master serves one client after the other with `handle_client`, while the
admin thread pings the workers (`manager_thread`). A ping that is not answered leaves the admin
thread waiting for the mutex that it holds. From then on no worker is pinged, none is registered or
removed, and of the packets of the clients only those are served that need neither the table nor a
worker.

## Main definitions

* `PekarDrive.serveClient`, `PekarDrive.servingEntry`: the programs of the two threads.
* `PekarDrive.PingAnswered`: the answers that the admin thread goes on after.
* `PekarDrive.ServedFree`: the packets that are still served.

## Main results

* `PekarDrive.updates_serveClient`, `PekarDrive.updates_pingRound`.
* `PekarDrive.returnsFree_serveClient_iff`.
* `PekarDrive.standstill`.
-/

namespace PekarDrive

open CMemory CText LockedThreads

/-! ### The threads -/

/-- `handle_client`, as `main` calls it. -/
def serveClient (tokens : Tokens) (heap : Heap) (workerId : UInt32) (r : ReadResult) :
    TableProg Request Reply Unit := do
  let _ ← handleClient tokens heap workerId r
  return ()

/-- The programs that the threads start: one ping round after the other, and one client after the
other. -/
def servingEntry (tokens : Tokens) : MasterThread → TableProg Request Reply Unit → Prop
  | .admin, p => p = forEachServer (pingServer tokens)
  | .main, p => ∃ heap workerId r, p = serveClient tokens heap workerId r

/-- A ping is answered by a PING packet. -/
def PingAnswered (q : Request) (r : Reply) : Prop :=
  q.packet.msgType = MsgType.ping.code → AnswersPing r

/-- The table that a thread has found when it requests the mutex that it holds: the main thread
never does, and the admin thread has found a worker. -/
def FoundWorker : MasterThread → ServerTable → Prop
  | .main, _ => False
  | .admin, t => t.serverCount ≠ 0

/-- The packets that are served without the mutex: those whose read failed, a REGISTER without the
token of the workers, a WRITE without a separator, an APPEND, which calls no worker, and what is no
request at all. -/
def ServedFree (tokens : Tokens) (heap : Heap) (r : ReadResult) : Prop :=
  0 < r.bytes →
    match MsgType.ofCode (pDecode r.buffer).val.msgType with
    | some .register => (pDecode r.buffer).val.token ≠ tokens.workerTkn
    | some .write => charAt (argMemory r heap) semicolon = some (-1)
    | some .append => (CString.ofMemory (argMemory r heap)).bytes ≠ [] ∨
        charAt (argMemory r heap) semicolon = some (-1)
    | some .ls => False
    | some .read => False
    | some .delete => False
    | _ => True

/-! ### The functions own the table while they hold the mutex -/

/-- The rules for programs that start and end without the mutex, and add entries to the table. -/
theorem servingRules_updates {tokens : Tokens} {ok : Request → Reply → Prop}
    {S : ServerTable → Prop} {Added : FileServer → Prop} {G : ServerTable → ServerTable → Prop}
    (hok : ∀ q, ServesRequest tokens q → ∀ r, ok q r)
    (hadd : ∀ {t t' w}, Added w → t.add w = some t' → G t t') :
    ServingRules tokens (fun _ => True) Added fun _ p post =>
      p.Updates ok S G (fun own a => own = none ∧ post a) none where
  ret hpost := ⟨rfl, hpost⟩
  fault := trivial
  bind hp hf := hp.bind fun own a ⟨hown, hpost⟩ => hown ▸ hf a hpost
  tableCount _ _ := ⟨rfl, trivial⟩
  getfsIndex index := by
    intro t _
    change (if t.serverCount.toNat ≤ index then Prog.ret none
      else Prog.lock (Prog.unlock (Prog.ret (some index))) :
        TableProg Request Reply _).Updates ok S G _ none
    split
    · exact ⟨rfl, trivial⟩
    · exact ⟨rfl, fun _ => ⟨Option.some_ne_none _, rfl, trivial⟩⟩
  derefServer server := by
    cases server with
    | none => trivial
    | some i =>
      simp only [derefServer, Prog.read_bind]
      intro t _
      beta_reduce
      split
      · trivial
      · exact ⟨rfl, trivial⟩
  ask hq _ := Prog.updates_ask (hok _ hq) fun _ => ⟨rfl, trivial⟩
  addServer hw := by
    simp only [addServer, Prog.acquire_bind, Prog.read_bind]
    refine ⟨rfl, fun s t ht => ?_⟩
    obtain rfl := ht s rfl
    beta_reduce
    split
    · trivial
    · rename_i t' hadded
      exact ⟨⟨s, rfl, hadd hw hadded⟩, Option.some_ne_none _, rfl, trivial⟩

section Updates

variable (tokens : Tokens) {G : ServerTable → ServerTable → Prop}

/-- A ping leaves the table, unless it is not answered. -/
theorem updates_pingServer (server : FileServer) {t : ServerTable} (hcount : t.serverCount ≠ 0) :
    (pingServer tokens server).Updates PingAnswered (FoundWorker .admin) G
      (fun own _ => own = some t) (some t) := by
  intro r
  refine ⟨fun hr => ?_, fun hr => ⟨⟨t, rfl, hcount⟩, ?_⟩⟩
  · change (handlePingResponse r.read server).Updates _ _ _ _ (some t)
    rw [handlePingResponse_of_answersPing server (hr rfl)]
    rfl
  · exact requestsLock_handlePingResponse server fun h => hr fun _ => h

/-- A ping round owns the table while it holds the mutex, and never gets to write it. -/
theorem updates_pingRound :
    (forEachServer (pingServer tokens)).Updates PingAnswered (FoundWorker .admin) G
      (fun own _ => own = none) none := by
  have hloop : ∀ n i t, (forEachLoop (pingServer tokens) n i).Updates PingAnswered
      (FoundWorker .admin) G (fun own _ => own = some t) (some t) := by
    intro n
    induction n with
    | zero => exact fun _ _ => rfl
    | succ n ih =>
      intro i t
      rw [forEachLoop_succ]
      rintro t' ht
      obtain rfl := ht t rfl
      beta_reduce
      split
      · rename_i hi
        split
        · trivial
        · refine (updates_pingServer tokens _ fun hcount => ?_).bind fun own _ hown => ?_
          · rw [hcount] at hi
            exact absurd hi (Nat.not_lt_zero i)
          · rw [hown]
            exact ih (i + 1) t
      · rfl
  refine ⟨rfl, fun t => (hloop ushrtMax 0 t).bind fun own _ hown => ?_⟩
  rw [hown]
  exact ⟨Option.some_ne_none _, rfl⟩

/-- Serving a client adds the entry of its packet, if it registers one. -/
theorem updates_serveClient {th : MasterThread} {Added : FileServer → Prop}
    (hadd : ∀ {t t' w}, Added w → t.add w = some t' → G t t') (heap : Heap) (workerId : UInt32)
    (r : ReadResult) (hr : ∀ w, registered tokens heap workerId r = some w → Added w) :
    (serveClient tokens heap workerId r).Updates PingAnswered (FoundWorker th) G
      (fun own _ => own = none) none := by
  have hls : MsgType.ls.code ≠ MsgType.ping.code := by decide
  have hwrite : MsgType.write.code ≠ MsgType.ping.code := by decide
  have hdelete : MsgType.delete.code ≠ MsgType.ping.code := by decide
  have hrules : ServingRules tokens (fun _ => True) Added fun _ p post =>
      p.Updates PingAnswered (FoundWorker th) G (fun own a => own = none ∧ post a) none := by
    refine servingRules_updates (fun q hq _ hping => ?_) hadd
    -- the exchanges that serve a client are no pings
    cases hq with
    | ls w => exact absurd hping hls
    | write file data w => exact absurd hping hwrite
    | delete file w => exact absurd hping hdelete
  exact (hrules.handleClient heap workerId r hr).bind fun _ _ h => h.1

end Updates

/-- Every program of the threads starts and ends without the mutex. -/
theorem closed_servingEntry (tokens : Tokens) (th : MasterThread)
    (p : TableProg Request Reply Unit) (hp : servingEntry tokens th p) :
    p.Closed PingAnswered (FoundWorker th) := by
  cases th with
  | admin =>
    rw [show p = forEachServer (pingServer tokens) from hp]
    exact (updates_pingRound tokens (G := fun _ _ => True)).owns
  | main =>
    obtain ⟨heap, workerId, r, rfl⟩ := hp
    exact (updates_serveClient tokens (G := fun _ _ => True) (fun _ _ => trivial) heap workerId r
      fun _ _ => trivial).owns

theorem owned_masterStart (t : ServerTable) : (masterStart t).Owned PingAnswered FoundWorker :=
  fun _ => rfl

/-! ### What is served without the mutex -/

section Served

variable (tokens : Tokens) (heap : Heap) (workerId : UInt32) {t : ServerTable} {r : ReadResult}
  {type : UInt32} {arg : List UInt8}

/-- The first worker is looked up under the mutex. -/
theorem not_returnsFree_getfsIndex (hcount : t.serverCount ≠ 0) (post : Option ℕ → Prop) :
    ¬ (getfsIndex 0 : TableProg Request Reply (Option ℕ)).ReturnsFree t post := by
  have hpos : ¬ t.serverCount.toNat ≤ 0 := fun hle =>
    hcount (UInt16.toNat_inj.mp (Nat.le_zero.mp hle))
  intro h
  change (if t.serverCount.toNat ≤ 0 then Prog.ret none
    else Prog.lock (Prog.unlock (Prog.ret (some 0))) :
      TableProg Request Reply _).ReturnsFree t post at h
  rw [if_neg hpos] at h
  exact h

theorem not_returnsFree_workerLsIndex (hcount : t.serverCount ≠ 0) (post : Option CString → Prop) :
    ¬ (workerLsIndex tokens 0).ReturnsFree t post := by
  rw [workerLsIndex, Prog.returnsFree_bind]
  exact not_returnsFree_getfsIndex hcount _

/-- Of the calls that serve requests, only that of an APPEND needs no mutex and leads to an
answer. -/
theorem returnsFree_perform_iff (hcount : t.serverCount ≠ 0) (call : AdminCall) :
    (call.perform tokens heap >>= sendBack workerId).ReturnsFree t (fun _ => True) ↔
      ∃ file data, call = .append file data := by
  obtain ⟨n, hn⟩ : ∃ n, t.serverCount.toNat = n + 1 :=
    Nat.exists_eq_succ_of_ne_zero fun hzero => hcount (UInt16.toNat_inj.mp hzero)
  rw [Prog.returnsFree_bind]
  cases call with
  | ls =>
    refine iff_of_false (fun h => ?_) (by simp)
    rw [AdminCall.perform, Prog.returnsFree_bind, workerLs, Prog.returnsFree_bind] at h
    change (workerLsLoop tokens t.serverCount.toNat 0 _).ReturnsFree t _ at h
    rw [hn, workerLsLoop, Prog.returnsFree_bind] at h
    exact not_returnsFree_workerLsIndex tokens hcount _ h
  | read file => exact iff_of_false id (by simp)
  | write file data =>
    refine iff_of_false (fun h => ?_) (by simp)
    rw [AdminCall.perform, Prog.returnsFree_bind, workerWrite, Prog.returnsFree_bind, leastLoad,
      Prog.returnsFree_bind] at h
    change (if t.serverCount = 0 then Prog.ret none
      else getfsIndex 0 : TableProg Request Reply _).ReturnsFree t _ at h
    rw [if_neg hcount] at h
    exact not_returnsFree_getfsIndex hcount _ h
  | append file data => exact iff_of_true trivial ⟨file, data, rfl⟩
  | delete file =>
    refine iff_of_false (fun h => ?_) (by simp)
    rw [AdminCall.perform, Prog.returnsFree_bind, workerDelete, Prog.returnsFree_bind, findByFile,
      Prog.returnsFree_bind] at h
    change (findByFileLoop tokens file t.serverCount.toNat 0).ReturnsFree t _ at h
    rw [hn, findByFileLoop, Prog.returnsFree_bind] at h
    exact not_returnsFree_workerLsIndex tokens hcount _ h

/-- What becomes of the argument of a WRITE or an APPEND: no separator is found, an empty argument
stops the master, or the argument is cut in two. -/
theorem longParts_cases (type : UInt32) (arg : List UInt8) :
    charAt arg semicolon = some (-1) ∧
        execLong tokens heap type arg = .ret (some serverError) ∨
      charAt arg semicolon ≠ some (-1) ∧ (CString.ofMemory arg).bytes = [] ∧
        execLong tokens heap type arg = .fault ∨
      charAt arg semicolon ≠ some (-1) ∧ (CString.ofMemory arg).bytes ≠ [] ∧
        ∃ parts, longParts heap arg = some parts := by
  by_cases hsep : charAt arg semicolon = some (-1)
  · exact .inl ⟨hsep, by simp [execLong, hsep]⟩
  by_cases harg : (CString.ofMemory arg).bytes = []
  · refine .inr (.inl ⟨hsep, harg, ?_⟩)
    cases hfound : charAt arg semicolon with
    | none => simp [execLong, hfound]
    | some separator =>
      have hpos : 0 < separator := (pos_of_charAt (by decide) harg hfound).resolve_left
        fun heq => hsep (heq ▸ hfound)
      have hlen : ((CString.ofMemory arg).strlen : ℤ) < separator := by
        rw [CString.strlen, harg]
        exact_mod_cast hpos
      simp only [execLong, hfound]
      rw [if_neg (by omega), if_pos hlen]
  · refine .inr (.inr ⟨hsep, harg, ?_⟩)
    obtain ⟨separator, hfound, hcases⟩ := exists_charAt_eq_some semicolon harg
    obtain ⟨j, rfl, hj⟩ := hcases.resolve_left fun heq => hsep (heq ▸ hfound)
    rw [longParts, hfound]
    simp only
    rw [if_neg (by omega), if_neg (by omega)]
    exact ⟨_, rfl⟩

/-- A packet that is no REGISTER is served without the mutex if its request is. -/
theorem returnsFree_handleClient_of_request (hr : 0 < r.bytes) (hcount : t.serverCount ≠ 0)
    (htype : (pDecode r.buffer).val.msgType ≠ MsgType.register.code) (post : Served → Prop) :
    (handleClient tokens heap workerId r).ReturnsFree t post ↔
      (handleRequest tokens heap (pDecode r.buffer).val.msgType (argMemory r heap) >>=
        sendBack workerId).ReturnsFree t post := by
  rw [handleClient, DecodeSite.masterClient.decode_of_pos hr]
  simp only
  rw [if_pos htype]
  change ((if decide (t.serverCount ≠ 0) = true then _ else _ :
    TableProg Request Reply Served)).ReturnsFree t post ↔ _
  rw [if_pos (by simpa using hcount)]
  rfl

/-- A request that leads to a call. -/
theorem returnsFree_handleRequest_of_some (hcount : t.serverCount ≠ 0) {call : AdminCall}
    (hcall : adminCall heap type arg = some call) :
    (handleRequest tokens heap type arg >>= sendBack workerId).ReturnsFree t (fun _ => True) ↔
      ∃ file data, call = .append file data := by
  rw [handleRequest_of_some tokens hcall]
  exact returnsFree_perform_iff tokens heap workerId hcount call

/-- A request is served without the mutex if it is an APPEND that is answered, a WRITE without a
separator, or no request at all. -/
theorem returnsFree_handleRequest_iff (hcount : t.serverCount ≠ 0) (type : UInt32)
    (arg : List UInt8) :
    (handleRequest tokens heap type arg >>= sendBack workerId).ReturnsFree t (fun _ => True) ↔
      match MsgType.ofCode type with
      | some .write => charAt arg semicolon = some (-1)
      | some .append => (CString.ofMemory arg).bytes ≠ [] ∨ charAt arg semicolon = some (-1)
      | some .ls => False
      | some .read => False
      | some .delete => False
      | _ => True := by
  have hcall : ∀ call, adminCall heap type arg = some call →
      ((handleRequest tokens heap type arg >>= sendBack workerId).ReturnsFree t (fun _ => True) ↔
        ∃ file data, call = .append file data) :=
    fun _ => returnsFree_handleRequest_of_some tokens heap workerId hcount
  cases htype : MsgType.ofCode type with
  | none =>
    simp only [handleRequest, htype]
    exact iff_of_true trivial trivial
  | some k =>
    cases k with
    | ping =>
      simp only [handleRequest, htype]
      exact iff_of_true trivial trivial
    | register =>
      simp only [handleRequest, htype]
      exact iff_of_true trivial trivial
    | ls =>
      rw [hcall .ls (by rw [adminCall, htype])]
      simp
    | read =>
      rw [hcall (.read (CString.ofMemory arg)) (by rw [adminCall, htype])]
      simp
    | delete =>
      rw [hcall (.delete (CString.ofMemory arg)) (by rw [adminCall, htype])]
      simp
    | write =>
      have hrequest : handleRequest tokens heap type arg = execLong tokens heap type arg := by
        simp only [handleRequest, htype]
      rcases longParts_cases tokens heap type arg with
        ⟨hsep, hlong⟩ | ⟨hsep, -, hlong⟩ | ⟨hsep, -, parts, hparts⟩
      · rw [hrequest, hlong]
        exact iff_of_true trivial hsep
      · rw [hrequest, hlong]
        exact iff_of_false id hsep
      · rw [hcall (.write parts.1 parts.2) (by simp only [adminCall, htype, hparts]; rfl)]
        exact iff_of_false (by simp) hsep
    | append =>
      have hrequest : handleRequest tokens heap type arg = execLong tokens heap type arg := by
        simp only [handleRequest, htype]
      rcases longParts_cases tokens heap type arg with
        ⟨hsep, hlong⟩ | ⟨hsep, harg, hlong⟩ | ⟨hsep, harg, parts, hparts⟩
      · rw [hrequest, hlong]
        exact iff_of_true trivial (.inr hsep)
      · rw [hrequest, hlong]
        exact iff_of_false id fun h => h.elim (fun hne => hne harg) hsep
      · rw [hcall (.append parts.1 parts.2) (by simp only [adminCall, htype, hparts]; rfl)]
        exact iff_of_true ⟨_, _, rfl⟩ (.inl harg)

/-- **Without the mutex** the packets of `ServedFree` are served, and no others. -/
theorem returnsFree_serveClient_iff (hcount : t.serverCount ≠ 0) :
    (serveClient tokens heap workerId r).ReturnsFree t (fun _ => True) ↔
      ServedFree tokens heap r := by
  rw [serveClient, Prog.returnsFree_bind]
  change (handleClient tokens heap workerId r).ReturnsFree t (fun _ => True) ↔ _
  by_cases hr : 0 < r.bytes
  · rw [ServedFree, forall_prop_of_true hr]
    by_cases htype : (pDecode r.buffer).val.msgType = MsgType.register.code
    · rw [htype, MsgType.ofCode_code]
      by_cases htoken : (pDecode r.buffer).val.token = tokens.workerTkn
      · rw [handleClient_of_register tokens heap workerId hr htype htoken]
        refine iff_of_false (fun h => ?_) (not_not.mpr htoken)
        split at h
        · exact h
        · exact h
      · refine iff_of_true ?_ htoken
        rw [handleClient, DecodeSite.masterClient.decode_of_pos hr]
        simp only
        rw [if_neg (not_not.mpr htype), if_pos htoken]
        trivial
    · rw [returnsFree_handleClient_of_request tokens heap workerId hr hcount htype,
        returnsFree_handleRequest_iff tokens heap workerId hcount]
      cases hcode : MsgType.ofCode (pDecode r.buffer).val.msgType with
      | none => rfl
      | some k =>
        cases k with
        | register => exact absurd (MsgType.ofCode_eq_some.mp hcode) htype
        | _ => rfl
  · rw [handleClient_of_not_pos tokens heap workerId hr]
    exact iff_of_true trivial fun hpos => absurd hpos hr

end Served

/-! ### Runs -/

/-- **Standstill of the master.** Take any run of the two threads in which a ping was not answered
by a PING packet. However it goes on, the table stays as it is, the admin thread waits for the mutex
that it holds, and the service of a client whose packet has room in the buffer can come to its end
if and only if it needs no mutex. -/
theorem standstill (tokens : Tokens) (t : ServerTable) {io io' : List (Request × Reply)}
    {visited visited' : List (Config MasterThread Request Reply ServerTable)}
    {c d : Config MasterThread Request Reply ServerTable}
    (hr : Run (servingEntry tokens) (masterStart t) io visited c)
    (hfail : ∃ x ∈ io, x.1.packet.msgType = MsgType.ping.code ∧ ¬ AnswersPing x.2)
    (hrest : Run (servingEntry tokens) c io' visited' d) :
    d.shared = c.shared ∧ d.holder = some .admin ∧ (d.prog .admin).requestsLock = true ∧
      ∀ heap workerId r, DecodeSite.masterClient.Inside r →
        d.prog .main = serveClient tokens heap workerId r →
        ((∃ io'' visited'' e, Run (servingEntry tokens) d io'' visited'' e ∧
            e.prog .main = .ret ()) ↔ ServedFree tokens heap r) := by
  have hentry := closed_servingEntry tokens
  obtain ⟨x, hx, hping, hsilent⟩ := hfail
  obtain ⟨th, hc⟩ := hr.exists_stuckAt hentry (owned_masterStart t)
    ⟨x, hx, fun hanswered => hsilent (hanswered hping)⟩
  obtain ⟨hd, hshared, -, -⟩ := hc.of_run hentry hrest
  cases th with
  | main => exact hd.state.elim
  | admin =>
    refine ⟨hshared, hd.holder, hd.requests, fun heap workerId r _ hserve => ?_⟩
    rw [hd.exists_run_iff hentry (show MasterThread.main ≠ .admin by decide), hserve]
    exact returnsFree_serveClient_iff tokens heap workerId hd.state

/-- Where the mutex is free, the idle admin thread takes it, reads the table and pings the first
worker, which answers `r`. -/
theorem exists_run_ping {entry : MasterThread → TableProg Request Reply Unit → Prop}
    {tokens : Tokens} (hentry : entry .admin (forEachServer (pingServer tokens)))
    {c₀ c : Config MasterThread Request Reply ServerTable} {io : List (Request × Reply)}
    {visited : List (Config MasterThread Request Reply ServerTable)}
    (hr : Run entry c₀ io visited c) (hidle : c.prog .admin = .ret ()) (hfree : c.holder = none)
    {w : FileServer} (hw : c.shared.serverTable[0]? = some w) (r : Reply) : ∃ visited' c',
      Run entry c₀ (io ++ [(pingRequest tokens w, r)]) visited' c' ∧ c'.shared = c.shared ∧
        c'.prog .main = c.prog .main := by
  have hlt : 0 < c.shared.serverCount.toNat := by
    rw [← c.shared.count_eq]
    exact (List.getElem?_eq_some_iff.mp hw).1
  obtain ⟨k, hk, hkt⟩ : ∃ k, forEachLoop (pingServer tokens) ushrtMax 0 = .get k ∧
      k c.shared = pingServer tokens w >>= fun _ => forEachLoop (pingServer tokens) 65534 1 := by
    rw [show ushrtMax = 65534 + 1 from rfl, forEachLoop_succ]
    refine ⟨_, rfl, ?_⟩
    simp only [if_pos hlt, hw]
  have hround : forEachServer (pingServer tokens) =
      .lock (.get fun t => k t >>= fun _ => Prog.release) := by
    rw [forEachServer, hk]
    rfl
  obtain ⟨k', hk'⟩ : ∃ k', (k c.shared >>= fun _ => Prog.release) =
      .call (pingRequest tokens w) k' := by
    rw [hkt]
    exact ⟨_, rfl⟩
  rw [hround] at hentry
  have h₁ : Run entry c₀ (io ++ []) _ _ := hr.step (.start hidle hentry)
  have h₂ : Run entry c₀ (io ++ [] ++ []) _ _ :=
    h₁.step (.lock (Config.prog_resume_self _ _ _) hfree)
  have h₃ : Run entry c₀ (io ++ [] ++ [] ++ []) _ _ :=
    h₂.step (.get (Config.prog_resume_self _ _ _))
  have h₄ := h₃.step (.call r ((Config.prog_resume_self _ _ _).trans hk'))
  simp only [List.append_nil] at h₄
  exact ⟨_, _, h₄, rfl, rfl⟩

/-- After a ping to the only worker that is not answered, an LS is never served. -/
theorem standstill_silentReply : ∃ visited c, Run (servingEntry exampleTokens)
    (masterStart oneServer) [(pingRequest exampleTokens (exampleServer 1), silentReply)] visited c ∧
    ∃ visited' d, Run (servingEntry exampleTokens) c [] visited' d ∧
      d.prog .main = serveClient exampleTokens zeroHeap 2 (exampleDelivery .ls (lit "")) ∧
      ¬ ∃ io'' visited'' e, Run (servingEntry exampleTokens) d io'' visited'' e ∧
        e.prog .main = .ret () := by
  obtain ⟨visited, c, hr, -, hidle⟩ := exists_run_ping
    (show servingEntry exampleTokens .admin (forEachServer (pingServer exampleTokens)) from rfl)
    (Run.start : Run _ (masterStart oneServer) [] _ _) rfl rfl (w := exampleServer 1) rfl
    silentReply
  have hpos : 0 < (exampleDelivery .ls (lit "")).bytes := by decide
  have htype : MsgType.ofCode (pDecode (exampleDelivery .ls (lit "")).buffer).val.msgType =
      some .ls := by decide
  have hnot : ¬ ServedFree exampleTokens zeroHeap (exampleDelivery .ls (lit "")) := by
    intro h
    have hserved := h hpos
    rw [htype] at hserved
    exact hserved
  have hstart : servingEntry exampleTokens .main
      (serveClient exampleTokens zeroHeap 2 (exampleDelivery .ls (lit ""))) := ⟨_, _, _, rfl⟩
  have hrest : Run (servingEntry exampleTokens) c [] _ _ := Run.start.step (.start hidle hstart)
  have hprog := c.prog_resume_self MasterThread.main
    (serveClient exampleTokens zeroHeap 2 (exampleDelivery .ls (lit "")))
  exact ⟨visited, c, hr, _, _, hrest, hprog, fun h => hnot <|
    ((standstill exampleTokens oneServer hr ⟨_, List.mem_singleton_self _, rfl, by decide⟩
      hrest).2.2.2 _ _ _ (by decide) hprog).1 h⟩

end PekarDrive
