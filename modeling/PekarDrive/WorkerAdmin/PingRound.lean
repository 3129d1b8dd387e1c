import PekarDrive.Foundation.DeletingPass
import PekarDrive.WorkerAdmin.PingLocking
import Mathlib.Data.List.Count

/-!
# One ping round

`for_each_server(ping_server)` run alone with every lock granted, for workers whose answers are a
function of the worker. The callback removes the current entry when the worker does not answer,
which moves the next entry into its place, and the loop goes on with the next index: the round is
a deleting walk (`PekarDrive.eval_pingLoop`). So the round pings every worker and leaves exactly
those that answered if and only if all workers but the last one answer
(`PekarDrive.pingRoundCorrect_iff`).

## Main definitions

* `PekarDrive.pingRound`: the round, with the exchanges made.
* `PekarDrive.PingRoundCorrect`: what a round is for.

## Main results

* `PekarDrive.eval_pingLoop`: the round as a deleting walk over the table.
* `PekarDrive.pingRoundCorrect_iff`.
-/

namespace PekarDrive

open CMemory CText LockedThreads DeletingPass

/-- One round, from no exchange: the exchanges made and the table at the end. -/
def pingRound (tokens : Tokens) (out : FileServer → Reply) (t : ServerTable) :
    List Request × Option (Unit × ServerTable) :=
  (forEachServer (pingServer tokens)).eval (fun _ q => out q.server) [] t

/-- The round returns, has pinged every worker of the table exactly once, and leaves exactly the
workers that answered with a PING, in their order. -/
def PingRoundCorrect (tokens : Tokens) (out : FileServer → Reply) (t : ServerTable) : Prop :=
  ∃ io t', pingRound tokens out t = (io, some ((), t')) ∧
    (∀ w ∈ t.serverTable, io.count (pingRequest tokens w) = 1) ∧
    t'.serverTable = t.serverTable.filter fun w => AnswersPing (out w)

/-! ### The round as a deleting walk -/

section Walk

variable (tokens : Tokens) (out : FileServer → Reply)

/-- The worker answers with a PING. -/
def answers (w : FileServer) : Bool := decide (AnswersPing (out w))

variable {out} {h : List Request} {t : ServerTable} {w : FileServer}

theorem eval_pingServer_of_answers (hw : answers out w = true)
    (k : Unit → TableProg Request Reply Unit) :
    (pingServer tokens w >>= k).eval (fun _ q => out q.server) h t =
      (k ()).eval (fun _ q => out q.server) (h ++ [pingRequest tokens w]) t := by
  have hans : AnswersPing (out w) := of_decide_eq_true hw
  change (handlePingResponse (out w).read w >>= k).eval _ _ t = _
  rw [handlePingResponse_of_answersPing w hans]
  rfl

theorem eval_pingServer_of_not_answers (hw : ¬ answers out w = true)
    (hremove : (t.remove w.id).remove w.id = t.remove w.id)
    (k : Unit → TableProg Request Reply Unit) :
    (pingServer tokens w >>= k).eval (fun _ q => out q.server) h t =
      (k ()).eval (fun _ q => out q.server) (h ++ [pingRequest tokens w]) (t.remove w.id) := by
  have hans : ¬ AnswersPing (out w) := fun hans => hw (decide_eq_true hans)
  have heval := eval_handlePingResponse (fun _ q => out q.server) (h ++ [pingRequest tokens w]) t
    (out w) w hremove
  rw [if_neg hans] at heval
  exact Prog.eval_bind_of_eq heval k

/-- With distinct ids, removing the entry behind `pre` joins `pre` and `post`, and a second
removal finds nothing. -/
theorem serverTable_remove_of_nodup {pre post : List FileServer}
    (ht : t.serverTable = pre ++ w :: post) (hid : (t.serverTable.map FileServer.id).Nodup) :
    (t.remove w.id).serverTable = pre ++ post ∧
      (t.remove w.id).remove w.id = t.remove w.id := by
  rw [ht, List.map_append, List.map_cons, List.nodup_middle, List.nodup_cons,
    ← List.map_append] at hid
  have hne : ∀ v ∈ pre ++ post, v.id ≠ w.id := fun v hv heq =>
    hid.1 (List.mem_map.mpr ⟨v, hv, heq⟩)
  have hrem : (t.remove w.id).serverTable = pre ++ post :=
    ServerTable.serverTable_remove_append ht
      (fun v hv => hne v (List.mem_append_left post hv)) rfl
  exact ⟨hrem, ServerTable.remove_of_forall_ne (hrem ▸ hne)⟩

variable (out) in
/-- **The loop of a round.** From the index behind `pre`, the loop pings the entries that a
deleting walk over the rest of the table visits, and leaves those that it leaves. -/
theorem eval_pingLoop : (rest pre : List FileServer) → (n : ℕ) → (h : List Request) →
    (t : ServerTable) → t.serverTable = pre ++ rest → (t.serverTable.map FileServer.id).Nodup →
    rest.length ≤ n → ∃ t', (forEachLoop (pingServer tokens) n pre.length).eval
      (fun _ q => out q.server) h t =
        (h ++ (visited (answers out) rest).map (pingRequest tokens), some ((), t')) ∧
      t'.serverTable = pre ++ survivors (answers out) rest
  | [], pre, n, h, t, ht, _, _ => by
      refine ⟨t, ?_, ht⟩
      rw [eval_forEachLoop_of_le _ h _ n (by rw [ht, List.append_nil])]
      simp [visited]
  | w :: ws, pre, 0, _, _, _, _, hn => absurd hn (by simp)
  | w :: ws, pre, n + 1, h, t, ht, hid, hn => by
      have hget : t.serverTable[pre.length]? = some w := by rw [ht]; simp
      have hn' : ws.length ≤ n := Nat.le_of_succ_le_succ hn
      rw [eval_forEachLoop_succ _ h _ hget]
      by_cases hw : answers out w = true
      · -- the entry stays, and the walk goes on behind it
        have ht' : t.serverTable = (pre ++ [w]) ++ ws := by rw [ht]; simp
        obtain ⟨t', heval, htab⟩ := eval_pingLoop ws (pre ++ [w]) n
          (h ++ [pingRequest tokens w]) t ht' hid hn'
        refine ⟨t', ?_, ?_⟩
        · rw [eval_pingServer_of_answers tokens hw, visited_cons_of_good hw]
          simpa using heval
        · rw [htab, survivors_cons_of_good hw]
          simp
      · obtain ⟨hrem, htwice⟩ := serverTable_remove_of_nodup ht hid
        rw [eval_pingServer_of_not_answers tokens hw htwice]
        cases ws with
        | nil =>
          refine ⟨t.remove w.id, ?_, ?_⟩
          · rw [eval_forEachLoop_of_le _ _ _ n (by rw [hrem]; simp)]
            simp [visited]
          · rw [hrem, survivors, if_neg hw]
        | cons v vs =>
          -- `v` has moved to the index of `w`, and the walk goes on behind `v`
          have ht' : (t.remove w.id).serverTable = (pre ++ [v]) ++ vs := by rw [hrem]; simp
          have hid' : ((t.remove w.id).serverTable.map FileServer.id).Nodup := by
            rw [ht] at hid
            rw [hrem]
            refine hid.sublist (List.Sublist.map _ ?_)
            exact List.Sublist.append_left (List.sublist_cons_self w (v :: vs)) pre
          obtain ⟨t', heval, htab⟩ := eval_pingLoop vs (pre ++ [v]) n
            (h ++ [pingRequest tokens w]) (t.remove w.id) ht' hid'
            (Nat.le_of_succ_le hn')
          refine ⟨t', ?_, ?_⟩
          · rw [visited_cons_of_not_good hw]
            simpa using heval
          · rw [htab, survivors_cons_of_not_good hw]
            simp

end Walk

/-- A round over a table with distinct ids returns: it pings the entries of the deleting walk. -/
theorem pingRound_eq (tokens : Tokens) (out : FileServer → Reply) {t : ServerTable}
    (hid : (t.serverTable.map FileServer.id).Nodup) : ∃ t', pingRound tokens out t =
      ((visited (answers out) t.serverTable).map (pingRequest tokens), some ((), t')) ∧
    t'.serverTable = survivors (answers out) t.serverTable := by
  have hlen : t.serverTable.length ≤ ushrtMax := by
    rw [t.count_eq]
    exact Nat.le_of_lt_succ t.serverCount.toNat_lt
  obtain ⟨t', heval, htab⟩ := eval_pingLoop tokens out t.serverTable [] ushrtMax [] t rfl
    hid hlen
  refine ⟨t', ?_, htab⟩
  rw [pingRound, forEachServer, Prog.acquire_bind, Prog.eval_lock]
  exact Prog.eval_bind_of_eq heval _

theorem pingRequest_injective (tokens : Tokens) : Function.Injective (pingRequest tokens) :=
  fun _ _ h => congrArg Request.server h

/-- **A ping round.** For every table with distinct ids and all outcomes, the round pings every
worker exactly once and leaves exactly those that answered if and only if every worker but the
last one answers. -/
theorem pingRoundCorrect_iff (tokens : Tokens) (out : FileServer → Reply) (t : ServerTable)
    (hid : (t.serverTable.map FileServer.id).Nodup) :
    PingRoundCorrect tokens out t ↔ ∀ w ∈ t.serverTable.dropLast, AnswersPing (out w) := by
  obtain ⟨t', heval, htab⟩ := pingRound_eq tokens out hid
  have hnodup : t.serverTable.Nodup := hid.of_map
  have hgood : (∀ w ∈ t.serverTable.dropLast, AnswersPing (out w)) ↔
      ∀ w ∈ t.serverTable.dropLast, answers out w = true := by
    simp only [answers, decide_eq_true_eq]
  rw [hgood]
  constructor
  · rintro ⟨io, t'', heq, hcount, -⟩
    refine forall_mem_dropLast_of_subset hnodup fun w hw => ?_
    obtain ⟨rfl, -⟩ := Prod.ext_iff.mp (heval.symm.trans heq)
    have hpos := List.count_pos_iff.mp (by rw [hcount w hw]; decide)
    exact (List.mem_map_of_injective (pingRequest_injective tokens)).mp hpos
  · intro h
    refine ⟨_, t', heval, fun w hw => ?_, ?_⟩
    · rw [visited_eq_self _ h, List.count_map_of_injective _ _ (pingRequest_injective tokens)]
      exact List.count_eq_one_of_mem hnodup hw
    · rw [htab, survivors_eq_filter _ h]
      rfl

/-- A table with two workers. -/
def twoServers : ServerTable := ⟨[exampleServer 1, exampleServer 2], 2, rfl⟩

/-- The outcomes of a round in which all workers answer but the one with the given id. -/
def silentAt (id : UInt64) (w : FileServer) : Reply :=
  if w.id = id then silentReply else pingReply

/-- A silent last worker is removed and nothing else goes wrong. -/
theorem pingRoundCorrect_silent_last : PingRoundCorrect exampleTokens (silentAt 2) twoServers :=
  (pingRoundCorrect_iff exampleTokens (silentAt 2) twoServers (by decide)).2 (by decide)

/-- When the first of two workers is silent, the second is not pinged. -/
theorem not_pingRoundCorrect_silent_first :
    ¬ ∀ (tokens : Tokens) (out : FileServer → Reply) (t : ServerTable),
      (t.serverTable.map FileServer.id).Nodup → PingRoundCorrect tokens out t := by
  intro h
  obtain ⟨io, t', heq, hcount, -⟩ := h exampleTokens (silentAt 1) twoServers (by decide)
  obtain ⟨_, heval, -⟩ := pingRound_eq exampleTokens (silentAt 1) (t := twoServers) (by decide)
  have hio : (visited (answers (silentAt 1)) twoServers.serverTable).map
      (pingRequest exampleTokens) = io := congrArg Prod.fst (heval.symm.trans heq)
  have h2 := hcount (exampleServer 2) (by decide)
  rw [← hio] at h2
  exact absurd h2 (by decide)

end PekarDrive
