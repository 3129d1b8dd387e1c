import PekarDrive.Foundation.Confined
import PekarDrive.WorkerAdmin.Requests

/-!
# Answers that are too long

The functions that decode the answer of a worker take the length of its argument from the answer.
An answer that announces more than the receive buffer has room for sends `p_decode` beyond the
buffer. `worker_ls_index`, `written_bytes` and `handle_ping_response` look at nothing before they
decode but the return values of `conn_write` and `conn_read`.

A search for a file ends with the process at an answer that is too long, as it does at a worker that
does not answer.

## Main definitions

* `PekarDrive.Request.site`, `PekarDrive.Decodes`: the answers that are decoded inside the buffer.
* `PekarDrive.decoded`: the answers, those that are too long being taken for none.

## Main results

* `PekarDrive.keeps_workerLs_iff`, `PekarDrive.keeps_workerWrite_iff`: the answers that an LS and a
  WRITE meet.
* `PekarDrive.haltsOn_workerDelete`: the search of a DELETE.
-/

namespace PekarDrive

open CMemory CText LockedThreads

/-- The function that decodes the answer. -/
def Request.site (q : Request) : Option DecodeSite :=
  match MsgType.ofCode q.packet.msgType with
  | some .ls => some .lsIndex
  | some .write => some .writtenBytes
  | some .ping => some .pingResponse
  | _ => none

/-- The answer is decoded inside its buffer, unless it is not looked at: `worker_ls_index` does not
read when its request could not be written. -/
def Decodes (q : Request) (r : Reply) : Prop :=
  ∀ s ∈ q.site, s = .lsIndex ∧ r.written ≤ 0 ∨ s.Inside r.read

instance : DecidableRel Decodes := fun q r =>
  inferInstanceAs (Decidable (∀ s ∈ q.site, s = .lsIndex ∧ r.written ≤ 0 ∨ s.Inside r.read))

/-- The answers, those that are too long being taken for none. -/
def decoded (env : List Request → Request → Reply) : List Request → Request → Reply :=
  replaced Decodes (fun _ => silentReply) env

section Decodes

variable (tokens : Tokens) {file data : CString} (w : FileServer) (r : Reply)

theorem site_lsRequest : (lsRequest tokens w).site = some .lsIndex := rfl

theorem site_writeRequest : (writeRequest tokens file data w).site = some .writtenBytes := rfl

theorem site_deleteRequest : (deleteRequest tokens file w).site = none := rfl

theorem decodes_lsRequest_iff : Decodes (lsRequest tokens w) r ↔
    r.written ≤ 0 ∨ DecodeSite.lsIndex.Inside r.read := by
  simp [Decodes, site_lsRequest]

theorem decodes_writeRequest_iff : Decodes (writeRequest tokens file data w) r ↔
    DecodeSite.writtenBytes.Inside r.read := by
  simp [Decodes, site_writeRequest]

theorem decodes_deleteRequest : Decodes (deleteRequest tokens file w) r := by
  simp [Decodes, site_deleteRequest]

end Decodes

/-- A listing that is not missing with other answers is there with the answers themselves. -/
theorem listing_of_replaced {tokens : Tokens} {ok : Request → Reply → Prop} [DecidableRel ok]
    {env : List Request → Request → Reply} {h : List Request} {t : ServerTable} {i : ℕ}
    {ls : CString}
    (hls : listing tokens (replaced ok (fun _ => silentReply) env) h t i = some ls) :
    listing tokens env h t i = some ls := by
  rw [listing] at hls ⊢
  cases hi : t.serverTable[i]? with
  | none => exact absurd hls (by simp [hi])
  | some w =>
    simp only [hi, replaced] at hls ⊢
    split at hls
    · exact hls
    · exact absurd hls (by simp [show lsAnswer silentReply = none from rfl])

/-! ### The answers that are met -/

section Keeps

variable (tokens : Tokens) {ok : ServerTable → Request → Reply → Prop}
  {env : List Request → Request → Reply} {h : List Request} {t : ServerTable}

theorem keeps_getfsIndex (i : ℕ) :
    (getfsIndex i : TableProg Request Reply (Option ℕ)).Keeps ok env h t :=
  Prog.keeps_of_within (within_getfsIndex True (fun _ => False) i) fun _ hq => hq.elim

theorem keeps_derefServer (server : Option ℕ) :
    (derefServer server : TableProg Request Reply FileServer).Keeps ok env h t :=
  Prog.keeps_of_within (within_derefServer True (fun _ => False) server) fun _ hq => hq.elim

theorem keeps_tableCount : (tableCount : TableProg Request Reply UInt16).Keeps ok env h t :=
  Prog.keeps_of_within (within_tableCount True fun _ => False) fun _ hq => hq.elim

theorem keeps_workerLsIndex_iff {i : ℕ} {w : FileServer} (hi : t.serverTable[i]? = some w) :
    (workerLsIndex tokens i).Keeps ok env h t ↔
      ok t (lsRequest tokens w) (env h (lsRequest tokens w)) := by
  have hlt : i < t.serverTable.length := (List.getElem?_eq_some_iff.mp hi).1
  rw [workerLsIndex, Prog.keeps_bind_of_eq (eval_getfsIndex env h t hlt),
    and_iff_right (keeps_getfsIndex i), Prog.keeps_bind_of_eq (eval_derefServer env h t hi),
    and_iff_right (keeps_derefServer _)]
  exact and_iff_left trivial

/-- From index `i` on, the loop of `worker_ls` meets the answers of the workers from there on. -/
theorem keeps_workerLsLoop_iff {n i : ℕ} {result : CString} (hn : i + n = t.serverTable.length) :
    (workerLsLoop tokens n i result).Keeps ok env (searchHistory tokens h t i) t ↔
      ∀ j w, i ≤ j → t.serverTable[j]? = some w →
        ok t (lsRequest tokens w) (env (searchHistory tokens h t j) (lsRequest tokens w)) := by
  induction n generalizing i result with
  | zero =>
    refine iff_of_true trivial fun j w hij hj => ?_
    have hlt := (List.getElem?_eq_some_iff.mp hj).1
    omega
  | succ n ih =>
    have hi : i < t.serverTable.length := by omega
    have hget := List.getElem?_eq_getElem hi
    have hfrom : (∀ j w, i ≤ j → t.serverTable[j]? = some w →
          ok t (lsRequest tokens w) (env (searchHistory tokens h t j) (lsRequest tokens w))) ↔
        ok t (lsRequest tokens t.serverTable[i])
          (env (searchHistory tokens h t i) (lsRequest tokens t.serverTable[i])) ∧
        ∀ j w, i + 1 ≤ j → t.serverTable[j]? = some w →
          ok t (lsRequest tokens w) (env (searchHistory tokens h t j) (lsRequest tokens w)) := by
      refine ⟨fun hall => ⟨hall i _ le_rfl hget, fun j w hij hj => hall j w (by omega) hj⟩, ?_⟩
      rintro ⟨hfirst, hrest⟩ j w hij hj
      rcases Nat.eq_or_lt_of_le hij with rfl | hlt
      · obtain rfl := Option.some.inj (hget.symm.trans hj)
        exact hfirst
      · exact hrest j w hlt hj
    rw [workerLsLoop, Prog.keeps_bind_of_eq (eval_workerLsIndex_search tokens env h hi),
      keeps_workerLsIndex_iff tokens hget, hfrom]
    -- the loop goes on whatever the worker answers
    cases listing tokens env h t i with
    | none => exact and_congr_right fun _ => ih (by omega)
    | some ls => exact and_congr_right fun _ => ih (by omega)

/-- **LS.** Every worker of the table is asked. -/
theorem keeps_workerLs_iff (freshBlock : List UInt8) :
    (workerLs tokens freshBlock).Keeps ok env h t ↔ ∀ i w, t.serverTable[i]? = some w →
      ok t (lsRequest tokens w) (env (searchHistory tokens h t i) (lsRequest tokens w)) := by
  have hstart : searchHistory tokens h t 0 = h := List.append_nil h
  have hloop := @keeps_workerLsLoop_iff tokens ok env h t _ 0 (CString.ofMemory freshBlock)
    (Nat.zero_add t.serverTable.length)
  rw [hstart, t.count_eq] at hloop
  rw [workerLs, Prog.keeps_bind_of_eq (eval_tableCount env h t), and_iff_right keeps_tableCount,
    hloop]
  exact forall₂_congr fun j w => forall_prop_of_true (Nat.zero_le j)

/-- **WRITE.** The first worker is asked. -/
theorem keeps_workerWrite_iff (file data : CString) {w : FileServer}
    (hw : t.serverTable[0]? = some w) : (workerWrite tokens file data).Keeps ok env h t ↔
      ok t (writeRequest tokens file data w) (env h (writeRequest tokens file data w)) := by
  have hne : t.serverTable ≠ [] := fun hnil => by simp [hnil] at hw
  have hload : leastLoad.Keeps ok env h t :=
    Prog.keeps_of_within (within_leastLoad (W := True) (P := fun _ => False)) fun _ hq => hq.elim
  rw [workerWrite, Prog.keeps_bind_of_eq (eval_leastLoad env h hne), and_iff_right hload]
  simp only
  rw [Prog.keeps_bind_of_eq (eval_derefServer env h t hw), and_iff_right (keeps_derefServer _)]
  exact and_iff_left trivial

end Keeps

/-! ### The search for a file -/

section Search

variable (tokens : Tokens) (file : CString) {ok : Request → Reply → Prop}

/-- The search stops the process when a worker does not answer. -/
theorem haltsOn_findByFile : (findByFile tokens file).HaltsOn ok fun _ => silentReply := by
  have hloop : ∀ n i, (findByFileLoop tokens file n i).HaltsOn ok fun _ => silentReply := by
    intro n
    induction n with
    | zero => exact fun _ => trivial
    | succ n ih =>
      intro i
      rw [findByFileLoop, workerLsIndex, Prog.bind_assoc]
      refine (Prog.haltsOn_of_within (within_getfsIndex True (fun _ => False) i)
        fun _ hq => hq.elim).bind fun worker => ?_
      rw [Prog.bind_assoc]
      refine (Prog.haltsOn_of_within (within_derefServer True (fun _ => False) worker)
        fun _ hq => hq.elim).bind fun w => ⟨.inr rfl, fun r => ?_⟩
      simp only [Prog.bind, Prog.pure_eq_ret]
      cases lsAnswer r with
      | none => trivial
      | some ls =>
        simp only
        split
        · exact Prog.haltsOn_of_within (within_getfsIndex True (fun _ => False) i)
            fun _ hq => hq.elim
        · exact ih (i + 1)
  exact (Prog.haltsOn_of_within (within_tableCount True fun _ => False) fun _ hq => hq.elim).bind
    fun workers => hloop workers.toNat 0

/-- **DELETE.** -/
theorem haltsOn_workerDelete (hdelete : ∀ w r, ok (deleteRequest tokens file w) r) :
    (workerDelete tokens file).HaltsOn ok fun _ => silentReply := by
  refine (haltsOn_findByFile tokens file).bind fun worker => ?_
  cases worker with
  | none => trivial
  | some i =>
    exact (Prog.haltsOn_of_within (within_derefServer True (fun _ => False) (some i))
      fun _ hq => hq.elim).bind fun w => ⟨.inl (hdelete w), fun _ => trivial⟩

end Search

end PekarDrive
