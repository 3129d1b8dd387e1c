import PekarDrive.Master.Dispatch
import PekarDrive.Master.Registrations

/-!
# Rules for the programs that serve clients

`handle_client` is made of few operations: it reads the count of the table, looks an entry up, reads
it, asks the worker behind it, and adds an entry. A judgement on programs that has a rule for each
of these, for the end of a program, for a fault and for a sequence (`PekarDrive.ServingRules`) holds
of `handle_client` on every packet. The judgement may keep two things apart: the entries that
`handle_client` may meet in the table, and those that it may add.

## Main definitions

* `PekarDrive.ServingRules`.

## Main results

* `PekarDrive.ServingRules.handleClient`.
-/

namespace PekarDrive

open CMemory CText LockedThreads

/-- Rules of a judgement `H` on programs and what they return: requests go to the entries `Met` in
the table, and the entries `Added` may be added to it. -/
structure ServingRules (tokens : Tokens) (Met Added : FileServer → Prop)
    (H : (α : Type) → TableProg Request Reply α → (α → Prop) → Prop) : Prop where
  /-- The end of a program. -/
  ret : ∀ {α : Type} {a : α} {post : α → Prop}, post a → H α (.ret a) post
  /-- A fault. -/
  fault : ∀ {α : Type} {post : α → Prop}, H α .fault post
  /-- A sequence. -/
  bind : ∀ {α β : Type} {p : TableProg Request Reply α} {f : α → TableProg Request Reply β}
    {post : α → Prop} {post' : β → Prop}, H α p post → (∀ a, post a → H β (f a) post') →
      H β (p >>= f) post'
  /-- `table_count`. -/
  tableCount : H UInt16 tableCount fun _ => True
  /-- `getfs_index`. -/
  getfsIndex : ∀ index, H (Option ℕ) (getfsIndex index) fun _ => True
  /-- Reading an entry. -/
  derefServer : ∀ server, H FileServer (derefServer server) Met
  /-- An exchange with a worker. -/
  ask : ∀ {q}, ServesRequest tokens q → Met q.server → H Reply (Prog.ask q) fun _ => True
  /-- `add_server`. -/
  addServer : ∀ {w}, Added w → H Unit (addServer w) fun _ => True

namespace ServingRules

variable {tokens : Tokens} {Met Added : FileServer → Prop}
  {H : (α : Type) → TableProg Request Reply α → (α → Prop) → Prop}
  (h : ServingRules tokens Met Added H)

include h

theorem workerLsIndex (i : ℕ) : H _ (workerLsIndex tokens i) fun _ => True :=
  h.bind (h.getfsIndex i) fun worker _ => h.bind (h.derefServer worker) fun w hw =>
    h.bind (h.ask (.ls w) hw) fun _ _ => h.ret trivial

theorem findByFile (file : CString) : H _ (findByFile tokens file) fun _ => True := by
  have hloop : ∀ n i, H _ (findByFileLoop tokens file n i) fun _ => True := by
    intro n
    induction n with
    | zero => exact fun _ => h.ret trivial
    | succ n ih =>
      intro i
      refine h.bind (h.workerLsIndex i) fun ls _ => ?_
      cases ls with
      | none => exact h.fault
      | some ls =>
        simp only
        split
        · exact h.getfsIndex i
        · exact ih (i + 1)
  exact h.bind h.tableCount fun workers _ => hloop workers.toNat 0

theorem workerLs (freshBlock : List UInt8) : H _ (workerLs tokens freshBlock) fun _ => True := by
  have hloop : ∀ n i result, H _ (workerLsLoop tokens n i result) fun _ => True := by
    intro n
    induction n with
    | zero => exact fun _ _ => h.ret trivial
    | succ n ih =>
      intro i result
      refine h.bind (h.workerLsIndex i) fun ls _ => ?_
      cases ls <;> exact ih (i + 1) _
  exact h.bind h.tableCount fun workers _ => hloop workers.toNat 0 _

theorem workerWrite (file data : CString) :
    H _ (workerWrite tokens file data) fun _ => True := by
  have hload : H _ leastLoad fun _ => True := by
    refine h.bind h.tableCount fun count _ => ?_
    split
    · exact h.ret trivial
    · exact h.getfsIndex 0
  refine h.bind hload fun fs _ => ?_
  cases fs with
  | none => exact h.ret trivial
  | some i =>
    exact h.bind (h.derefServer (some i)) fun w hw =>
      h.bind (h.ask (.write file data w) hw) fun _ _ => h.ret trivial

theorem workerDelete (file : CString) : H _ (workerDelete tokens file) fun _ => True := by
  refine h.bind (h.findByFile file) fun worker _ => ?_
  cases worker with
  | none => exact h.ret trivial
  | some i =>
    exact h.bind (h.derefServer (some i)) fun w hw =>
      h.bind (h.ask (.delete file w) hw) fun _ _ => h.ret trivial

theorem perform (heap : Heap) (call : AdminCall) :
    H _ (call.perform tokens heap) fun _ => True := by
  cases call with
  | ls => exact h.bind (h.workerLs heap.lsBlock) fun _ _ => h.ret trivial
  | read file => exact h.ret trivial
  | write file data => exact h.bind (h.workerWrite file data) fun _ _ => h.ret trivial
  | append file data => exact h.ret trivial
  | delete file => exact h.bind (h.workerDelete file) fun _ _ => h.ret trivial

theorem handleRequest (heap : Heap) (type : UInt32) (arg : List UInt8) :
    H _ (handleRequest tokens heap type arg) fun _ => True := by
  cases hcall : adminCall heap type arg with
  | some call =>
    rw [handleRequest_of_some tokens hcall]
    exact h.perform heap call
  | none =>
    rcases handleRequest_of_none tokens hcall with hfault | hret
    · rw [hfault]
      exact h.fault
    · rw [hret]
      exact h.ret trivial

/-- **Serving a client.** The judgement holds of `handle_client` if the entry that the packet
registers, if any, may be added. -/
theorem handleClient (heap : Heap) (workerId : UInt32) (r : ReadResult)
    (hadd : ∀ w, registered tokens heap workerId r = some w → Added w) :
    H _ (handleClient tokens heap workerId r) fun _ => True := by
  cases hw : registered tokens heap workerId r with
  | some w =>
    rw [handleClient_of_registered hw]
    exact h.bind (h.addServer (hadd w hw)) fun _ _ => h.ret trivial
  | none =>
    have havailable : H _ serviceAvailable fun _ => True :=
      h.bind h.tableCount fun _ _ => h.ret trivial
    by_cases hr : 0 < r.bytes
    · rw [PekarDrive.handleClient, DecodeSite.masterClient.decode_of_pos hr]
      simp only
      split_ifs with htype htoken
      · refine h.bind havailable fun available _ => ?_
        cases available with
        | false => exact h.ret trivial
        | true =>
          refine h.bind (h.handleRequest heap _ _) fun retVal _ => ?_
          cases retVal with
          | none => exact h.fault
          | some s => exact h.ret trivial
      · exact h.ret trivial
      · -- a packet that registers no entry has an argument that cannot be taken apart
        rw [registered, if_pos ⟨hr, not_not.mp htype, not_not.mp htoken⟩] at hw
        split at hw
        · exact absurd hw (by simp)
        · rename_i hnone
          split
          · rename_i port ip hport hip
            exact absurd hip (hnone port ip hport)
          · exact h.fault
    · rw [handleClient_of_not_pos tokens heap workerId hr]
      exact h.ret trivial

end ServingRules

end PekarDrive
