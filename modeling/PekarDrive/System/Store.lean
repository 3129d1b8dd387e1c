import PekarDrive.Foundation.Contracts
import PekarDrive.Packet.Codec
import PekarDrive.Table.ServerTable
import PekarDrive.Worker.Boot
import PekarDrive.Worker.Site

/-!
# What the drive is for

Seen from its clients, the drive is a list of workers, each of which keeps texts under names. This
is the purpose of the program in terms of maps, and nothing here is a translation: what is asked,
answered and printed, and how the maps change.

A WRITE puts the text at the first worker. A DELETE looks for the first worker that has a name in
which the given one occurs, and takes the given one out there. An APPEND does nothing. A listing has
the names of all workers in the order of their registration, those of one worker in any order. READ
is left out: the master never answers it.

## Main definitions

* `PekarDrive.Store`, `PekarDrive.StoreOp`.
* `PekarDrive.Store.Admits`, `PekarDrive.Store.Answers`, `PekarDrive.Store.Prints`,
  `PekarDrive.Store.after`.
* `PekarDrive.driveContract`.

## Main results

* `PekarDrive.Store.Has.afterAll`: a text that is written stays until it is deleted.
* `PekarDrive.Store.Has.infix_of_prints`: what is kept is printed.
-/

namespace PekarDrive

open CMemory CText StepRuns

/-! ### The store -/

/-- Workers, and the texts that are kept at their addresses. -/
structure Store where
  /-- The id that the next worker gets. -/
  nextId : UInt32
  /-- The workers that are registered. -/
  workers : List FileServer
  /-- The texts under names. -/
  files : Location → NamedFiles

/-- What is asked of the store. -/
inductive StoreOp
  /-- A client asks for the names. -/
  | ls
  /-- A client writes. -/
  | write (f d : CString)
  /-- A client appends. -/
  | append (f d : CString)
  /-- A client deletes. -/
  | delete (f : CString)
  /-- A worker registers. -/
  | register (q : DottedQuad)
  /-- A worker is taken out. -/
  | remove (id : UInt64)

/-- What a client asks. -/
def StoreOp.isRequest : StoreOp → Bool
  | register _ => false
  | remove _ => false
  | _ => true

/-- What a client prints while there is no worker. -/
def StoreOp.refusal : StoreOp → List UInt8
  | ls => ascii "Service unavailable.\n"
  | write _ _ => ascii "Wrote 0 bytes\n"
  | append _ _ => ascii "Wrote 0 bytes\n"
  | delete _ => ascii "File was not deleted.\n"
  | _ => []

/-- The name occurs in one of the names. -/
def NamedFiles.Shows (m : NamedFiles) (f : CString) : Prop :=
  ∃ g, (m g).isSome ∧ f.bytes <:+: g.bytes

/-- The listings of several workers, behind each other. -/
def listingText (ls : List (List CString)) : List UInt8 :=
  ls.flatMap fun l => 10 :: [10].intercalate (l.map CString.bytes)

namespace Store

variable (s : Store)

/-- The text under a name is set, or taken out. -/
def put (loc : Location) (f : CString) (text : Option (List UInt8)) : Store :=
  { s with files := Function.update s.files loc (Function.update (s.files loc) f text) }

open Classical in
/-- The first worker that has a name in which the given one occurs. -/
noncomputable def holder (f : CString) : Option FileServer :=
  s.workers.find? fun w => decide ((s.files w.location).Shows f)

/-- What an operation does. -/
noncomputable def after : StoreOp → Store
  | .ls => s
  | .write f d => s.workers.head?.elim s fun w => s.put w.location f (some d.bytes)
  | .append _ _ => s
  | .delete f => (s.holder f).elim s fun w => s.put w.location f none
  | .register q =>
    { s with
      workers := s.workers ++ [⟨s.nextId.toUInt64, 0, ⟨q.text, getPort⟩⟩]
      nextId := s.nextId + 1 }
  | .remove id => { s with workers := s.workers.eraseP fun w => w.id == id }

section Room

variable (a : Allocator)

/-- Every worker has so few files that its listing has room. -/
def ListingsFit : Prop := ∀ w ∈ s.workers, (s.files w.location).ListingFits a

/-- When an operation must go through: names are plain, requests and listings have room in the
buffers and in the blocks that the allocator gives, and an address of a worker leaves room for the
port. -/
def Admits : StoreOp → Prop
  | .ls => s.ListingsFit a
  | .write f d => IsFileName f ∧ headerSize + (f.strlen + 1 + d.strlen) ≤ 10000
  | .append f d => IsFileName f ∧ headerSize + (f.strlen + 1 + d.strlen) ≤ 10000
  | .delete f => (IsFileName f ∧ headerSize + f.strlen ≤ 10000) ∧ s.ListingsFit a
  | .register q => q.text.strlen ≤ 12 ∧ s.workers.length < 65535
  | .remove _ => True

end Room

/-- What is answered while there are workers. -/
def AnswersServed : StoreOp → Option (List UInt8) → Prop
  | .ls, r => ∃ ls, List.Forall₂ (fun w l => IsListing (s.files w.location) l) s.workers ls ∧
      r = some (listingText ls ++ [0])
  | .write _ d, r => r = some (decimal d.strlen ++ [0])
  | .append _ _, r => r = some (ascii "-1" ++ [0])
  | .delete _, r => r = some (ascii "1" ++ [0])
  | _, r => r = none

/-- What is answered. -/
def Answers (op : StoreOp) (r : Option (List UInt8)) : Prop :=
  if s.workers = [] ∧ op.isRequest = true then r = some (ascii "Service unavailable." ++ [0])
  else s.AnswersServed op r

/-- What a client prints while there are workers. -/
def PrintsServed : StoreOp → List UInt8 → Prop
  | .ls, text => ∃ ls, List.Forall₂ (fun w l => IsListing (s.files w.location) l) s.workers ls ∧
      text = listingText ls ++ [10]
  | .write _ d, text => text = ascii "Wrote " ++ decimal d.strlen ++ ascii " bytes\n"
  | .append _ _, text => text = ascii "Wrote -1 bytes\n"
  | .delete _, text => text = ascii "File was deleted.\n"
  | _, text => text = []

/-- What is printed. -/
def Prints (op : StoreOp) (text : List UInt8) : Prop :=
  if s.workers = [] then text = op.refusal else s.PrintsServed op text

end Store

/-- What is asked of the drive, by what is printed. -/
noncomputable def driveContract (a : Allocator) : Contract Store StoreOp (List UInt8) :=
  ⟨fun s => s.Admits a, Store.Prints, Store.after⟩

/-! ### Listings of several workers -/

/-- The text of the listings, with a newline behind it, starts with one. -/
theorem exists_listingText_append_eq (ls : List (List CString)) :
    ∃ rest, listingText ls ++ [10] = 10 :: rest := by
  cases ls with
  | nil => exact ⟨[], rfl⟩
  | cons l ls => exact ⟨_, rfl⟩

/-- A name in a listing is a line of the text. -/
theorem infix_listingText {ls : List (List CString)} {l : List CString} (hl : l ∈ ls)
    {f : CString} (hf : f ∈ l) : 10 :: (f.bytes ++ [10]) <:+: listingText ls ++ [10] := by
  induction ls with
  | nil => exact absurd hl List.not_mem_nil
  | cons l' ls ih =>
    have hcons : listingText (l' :: ls) ++ [10] =
        10 :: [10].intercalate (l'.map CString.bytes) ++ (listingText ls ++ [10]) := by
      rw [listingText, listingText, List.flatMap_cons, List.append_assoc]
    rw [hcons]
    rcases List.mem_cons.mp hl with rfl | hl
    · obtain ⟨rest, hrest⟩ := exists_listingText_append_eq ls
      refine (cons_append_infix_of_mem 10 (List.mem_map_of_mem hf)).trans ⟨[], rest, ?_⟩
      rw [hrest]
      simp
    · exact (ih hl).trans (List.suffix_append _ _).isInfix

/-- Listings that fit make a text of bounded length. -/
theorem length_listingText_le {a : Allocator} {s : Store} {ws : List FileServer}
    {ls : List (List CString)}
    (h : List.Forall₂ (fun w l => IsListing (s.files w.location) l) ws ls)
    (hfits : ∀ w ∈ ws, (s.files w.location).ListingFits a) :
    (listingText ls).length ≤ ws.length * 5019 := by
  induction h with
  | nil => exact Nat.zero_le _
  | @cons w l ws ls hl _ ih =>
    obtain ⟨hw, hws⟩ := List.forall_mem_cons.mp hfits
    have hlen := (hw l hl).2.2
    have hrest := ih hws
    rw [listingText] at hrest ⊢
    rw [List.flatMap_cons, List.length_append, List.length_cons, List.length_cons]
    omega

/-! ### What is written stays -/

/-- The worker is registered and keeps a text with the property under the name. -/
structure Store.Has (s : Store) (P : List UInt8 → Prop) (w : FileServer) (f : CString) :
    Prop where
  /-- The worker is registered. -/
  mem : w ∈ s.workers
  /-- It has the name. -/
  text : ∃ text, s.files w.location f = some text ∧ P text

/-- The operation neither deletes the name nor takes out the worker, and what it writes under the
name has the property. -/
def StoreOp.Spares (P : List UInt8 → Prop) (w : FileServer) (f : CString) : StoreOp → Prop
  | write g d => g = f → P d.bytes
  | delete g => g ≠ f
  | remove id => w.id ≠ id
  | _ => True

namespace Store

variable {s : Store} {P : List UInt8 → Prop} {w : FileServer} {f g : CString}

/-- Another text, or a text under another name. -/
theorem Has.put (h : s.Has P w f) (loc : Location) {text : Option (List UInt8)}
    (htext : g = f → ∃ text' ∈ text, P text') : (s.put loc g text).Has P w f := by
  refine ⟨h.mem, ?_⟩
  simp only [Store.put]
  by_cases hloc : w.location = loc
  · rw [hloc, Function.update_self]
    by_cases hg : g = f
    · rw [hg, Function.update_self]
      exact htext hg
    · rw [Function.update_of_ne (Ne.symm hg), ← hloc]
      exact h.text
  · rw [Function.update_of_ne hloc]
    exact h.text

theorem Has.after (h : s.Has P w f) {op : StoreOp} (hop : op.Spares P w f) :
    (s.after op).Has P w f := by
  cases op with
  | ls => exact h
  | append f d => exact h
  | write g d =>
    simp only [Store.after]
    cases s.workers.head? with
    | none => exact h
    | some v => exact h.put v.location fun heq => ⟨d.bytes, rfl, hop heq⟩
  | delete g =>
    simp only [Store.after]
    cases s.holder g with
    | none => exact h
    | some v => exact h.put v.location fun heq => absurd heq hop
  | register q => exact ⟨List.mem_append_left _ h.mem, h.text⟩
  | remove id =>
    have hid : w.id ≠ id := hop
    exact ⟨(List.mem_eraseP_of_neg (by simpa using hid)).mpr h.mem, h.text⟩

/-- **What is written stays.** -/
theorem Has.afterAll (a : Allocator) (h : s.Has P w f) {ops : List StoreOp}
    (hops : ∀ op ∈ ops, op.Spares P w f) : ((driveContract a).afterAll s ops).Has P w f := by
  induction ops generalizing s with
  | nil => exact h
  | cons op ops ih =>
    exact ih (h.after (hops op List.mem_cons_self)) fun x hx => hops x (List.mem_cons_of_mem op hx)

/-- A WRITE goes to the first worker. -/
theorem has_after_write {ws : List FileServer} (hw : s.workers = w :: ws) (f : CString)
    {d : CString} (hd : P d.bytes) : (s.after (.write f d)).Has P w f := by
  have hhead : s.workers.head? = some w := by rw [hw]; rfl
  simp only [Store.after, hhead, Option.elim_some]
  refine ⟨?_, d.bytes, ?_, hd⟩
  · simp only [Store.put, hw]
    exact List.mem_cons_self
  · simp [Store.put]

/-- What is kept is printed, on a line of its own. -/
theorem Has.infix_of_prints (h : s.Has P w f) {text : List UInt8} (htext : s.Prints .ls text) :
    10 :: (f.bytes ++ [10]) <:+: text := by
  have hne : s.workers ≠ [] := List.ne_nil_of_mem h.mem
  rw [Prints, if_neg hne] at htext
  obtain ⟨ls, hls, rfl⟩ := htext
  obtain ⟨i, hi, hw⟩ := List.getElem_of_mem h.mem
  have hi' : i < ls.length := hls.length_eq ▸ hi
  have hlisting := hls.get hi hi'
  rw [List.get_eq_getElem, hw] at hlisting
  obtain ⟨content, hcontent, -⟩ := h.text
  exact infix_listingText (List.get_mem ls ⟨i, hi'⟩)
    ((hlisting.mem_iff f).mpr (.inr (.inr (by rw [hcontent]; rfl))))

end Store

end PekarDrive
