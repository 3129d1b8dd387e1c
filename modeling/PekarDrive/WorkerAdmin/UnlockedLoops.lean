import PekarDrive.WorkerAdmin.TableLoops
import Mathlib.Data.List.Nodup

/-!
# What another thread may do to a loop over the table

A removal between the read of the count and the bound test of `getfs_index` makes the test fail,
and `worker_ls_index` reads through `NULL`; one behind the bound test leaves a pointer behind the
last entry; a resized array may have moved. A removal in front of the entry that is next in turn
shifts that entry to an index that the loop has passed. Where the other thread does none of this,
each read is of an entry of the table, and `worker_ls` asks each worker that stays registered once.

## Main definitions

* `PekarDrive.LoopState.ReadsLive`: a pointer that is read through next refers to an entry.
* `PekarDrive.LoopState.AskedOnce`: what holds behind the last step of `worker_ls`.
* `PekarDrive.LoopState.Undisturbed`: the steps that leave a loop alone.
* `PekarDrive.LoopState.AskedUpTo`: the invariant of the loop of `worker_ls`.

## Main results

* `PekarDrive.unlockedLoops`.
-/

namespace PekarDrive

open CText LockedThreads StepRuns

namespace LoopState

variable (s : LoopState)

/-! ### The properties -/

/-- If the next step reads through a pointer, it refers to an entry of the table. -/
def ReadsLive : Prop :=
  match s.point with
  | .ip none _ => False
  | .ip (some p) _ => s.Live p
  | .port p _ _ => s.Live p
  | _ => True

/-- `worker_ls` has asked the registration once. -/
def AskedOnce (tag : ℕ) : Prop := s.asked.count tag = 1

/-! ### The condition on the steps -/

/-- The index of the entry that is next in turn: a loop is done with those in front of it. -/
def cursor : ℕ :=
  match s.point with
  | .count => 0
  | .bound i _ => i
  | .address i _ => i
  | .ip none _ => 0
  | .ip (some p) _ => p.index
  | .port p _ _ => p.index
  | .query i _ _ => i + 1
  | .done => s.workers

/-- The index of an entry that a removal must not shift: the one next in turn, and between the two
reads of an entry the one behind it as well. -/
def Settled (k : ℕ) : Prop :=
  match s.point with
  | .port p _ _ => k = p.index ∨ k = p.index + 1
  | _ => k = s.cursor

/-- The change keeps the entries that were there when the count was read from being shifted to an
index that the loop of `worker_ls` has passed. -/
def KeepsTurn (c : TableChange) : Prop :=
  match s.call with
  | .workerLs _ => ∀ idx ∈ s.removedAt c, ∀ k, s.Settled k →
      ∀ a ∈ s.entries[k]?, a.tag < s.sampled → k ≤ idx
  | _ => True

/-- The change leaves the index that was tested inside the array. -/
def KeepsIndex (c : TableChange) (i : ℕ) : Prop := ∀ _idx ∈ s.removedAt c, i + 1 < s.entries.length

/-- The change leaves the pointer that is held alone: the array is not moved, and stays long
enough. -/
def KeepsPointer (c : TableChange) (base : ℕ) : Prop :=
  match s.point with
  | .address i _ => s.KeepsIndex c i
  | .ip (some p) _ => (s.changed c base).base = s.base ∧ s.KeepsIndex c p.index
  | .port p _ _ => (s.changed c base).base = s.base ∧ s.KeepsIndex c p.index
  | _ => True

/-- The step does not disturb the loop. A bound test inside a loop succeeds. -/
def Undisturbed : LoopEvent → Prop
  | .advance => ∀ i, s.point = .bound i false → i < s.entries.length
  | .answer _ => True
  | .change c base => s.KeepsPointer c base ∧ s.KeepsTurn c

/-! ### The changes -/

section Changed

variable {s} (c : TableChange) (base : ℕ)

theorem changed_cases :
    (∃ server, c = .add server ∧ s.changed c base = { s with
      entries := s.entries ++ [⟨s.nextTag, server⟩], base := base, nextTag := s.nextTag + 1 }) ∨
    (s.removedAt c = none ∧ s.changed c base = s) ∨
    ∃ idx, s.removedAt c = some idx ∧ idx < s.entries.length ∧
      s.changed c base = { s with entries := s.entries.eraseIdx idx, base := base } := by
  cases c with
  | add server => exact .inl ⟨server, rfl, rfl⟩
  | remove id =>
    cases hidx : s.removedAt (.remove id) with
    | none => exact .inr (.inl ⟨rfl, by rw [changed, hidx]⟩)
    | some idx =>
      obtain ⟨hlt, -⟩ := List.findIdx?_eq_some_iff_getElem.mp hidx
      exact .inr (.inr ⟨idx, rfl, hlt, by rw [changed, hidx]⟩)

@[simp] theorem call_changed : (s.changed c base).call = s.call := by
  obtain ⟨_, -, h⟩ | ⟨-, h⟩ | ⟨_, -, -, h⟩ := s.changed_cases c base <;> rw [h]

@[simp] theorem point_changed : (s.changed c base).point = s.point := by
  obtain ⟨_, -, h⟩ | ⟨-, h⟩ | ⟨_, -, -, h⟩ := s.changed_cases c base <;> rw [h]

@[simp] theorem workers_changed : (s.changed c base).workers = s.workers := by
  obtain ⟨_, -, h⟩ | ⟨-, h⟩ | ⟨_, -, -, h⟩ := s.changed_cases c base <;> rw [h]

@[simp] theorem sampled_changed : (s.changed c base).sampled = s.sampled := by
  obtain ⟨_, -, h⟩ | ⟨-, h⟩ | ⟨_, -, -, h⟩ := s.changed_cases c base <;> rw [h]

@[simp] theorem asked_changed : (s.changed c base).asked = s.asked := by
  obtain ⟨_, -, h⟩ | ⟨-, h⟩ | ⟨_, -, -, h⟩ := s.changed_cases c base <;> rw [h]

theorem nextTag_le_changed : s.nextTag ≤ (s.changed c base).nextTag := by
  obtain ⟨_, -, h⟩ | ⟨-, h⟩ | ⟨_, -, -, h⟩ := s.changed_cases c base
  · rw [h]; exact Nat.le_succ _
  · rw [h]
  · rw [h]

variable {c} {base}

theorem KeepsIndex.lt_length {i : ℕ} (hkeep : s.KeepsIndex c i) (hi : i < s.entries.length) :
    i < (s.changed c base).entries.length := by
  obtain ⟨server, -, h⟩ | ⟨-, h⟩ | ⟨idx, hidx, hlt, h⟩ := s.changed_cases c base
  · rw [h]
    simp only [List.length_append]
    omega
  · rwa [h]
  · rw [h]
    have hlong := hkeep idx hidx
    simp only [List.length_eraseIdx_of_lt hlt]
    omega

/-- An entry of the changed table is a new one, or was at its index, or was at the next index and
the removed entry in front of it. -/
theorem getElem?_changed_cases {j : ℕ} {a : TableEntry}
    (ha : (s.changed c base).entries[j]? = some a) :
    a.tag = s.nextTag ∨ s.entries[j]? = some a ∨
      ∃ idx ∈ s.removedAt c, idx ≤ j ∧ s.entries[j + 1]? = some a := by
  obtain ⟨server, -, h⟩ | ⟨-, h⟩ | ⟨idx, hidx, -, h⟩ := s.changed_cases c base
  · rw [h, List.getElem?_append] at ha
    split at ha
    · exact .inr (.inl ha)
    · exact .inl ((List.mem_singleton.mp (List.mem_of_getElem? ha)) ▸ rfl)
  · exact .inr (.inl (h ▸ ha))
  · rw [h, List.getElem?_eraseIdx] at ha
    split at ha
    · exact .inr (.inl ha)
    · exact .inr (.inr ⟨idx, hidx, by omega, ha⟩)

end Changed

/-! ### The pointers -/

/-- The pointer that is read through next, and the index that was tested, are those of entries. -/
def Holds : Prop :=
  s.ReadsLive ∧ ∀ i last, s.point = .address i last → i < s.entries.length

variable {s} {s' : LoopState}

theorem holds_loopAt (i : ℕ) : (s.loopAt i).Holds := by
  unfold loopAt
  split <;> exact ⟨trivial, fun _ _ h => by cases h⟩

theorem live_of_target {p : EntryPointer} {a : TableEntry} (hp : s.target p = some a) :
    s.Live p ∧ s.entries[p.index]? = some a := by
  rw [target] at hp
  split at hp
  · rename_i hbase
    exact ⟨⟨hbase, (List.getElem?_eq_some_iff.mp hp).1⟩, hp⟩
  · exact absurd hp (by simp)

/-- At other points nothing is claimed. -/
theorem holds_of_point (hread : ∀ p last, s.point ≠ .ip p last)
    (hport : ∀ p a last, s.point ≠ .port p a last)
    (haddress : ∀ i last, s.point ≠ .address i last) :
    s.Holds := by
  refine ⟨?_, fun i last h => absurd h (haddress i last)⟩
  unfold ReadsLive
  split
  · rename_i h; exact absurd h (hread _ _)
  · rename_i h; exact absurd h (hread _ _)
  · rename_i h; exact absurd h (hport _ _ _)
  · exact trivial

theorem Holds.advance (h : s.Holds) (hok : s.Undisturbed .advance)
    (hstep : s.advance = some s') : s'.Holds := by
  cases hpoint : s.point with
  | count =>
    simp only [LoopState.advance, hpoint] at hstep
    split at hstep
    · exact Option.some.inj hstep ▸ holds_loopAt 0
    · exact Option.some.inj hstep ▸ holds_loopAt 0
    · rw [← Option.some.inj hstep]
      split <;> exact ⟨trivial, fun _ _ h => by cases h⟩
  | bound i last =>
    simp only [LoopState.advance, hpoint] at hstep
    split at hstep
    · rename_i hi
      rw [← Option.some.inj hstep]
      cases last with
      | true => exact ⟨trivial, fun _ _ h => by cases h⟩
      | false => exact absurd (hok i hpoint) (not_lt.mpr hi)
    · rename_i hi
      rw [← Option.some.inj hstep]
      refine ⟨trivial, fun j last' hj => ?_⟩
      cases hj
      exact not_le.mp hi
  | address i last =>
    simp only [LoopState.advance, hpoint, Option.some.injEq] at hstep
    rw [← hstep]
    exact ⟨⟨rfl, h.2 i last hpoint⟩, fun _ _ h => by cases h⟩
  | ip p last =>
    cases p with
    | none => simp only [LoopState.advance, hpoint] at hstep; exact absurd hstep (by simp)
    | some p =>
      simp only [LoopState.advance, hpoint, Option.map_eq_some_iff] at hstep
      obtain ⟨a, ha, rfl⟩ := hstep
      exact ⟨(live_of_target ha).1, fun _ _ h => by cases h⟩
  | port p a last =>
    simp only [LoopState.advance, hpoint, Option.map_eq_some_iff] at hstep
    obtain ⟨b, -, rfl⟩ := hstep
    exact ⟨trivial, fun _ _ h => by cases h⟩
  | query i w last => simp only [LoopState.advance, hpoint] at hstep; exact absurd hstep (by simp)
  | done => simp only [LoopState.advance, hpoint] at hstep; exact absurd hstep (by simp)

/-- Behind an exchange, the caller is done, the loop goes on, or the search returns. -/
theorem answered_cases {r : Reply} (hstep : s.answered r = some s') :
    ∃ i w last, s.point = .query i w last ∧
      (last = true ∧ s' = { s with point := .done } ∨
        last = false ∧ (∃ result, s' = { s with result := result }.loopAt (i + 1)) ∨
        (∃ file, s.call = .findByFile file) ∧ s' = { s with point := .bound i true }) := by
  cases hpoint : s.point with
  | query i w last =>
    refine ⟨i, w, last, rfl, ?_⟩
    cases last with
    | true =>
      simp only [answered, hpoint, Option.some.injEq] at hstep
      exact .inl ⟨rfl, hstep.symm⟩
    | false =>
      refine .inr ?_
      simp only [answered, hpoint] at hstep
      split at hstep
      · exact .inl ⟨rfl, s.result, (Option.some.inj hstep).symm⟩
      · exact .inl ⟨rfl, _, (Option.some.inj hstep).symm⟩
      · rename_i file _ hcall _
        rw [← Option.some.inj hstep]
        split
        · exact .inr ⟨⟨file, hcall⟩, rfl⟩
        · exact .inl ⟨rfl, s.result, rfl⟩
      · exact absurd hstep (by simp)
  | _ => simp only [answered, hpoint] at hstep; exact absurd hstep (by simp)

theorem Holds.answer {r : Reply} (hstep : s.answered r = some s') : s'.Holds := by
  obtain ⟨i, w, last, -, ⟨-, rfl⟩ | ⟨-, result, rfl⟩ | ⟨-, rfl⟩⟩ := answered_cases hstep
  · exact ⟨trivial, fun _ _ h => by cases h⟩
  · exact holds_loopAt (i + 1)
  · exact ⟨trivial, fun _ _ h => by cases h⟩

theorem Holds.change {c : TableChange} {base : ℕ} (h : s.Holds) (hok : s.KeepsPointer c base) :
    (s.changed c base).Holds := by
  obtain ⟨hreads, haddress⟩ := h
  constructor
  · rw [ReadsLive, point_changed]
    rw [ReadsLive] at hreads
    rw [KeepsPointer] at hok
    cases hpoint : s.point with
    | ip p last =>
      cases p with
      | none => rw [hpoint] at hreads; exact hreads
      | some p =>
        rw [hpoint] at hreads hok
        exact ⟨hreads.1.trans hok.1.symm, hok.2.lt_length hreads.2⟩
    | port p a last =>
      rw [hpoint] at hreads hok
      exact ⟨hreads.1.trans hok.1.symm, hok.2.lt_length hreads.2⟩
    | _ => exact trivial
  · intro i last hpoint
    rw [point_changed] at hpoint
    rw [KeepsPointer, hpoint] at hok
    exact hok.lt_length (haddress i last hpoint)

theorem changed_of_step {c : TableChange} {base : ℕ}
    (hstep : loopStep s (.change c base) = some s') : s' = s.changed c base := by
  simp only [loopStep] at hstep
  split at hstep
  · exact (Option.some.inj hstep).symm
  · exact absurd hstep (by simp)

/-- **The pointers.** A step that does not disturb the call leaves its pointers alone. -/
theorem Holds.step {e : LoopEvent} (h : s.Holds) (hok : s.Undisturbed e)
    (hstep : loopStep s e = some s') : s'.Holds := by
  cases e with
  | advance => exact h.advance hok hstep
  | answer r => exact Holds.answer hstep
  | change c base => exact changed_of_step hstep ▸ h.change hok.1

/-! ### The loop of `worker_ls` -/

variable (s)

/-- The loop is done with the entries in front of index `k`. -/
structure AskedUpTo (k : ℕ) : Prop where
  /-- The numbers of the entries are not new. -/
  lt_nextTag : ∀ a ∈ s.entries, a.tag < s.nextTag
  /-- The entries have numbers of their own. -/
  nodup : s.tags.Nodup
  /-- The count was not read in the future. -/
  sampled_le : s.sampled ≤ s.nextTag
  /-- Those asked were registered. -/
  asked_lt : ∀ tag ∈ s.asked, tag < s.nextTag
  /-- No registration was asked twice. -/
  asked_nodup : s.asked.Nodup
  /-- No entry from index `k` on was asked. -/
  fresh : ∀ j a, s.entries[j]? = some a → k ≤ j → a.tag ∉ s.asked
  /-- The entries in front of it were, if they were there when the count was read. -/
  old : ∀ j a, s.entries[j]? = some a → a.tag < s.sampled → j < k → a.tag ∈ s.asked
  /-- These lie within the count. -/
  bounded : ∀ j a, s.entries[j]? = some a → a.tag < s.sampled → j < s.workers

section AskedUpTo

variable {s} {k : ℕ}

/-- The point and the result do not matter. -/
theorem AskedUpTo.at (h : s.AskedUpTo k) (point : LoopPoint) (result : CString) :
    ({ s with point := point, result := result } : LoopState).AskedUpTo k := { h with }

/-- A change that does not shift an old entry in front of the index. -/
theorem AskedUpTo.change {c : TableChange} {base : ℕ} (h : s.AskedUpTo k)
    (hkeep : ∀ idx ∈ s.removedAt c, ∀ a ∈ s.entries[k]?, a.tag < s.sampled → k ≤ idx) :
    (s.changed c base).AskedUpTo k where
  lt_nextTag := by
    obtain ⟨server, -, hs⟩ | ⟨-, hs⟩ | ⟨idx, -, -, hs⟩ := s.changed_cases c base
    · rw [hs]
      intro a ha
      rcases List.mem_append.mp ha with ha | ha
      · exact Nat.lt_succ_of_lt (h.lt_nextTag a ha)
      · rw [List.mem_singleton.mp ha]
        exact Nat.lt_succ_self s.nextTag
    · rw [hs]; exact h.lt_nextTag
    · rw [hs]; exact fun a ha => h.lt_nextTag a (List.mem_of_mem_eraseIdx ha)
  nodup := by
    obtain ⟨server, -, hs⟩ | ⟨-, hs⟩ | ⟨idx, -, -, hs⟩ := s.changed_cases c base
    · rw [hs, tags, List.map_append, List.nodup_append]
      refine ⟨h.nodup, List.nodup_singleton _, fun tag htag tag' htag' heq => ?_⟩
      obtain ⟨a, ha, rfl⟩ := List.mem_map.mp htag
      obtain rfl : tag' = s.nextTag := List.mem_singleton.mp htag'
      exact absurd (h.lt_nextTag a ha) (heq ▸ lt_irrefl _)
    · rw [hs]; exact h.nodup
    · rw [hs]; exact h.nodup.sublist ((List.eraseIdx_sublist _ _).map _)
  sampled_le := by
    rw [sampled_changed]
    exact h.sampled_le.trans (nextTag_le_changed c base)
  asked_lt := by
    rw [asked_changed]
    exact fun tag htag => (h.asked_lt tag htag).trans_le (nextTag_le_changed c base)
  asked_nodup := by
    rw [asked_changed]
    exact h.asked_nodup
  fresh := by
    intro j a ha hkj
    rw [asked_changed]
    rcases getElem?_changed_cases ha with hnew | hold | ⟨idx, -, -, hnext⟩
    · exact fun hmem => absurd (h.asked_lt _ hmem) (hnew ▸ lt_irrefl _)
    · exact h.fresh j a hold hkj
    · exact h.fresh (j + 1) a hnext (by omega)
  old := by
    intro j a ha hlt hjk
    rw [sampled_changed] at hlt
    rw [asked_changed]
    rcases getElem?_changed_cases ha with hnew | hold | ⟨idx, hidx, hij, hnext⟩
    · exact absurd (hnew ▸ hlt) (not_lt.mpr h.sampled_le)
    · exact h.old j a hold hlt hjk
    · refine h.old (j + 1) a hnext hlt (lt_of_le_of_ne hjk fun heq => ?_)
      -- the entry next in turn would have come to lie in front of the index
      have hle := hkeep idx hidx a (heq ▸ hnext) hlt
      omega
  bounded := by
    intro j a ha hlt
    rw [sampled_changed] at hlt
    rw [workers_changed]
    rcases getElem?_changed_cases ha with hnew | hold | ⟨idx, -, -, hnext⟩
    · exact absurd (hnew ▸ hlt) (not_lt.mpr h.sampled_le)
    · exact h.bounded j a hold hlt
    · exact Nat.lt_of_succ_lt (h.bounded (j + 1) a hnext hlt)

theorem mem_asked_iff {b tag x : ℕ} :
    x ∈ (if b = tag then s.asked ++ [tag] else s.asked) ↔ x ∈ s.asked ∨ b = tag ∧ x = tag := by
  split
  · rename_i h; simp [h]
  · rename_i h; simp [h]

/-- The second read of the entry next in turn; its number is that of the first read if it is an
old one. -/
theorem AskedUpTo.ask (h : s.AskedUpTo k) {b : TableEntry} (hb : s.entries[k]? = some b)
    {tag : ℕ} (htag : b.tag < s.sampled → b.tag = tag) (point : LoopPoint) :
    ({ s with
      point := point
      asked := if b.tag = tag then s.asked ++ [tag] else s.asked } : LoopState).AskedUpTo
      (k + 1) where
  lt_nextTag := h.lt_nextTag
  nodup := h.nodup
  sampled_le := h.sampled_le
  asked_lt := by
    intro x hx
    rcases mem_asked_iff.mp hx with hx | ⟨hbt, rfl⟩
    · exact h.asked_lt x hx
    · exact hbt ▸ h.lt_nextTag b (List.mem_of_getElem? hb)
  asked_nodup := by
    change (if b.tag = tag then s.asked ++ [tag] else s.asked).Nodup
    split
    · rename_i hbt
      rw [← List.concat_eq_append]
      exact h.asked_nodup.concat (hbt ▸ h.fresh k b hb le_rfl)
    · exact h.asked_nodup
  fresh := by
    intro j a ha hkj hmem
    rcases mem_asked_iff.mp hmem with hmem | ⟨hbt, hat⟩
    · exact h.fresh j a ha (by omega) hmem
    · -- the entry would lie at two indices
      have hj : j = k := by
        have hja : s.tags[j]? = some a.tag := by rw [tags, List.getElem?_map, ha]; rfl
        have hkb : s.tags[k]? = some a.tag := by
          rw [tags, List.getElem?_map, hb, hat, ← hbt]; rfl
        exact (List.getElem?_inj (List.getElem?_eq_some_iff.mp hja).1 h.nodup).mp
          (hja.trans hkb.symm)
      omega
  old := by
    intro j a ha hlt hjk
    rcases Nat.lt_succ_iff_lt_or_eq.mp hjk with hjk | rfl
    · exact mem_asked_iff.mpr (.inl (h.old j a ha hlt hjk))
    · obtain rfl := Option.some.inj (hb.symm.trans ha)
      exact mem_asked_iff.mpr (.inr ⟨htag hlt, htag hlt⟩)
  bounded := h.bounded

end AskedUpTo

/-- The indices of the loop lie below the count, and none of its pointers is returned. -/
def InLoop : Prop :=
  match s.point with
  | .count => True
  | .bound i last => i < s.workers ∧ last = false
  | .address i last => i < s.workers ∧ last = false
  | .ip none _ => False
  | .ip (some p) last => p.index < s.workers ∧ last = false
  | .port p _ last => p.index < s.workers ∧ last = false
  | .query i _ last => i < s.workers ∧ last = false
  | .done => True

/-- The invariant of a call of `worker_ls` that started with numbers below `tag₀`. -/
structure Scanning (tag₀ : ℕ) : Prop where
  /-- The call. -/
  call : ∃ freshBlock, s.call = .workerLs freshBlock
  /-- The first numbers are below the next one. -/
  le_nextTag : tag₀ ≤ s.nextTag
  /-- The count was read after the start. -/
  le_sampled : s.point ≠ .count → tag₀ ≤ s.sampled
  /-- The loop is inside its bounds. -/
  inLoop : s.InLoop
  /-- Between the two reads, an old entry is still the one that the pointer refers to. -/
  between : ∀ p a last, s.point = .port p a last →
    ∀ b ∈ s.entries[p.index]?, b.tag < s.sampled → b.tag = a.tag
  /-- The loop is done with the entries in front of the one next in turn. -/
  asked : s.AskedUpTo s.cursor

section Scanning

variable {s} {tag₀ : ℕ}

/-- The head of the loop behind the first `k` entries. -/
theorem scanning_loopAt {k : ℕ} (hcall : ∃ freshBlock, s.call = .workerLs freshBlock)
    (hsampled : tag₀ ≤ s.sampled) (hk : k ≤ s.workers) (h : s.AskedUpTo k) :
    (s.loopAt k).Scanning tag₀ := by
  have hnext : tag₀ ≤ s.nextTag := hsampled.trans h.sampled_le
  by_cases hlt : k < s.workers
  · rw [loopAt, if_pos hlt]
    exact ⟨hcall, hnext, fun _ => hsampled, ⟨hlt, rfl⟩, fun _ _ _ hp => (by cases hp),
      h.at _ _⟩
  · obtain rfl : k = s.workers := by omega
    rw [loopAt, if_neg hlt]
    exact ⟨hcall, hnext, fun _ => hsampled, trivial, fun _ _ _ hp => (by cases hp), h.at _ _⟩

theorem Scanning.advance (h : s.Scanning tag₀) (hok : s.Undisturbed .advance)
    (hstep : s.advance = some s') : s'.Scanning tag₀ := by
  obtain ⟨freshBlock, hcall⟩ := h.call
  have hloop := h.inLoop
  have hasked := h.asked
  cases hpoint : s.point with
  | count =>
    simp only [LoopState.advance, hpoint, hcall, Option.some.injEq] at hstep
    rw [cursor, hpoint] at hasked
    rw [← hstep]
    refine scanning_loopAt ⟨freshBlock, hcall⟩ h.le_nextTag (Nat.zero_le _) { hasked with
      sampled_le := le_rfl
      old := fun j a _ _ hj => absurd hj (Nat.not_lt_zero j)
      bounded := fun j a ha _ => (List.getElem?_eq_some_iff.mp ha).1 }
  | bound i last =>
    rw [InLoop, hpoint] at hloop
    obtain ⟨hlt, rfl⟩ := hloop
    rw [cursor, hpoint] at hasked
    simp only [LoopState.advance, hpoint, if_neg (not_le.mpr (hok i hpoint)),
      Option.some.injEq] at hstep
    rw [← hstep]
    exact ⟨h.call, h.le_nextTag, fun _ => h.le_sampled (by simp [hpoint]), ⟨hlt, rfl⟩,
      fun _ _ _ hp => (by cases hp), hasked.at _ _⟩
  | address i last =>
    rw [InLoop, hpoint] at hloop
    rw [cursor, hpoint] at hasked
    simp only [LoopState.advance, hpoint, Option.some.injEq] at hstep
    rw [← hstep]
    exact ⟨h.call, h.le_nextTag, fun _ => h.le_sampled (by simp [hpoint]), hloop,
      fun _ _ _ hp => (by cases hp), hasked.at _ _⟩
  | ip p last =>
    rw [InLoop, hpoint] at hloop
    cases p with
    | none => exact hloop.elim
    | some p =>
      rw [cursor, hpoint] at hasked
      simp only [LoopState.advance, hpoint, Option.map_eq_some_iff] at hstep
      obtain ⟨a, ha, rfl⟩ := hstep
      refine ⟨h.call, h.le_nextTag, fun _ => h.le_sampled (by simp [hpoint]), hloop,
        fun q a' last' hp b hb _ => ?_, hasked.at _ _⟩
      cases hp
      rw [Option.some.inj ((live_of_target ha).2.symm.trans hb)]
  | port p a last =>
    rw [InLoop, hpoint] at hloop
    rw [cursor, hpoint] at hasked
    simp only [LoopState.advance, hpoint, Option.map_eq_some_iff] at hstep
    obtain ⟨b, hb, rfl⟩ := hstep
    have hget := (live_of_target hb).2
    exact ⟨h.call, h.le_nextTag, fun _ => h.le_sampled (by simp [hpoint]), hloop,
      fun _ _ _ hp => (by cases hp),
      hasked.ask hget (fun hlt => h.between p a last hpoint b hget hlt) _⟩
  | query i w last => simp only [LoopState.advance, hpoint] at hstep; exact absurd hstep (by simp)
  | done => simp only [LoopState.advance, hpoint] at hstep; exact absurd hstep (by simp)

theorem Scanning.answer {r : Reply} (h : s.Scanning tag₀) (hstep : s.answered r = some s') :
    s'.Scanning tag₀ := by
  have hloop := h.inLoop
  have hasked := h.asked
  obtain ⟨i, w, last, hpoint, hcases⟩ := answered_cases hstep
  rw [InLoop, hpoint] at hloop
  obtain ⟨hlt, rfl⟩ := hloop
  rw [cursor, hpoint] at hasked
  obtain ⟨hlast, -⟩ | ⟨-, result, rfl⟩ | ⟨⟨file, hfile⟩, -⟩ := hcases
  · exact absurd hlast (by simp)
  · exact scanning_loopAt h.call (h.le_sampled (by simp [hpoint])) hlt (hasked.at _ _)
  · obtain ⟨freshBlock, hcall⟩ := h.call
    exact absurd (hcall.symm.trans hfile) (by simp)

theorem cursor_changed (c : TableChange) (base : ℕ) : (s.changed c base).cursor = s.cursor := by
  rw [cursor, cursor, point_changed, workers_changed]

theorem settled_cursor : s.Settled s.cursor := by
  rw [Settled]
  split
  · rename_i hpoint
    exact .inl (by rw [cursor, hpoint])
  · rfl

theorem Scanning.change {c : TableChange} {base : ℕ} (h : s.Scanning tag₀)
    (hok : s.KeepsTurn c) : (s.changed c base).Scanning tag₀ where
  call := by rw [call_changed]; exact h.call
  le_nextTag := h.le_nextTag.trans (nextTag_le_changed c base)
  le_sampled := by rw [point_changed, sampled_changed]; exact h.le_sampled
  inLoop := by
    have hloop := h.inLoop
    rw [InLoop] at hloop
    rw [InLoop, point_changed, workers_changed]
    exact hloop
  between := by
    obtain ⟨freshBlock, hcall⟩ := h.call
    rw [KeepsTurn, hcall] at hok
    intro p a last hpoint b hb hlt
    rw [point_changed] at hpoint
    rw [sampled_changed] at hlt
    rcases getElem?_changed_cases hb with hnew | hold | ⟨idx, hidx, hle, hnext⟩
    · exact absurd (hnew ▸ hlt) (not_lt.mpr h.asked.sampled_le)
    · exact h.between p a last hpoint b hold hlt
    · -- the entry behind the pointer would have been shifted to it
      have hkeep := hok idx hidx (p.index + 1) (by rw [Settled, hpoint]; exact .inr rfl) b hnext hlt
      omega
  asked := by
    obtain ⟨freshBlock, hcall⟩ := h.call
    rw [KeepsTurn, hcall] at hok
    rw [cursor_changed]
    exact h.asked.change fun idx hidx => hok idx hidx s.cursor settled_cursor

/-- **The loop of `worker_ls`.** A step that does not disturb the call keeps the invariant. -/
theorem Scanning.step {e : LoopEvent} (h : s.Scanning tag₀) (hok : s.Undisturbed e)
    (hstep : loopStep s e = some s') : s'.Scanning tag₀ := by
  cases e with
  | advance => exact h.advance hok hstep
  | answer r => exact h.answer hstep
  | change c base => exact changed_of_step hstep ▸ h.change hok.2

theorem Begins.scanning (h : s.Begins) (hcall : ∃ freshBlock, s.call = .workerLs freshBlock) :
    s.Scanning s.nextTag where
  call := hcall
  le_nextTag := le_rfl
  le_sampled := fun hne => absurd h.point hne
  inLoop := by rw [InLoop, h.point]; exact trivial
  between := fun p a last hpoint => absurd (h.point.symm.trans hpoint) (by simp)
  asked := {
    lt_nextTag := h.lt_nextTag
    nodup := h.nodup
    sampled_le := by rw [h.sampled]; exact Nat.zero_le _
    asked_lt := by simp [h.asked]
    asked_nodup := by simp [h.asked]
    fresh := by simp [h.asked]
    old := fun j a _ hlt => absurd (h.sampled ▸ hlt) (Nat.not_lt_zero _)
    bounded := fun j a _ hlt => absurd (h.sampled ▸ hlt) (Nat.not_lt_zero _) }

/-- At the end, an entry that was there at the start has been asked once. -/
theorem Scanning.askedOnce (h : s.Scanning tag₀) (hdone : s.point = .done) {a : TableEntry}
    (ha : a ∈ s.entries) (hlt : a.tag < tag₀) : s.AskedOnce a.tag := by
  have hold : a.tag < s.sampled := hlt.trans_le (h.le_sampled (by simp [hdone]))
  obtain ⟨j, hj⟩ := List.mem_iff_getElem?.mp ha
  have hasked := h.asked
  rw [cursor, hdone] at hasked
  exact List.count_eq_one_of_mem hasked.asked_nodup
    (hasked.old j a hj hold (hasked.bounded j a hj hold))

end Scanning

theorem Begins.holds (h : s.Begins) : s.Holds :=
  holds_of_point (by simp [h.point]) (by simp [h.point]) (by simp [h.point])

end LoopState

/-- **Loops over the table while it changes.** In every run of `worker_ls`, `find_by_file` or
`least_load` with changes of the table by another thread between its steps, none of which disturbs
the call, every pointer that is about to be read through refers to an entry of the table; and when
`worker_ls` returns, it has asked every worker that was registered all the time exactly once. -/
theorem unlockedLoops {s s' : LoopState} {trace : List (LoopState × LoopEvent)}
    (hr : Run loopStep s trace s') (hs : s.Begins)
    (hok : ∀ x ∈ trace, x.1.Undisturbed x.2) :
    (∀ x ∈ visited trace s', x.ReadsLive) ∧
    ((∃ freshBlock, s.call = .workerLs freshBlock) → s'.point = .done →
      ∀ tag, (∀ x ∈ visited trace s', tag ∈ x.tags) → s'.AskedOnce tag) := by
  constructor
  · have hholds := hr.forall_visited_of_forall_trace (I := LoopState.Holds)
      (fun _ _ _ h hok hstep => h.step hok hstep) hs.holds hok
    exact fun x hx => (hholds x hx).1
  · intro hcall hdone tag htag
    have hscan := hr.forall_visited_of_forall_trace (I := fun x => x.Scanning s.nextTag)
      (fun _ _ _ h hok hstep => h.step hok hstep) (hs.scanning hcall) hok s'
      (mem_visited_last trace s')
    obtain ⟨a, ha, rfl⟩ := List.mem_map.mp (htag s' (mem_visited_last trace s'))
    obtain ⟨b, hb, hba⟩ := List.mem_map.mp (htag s hr.mem_visited)
    exact hscan.askedOnce hdone ha (hba ▸ hs.lt_nextTag b hb)

/-! ### Small runs -/

/-- A call of `worker_ls` on workers numbered from zero. -/
def exampleCall (servers : List FileServer) : LoopState where
  call := .workerLs [0]
  entries := servers.zipIdx.map fun x => ⟨x.2, x.1⟩
  base := 0
  nextTag := servers.length
  point := .count
  workers := 0
  sampled := 0
  asked := []
  result := lit ""

/-- A worker that registers while another one is asked disturbs nothing. -/
theorem askedOnce_exampleCall : ∃ trace s', Run loopStep (exampleCall [exampleServer 1]) trace s' ∧
    (∀ x ∈ visited trace s', x.ReadsLive) ∧ s'.AskedOnce 0 := by
  obtain ⟨s', trace, hr, hdone, htags, hok⟩ : ∃ s' trace,
      Run loopStep (exampleCall [exampleServer 1]) trace s' ∧ s'.point = .done ∧
      (∀ x ∈ visited trace s', 0 ∈ x.tags) ∧ ∀ x ∈ trace, x.1.Undisturbed x.2 := by
    refine ⟨_, _, .step (e := .advance) rfl <| .step (e := .advance) rfl <|
      .step (e := .advance) rfl <| .step (e := .advance) rfl <| .step (e := .advance) rfl <|
      .step (e := .change (.add (exampleServer 2)) 7) rfl <|
      .step (e := .answer silentReply) rfl <| .done _, rfl, ?_, ?_⟩
    · decide
    · simp only [List.forall_mem_cons]
      exact ⟨fun _ hp => (by cases hp), fun _ hp => (by cases hp; decide),
        fun _ hp => (by cases hp), fun _ hp => (by cases hp), fun _ hp => (by cases hp),
        ⟨trivial, fun _ hidx => (by cases hidx)⟩, trivial, fun _ hx => absurd hx List.not_mem_nil⟩
  have hall := unlockedLoops hr ⟨rfl, rfl, rfl, by decide, by decide⟩ hok
  exact ⟨trace, s', hr, hall.1, hall.2 ⟨_, rfl⟩ hdone 0 htags⟩

/-- Of two workers, one is removed while the other one is asked. -/
theorem not_forall_readsLive : ¬ ∀ (s s' : LoopState) (trace : List (LoopState × LoopEvent)),
    Run loopStep s trace s' → s.Begins →
      (∀ x ∈ visited trace s', x.ReadsLive) ∧
      ((∃ freshBlock, s.call = .workerLs freshBlock) → s'.point = .done →
        ∀ tag, (∀ x ∈ visited trace s', tag ∈ x.tags) → s'.AskedOnce tag) := by
  intro h
  obtain ⟨s', trace, hr, hpoint⟩ : ∃ s' trace,
      Run loopStep (exampleCall [exampleServer 1, exampleServer 2]) trace s' ∧
      s'.point = .ip none false :=
    ⟨_, _, .step (e := .advance) rfl <| .step (e := .advance) rfl <|
      .step (e := .advance) rfl <| .step (e := .advance) rfl <| .step (e := .advance) rfl <|
      .step (e := .change (.remove 2) 0) rfl <|
      .step (e := .answer silentReply) rfl <| .step (e := .advance) rfl <| .done _, rfl⟩
  have hlive := (h _ s' trace hr ⟨rfl, rfl, rfl, by decide, by decide⟩).1 s'
    (mem_visited_last trace s')
  rw [LoopState.ReadsLive, hpoint] at hlive
  exact hlive

end PekarDrive
