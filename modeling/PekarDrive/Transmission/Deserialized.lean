import PekarDrive.Transmission.Serializer
import PekarDrive.Transmission.SingleUse
import Mathlib.Data.Option.Defs

/-!
# Deserialized instances

`transmission_deserialize` leaves four fields of its local struct unset: the message of the instance
and that of its connection, and the two marks of use. What the later calls do with them is compared
in two runs of the same calls, from the same bytes, over the same heap and the same connection, and
with two contents of the local struct.

The marks decide whether a use is refused and with which message; the message of the instance is
returned and freed when the error flag that has been read is set; and a `transmit` that is not
refused hands the connection to `init_transmission`, which reads its message when the connection has
an error.

## Main definitions

* `PekarDrive.observed`: what is seen of a sequence of calls.
* `PekarDrive.UnsetAlike`: the two contents agree on what is looked at.

## Main results

* `PekarDrive.observed_eq_of_simulation`: two runs that go side by side.
* `PekarDrive.forall_observed_eq_iff`.
-/

namespace PekarDrive

open CMemory CText

/-- What is seen of a sequence of calls: of each call its reply and the blocks that have been freed,
up to a call that does not return. -/
def observed (s : HeapState) : List TransmissionCall → List (Option (CallReply × List ℕ))
  | [] => []
  | c :: calls =>
    match s.call c with
    | none => [none]
    | some (r, s') => some (r, s'.ledger.released) :: observed s' calls

/-- A relation that calls keep, and under which they are seen alike. -/
def Simulation (R : HeapState → HeapState → Prop) : Prop :=
  ∀ s₁ s₂ c, R s₁ s₂ → Option.Rel
    (fun x y => x.1 = y.1 ∧ x.2.ledger.released = y.2.ledger.released ∧ R x.2 y.2)
    (s₁.call c) (s₂.call c)

/-- **Two runs side by side.** -/
theorem observed_eq_of_simulation {R : HeapState → HeapState → Prop} (hR : Simulation R)
    {s₁ s₂ : HeapState} (h : R s₁ s₂) (calls : List TransmissionCall) :
    observed s₁ calls = observed s₂ calls := by
  induction calls generalizing s₁ s₂ with
  | nil => rfl
  | cons c calls ih =>
    have hstep := hR s₁ s₂ c h
    rw [observed, observed]
    generalize s₁.call c = o₁ at *
    generalize s₂.call c = o₂ at *
    cases hstep with
    | none => rfl
    | some hxy =>
      obtain ⟨hr, hreleased, hR'⟩ := hxy
      rename_i x y
      obtain ⟨r, s₁'⟩ := x
      obtain ⟨r', s₂'⟩ := y
      obtain rfl := hr
      simp only at hreleased
      simp only [hreleased, ih hR']

/-- The pointer is `NULL`, or there is a string to be read. -/
def Readable (l : Ledger) (pointer : Option ℕ) : Prop := ∀ p ∈ pointer, (l.string p).isSome

/-- The pointer is `NULL`, or the block has not been freed. -/
def Freeable (l : Ledger) (pointer : Option ℕ) : Prop := ∀ p ∈ pointer, l.Live p

/-- `transmit` is not refused and divides by the size of a chunk buffer. -/
structure PassesTransmit (t : RawTransmission) : Prop where
  error_eq : t.error = 0
  isOpen_ne : t.isOpen ≠ 0
  writeUsed_eq : t.writeUsed = 0
  chunkSize_ne : t.chunkSize ≠ serializedSizeWithoutData

/-- The two contents agree on what is looked at: on the message when the error flag is set; on the
marks unless the first refusal does not return; and on whether the message of the connection can be
read when it is read. -/
structure UnsetAlike (ledger : Ledger) (m : Mem) (u₁ u₂ : Unset ledger) : Prop where
  /-- The message is returned and freed when the error flag is set. -/
  errMsg_eq : (transmissionDeserialize ledger u₁ m).t.error ≠ 0 → u₁.errMsg = u₂.errMsg
  /-- The marks choose the message of a refusal, unless it frees a message that is not there. -/
  used_iff : (transmissionDeserialize ledger u₁ m).t.error = 0 ∨ Freeable ledger u₁.errMsg →
    (u₁.readUsed = 0 ↔ u₂.readUsed = 0) ∧ (u₁.writeUsed = 0 ↔ u₂.writeUsed = 0)
  /-- `transmit` reads the message of a connection with an error. -/
  readable_iff : PassesTransmit (transmissionDeserialize ledger u₁ m).t →
    (transmissionDeserialize ledger u₁ m).t.connection.error ≠ 0 →
    (Readable ledger u₁.connErrorMsg ↔ Readable ledger u₂.connErrorMsg)

/-! ### Instances that differ in what is unset -/

namespace HeapState

/-- The instance with other contents in the fields that are not serialized. -/
def withUnset (s : HeapState) (errMsg connErrorMsg : Option ℕ) (readUsed writeUsed : Int16) :
    HeapState :=
  { s with t := { s.t with
      errMsg
      connection := { s.t.connection with errorMsg := connErrorMsg }
      readUsed
      writeUsed } }

section WithUnset

variable {s s' : HeapState} {e ce : Option ℕ} {r w : Int16}

theorem close_withUnset (he : s.t.error ≠ 0 → e = s.t.errMsg) :
    (s.withUnset e ce r w).close = s.close.map fun s' => s'.withUnset e ce r w := by
  change ((s.ledger.free s.t.data).bind fun ledger =>
    (if s.t.error ≠ 0 then ledger.free e else some ledger).map fun ledger => _) = _
  rw [close, Option.map_bind]
  refine Option.bind_congr fun l _ => ?_
  rw [Function.comp_apply, Option.map_map]
  by_cases herror : s.t.error = 0
  · rw [if_neg (not_not.mpr herror), if_neg (not_not.mpr herror)]
    rfl
  · rw [if_pos herror, if_pos herror, he herror]
    rfl

theorem transErr_withUnset (he : s.t.error ≠ 0 → e = s.t.errMsg) (err : CString) :
    (s.withUnset e ce r w).transErr err =
      (s.transErr err).map fun s' => s'.withUnset s'.t.errMsg ce r w := by
  rw [transErr, transErr, close_withUnset he, Option.map_map, Option.map_map]
  rfl

/-- The tests look at the mark, and at fields that are serialized. -/
theorem refusal_withUnset {used used' : Int16} (hused : used' = 0 ↔ used = 0) (message : CString) :
    (s.withUnset e ce r w).view.refusal used' message = s.view.refusal used message := by
  change (if used' ≠ 0 then _ else _) = if used ≠ 0 then _ else _
  simp only [ne_eq, hused]
  rfl

end WithUnset

end HeapState

/-- What the two runs have in common, beside the fields that are serialized. -/
structure Alike (base : ℕ) (s : HeapState) (e ce : Option ℕ) (r w : Int16) : Prop where
  errMsg_eq : s.t.error ≠ 0 → e = s.t.errMsg
  readUsed_iff : r = 0 ↔ s.t.readUsed = 0
  writeUsed_iff : w = 0 ↔ s.t.writeUsed = 0
  readable_iff : PassesTransmit s.t → s.t.connection.error ≠ 0 →
    (Readable s.ledger s.t.connection.errorMsg ↔ Readable s.ledger ce)
  /-- What is unset refers to older blocks than the data. -/
  base_le : base ≤ s.ledger.next
  le_data : ∀ p ∈ s.t.data, base ≤ p
  connErrorMsg_lt : ∀ p ∈ s.t.connection.errorMsg, p < base
  unset_lt : ∀ p ∈ ce, p < base

/-- The relation between the two runs. -/
def SideBySide (base : ℕ) (s₁ s₂ : HeapState) : Prop :=
  ∃ e ce r w, s₂ = s₁.withUnset e ce r w ∧ Alike base s₁ e ce r w

section Steps

variable {base : ℕ} {s s' : HeapState} {e ce : Option ℕ} {r w : Int16}

/-- A close leaves the two runs side by side. -/
theorem Alike.close (h : Alike base s e ce r w) (hs : s.close = some s') :
    Alike base s' e ce r w := by
  have ht := HeapState.t_of_close hs
  refine ⟨?_, ?_, ?_, ?_, ?_, ?_, ?_, h.unset_lt⟩
  · rw [ht]; exact h.errMsg_eq
  · rw [ht]; exact h.readUsed_iff
  · rw [ht]; exact h.writeUsed_iff
  · rw [ht]; exact fun hpasses => absurd rfl hpasses.isOpen_ne
  · rw [HeapState.next_of_close hs]; exact h.base_le
  · rw [ht]; simp
  · rw [ht]; exact h.connErrorMsg_lt

/-- So does a refusal, which writes the message of the instance. -/
theorem Alike.transErr (h : Alike base s e ce r w) {err : CString}
    (hs : s.transErr err = some s') : Alike base s' s'.t.errMsg ce r w := by
  obtain ⟨s₁, hs₁, ht, hl⟩ := HeapState.transErr_cases hs
  have hnext := HeapState.next_of_close hs₁
  refine ⟨fun _ => rfl, ?_, ?_, ?_, ?_, ?_, ?_, h.unset_lt⟩
  · rw [ht]; exact h.readUsed_iff
  · rw [ht]; exact h.writeUsed_iff
  · rw [ht]; exact fun hpasses => absurd rfl hpasses.isOpen_ne
  · rw [hl, Ledger.next_malloc, hnext]; exact Nat.le_succ_of_le h.base_le
  · rw [ht]; simp
  · rw [ht]; exact h.connErrorMsg_lt

/-- The marks that a use leaves are the same in both runs. -/
theorem Alike.transmitted (h : Alike base s e ce r w) :
    Alike base { s with t := { s.t with writeUsed := 1 } } e ce r 1 :=
  ⟨h.errMsg_eq, h.readUsed_iff, Iff.rfl, fun hpasses =>
    absurd hpasses.writeUsed_eq (show ¬ (1 : Int16) = 0 by decide), h.base_le, h.le_data,
    h.connErrorMsg_lt, h.unset_lt⟩

theorem Alike.nothingReceived (h : Alike base s e ce r w) :
    Alike base { s with t := { s.t with readUsed := 1 } } e ce 1 w :=
  ⟨h.errMsg_eq, Iff.rfl, h.writeUsed_iff, fun hpasses =>
    h.readable_iff ⟨hpasses.1, hpasses.2, hpasses.3, hpasses.4⟩, h.base_le, h.le_data,
    h.connErrorMsg_lt, h.unset_lt⟩

/-- What older blocks hold is not touched by a read. -/
theorem readable_of_received {l : Ledger} {pointer : Option ℕ}
    (hl : s.ledger.free s.t.data = some l)
    (hbase : base ≤ s.ledger.next) (hdata : ∀ p ∈ s.t.data, base ≤ p)
    (hlt : ∀ p ∈ pointer, p < base) (size : ℕ) (stored : List UInt8) :
    Readable (l.malloc size stored) pointer ↔ Readable s.ledger pointer := by
  refine forall₂_congr fun p hp => ?_
  have hnext : l.next = s.ledger.next := congrArg List.length (Ledger.blocks_of_free hl)
  have hp' := hlt p hp
  rw [Ledger.string_malloc_of_lt (by omega)]
  rcases Ledger.free_cases hl with ⟨-, rfl⟩ | ⟨q, hq, hqdata, rfl⟩
  · rfl
  · have := hdata q hqdata
    rw [Ledger.string_release_of_ne hq (by omega)]

theorem Alike.received (h : Alike base s e ce r w) {l : Ledger}
    (hl : s.ledger.free s.t.data = some l) (size : ℕ) (stored : List UInt8) :
    Alike base ⟨{ s.t with readUsed := 1, data := some l.next, bytes := UInt64.ofNat size },
      l.malloc size stored⟩ e ce 1 w := by
  have hnext : l.next = s.ledger.next := congrArg List.length (Ledger.blocks_of_free hl)
  refine ⟨h.errMsg_eq, Iff.rfl, h.writeUsed_iff, fun hpasses herror => ?_, ?_, ?_,
    h.connErrorMsg_lt, h.unset_lt⟩
  · rw [readable_of_received hl h.base_le h.le_data h.connErrorMsg_lt,
      readable_of_received hl h.base_le h.le_data h.unset_lt]
    exact h.readable_iff ⟨hpasses.1, hpasses.2, hpasses.3, hpasses.4⟩ herror
  · rw [Ledger.next_malloc, hnext]
    exact Nat.le_succ_of_le h.base_le
  · rintro p ⟨⟩
    rw [hnext]
    exact h.base_le

end Steps

/-! ### Calls side by side -/

section Calls

variable {base : ℕ} {s : HeapState} {e ce : Option ℕ} {r w : Int16}

/-- Two outcomes that are seen alike. -/
def SeenAlike (base : ℕ) (x y : CallReply × HeapState) : Prop :=
  x.1 = y.1 ∧ x.2.ledger.released = y.2.ledger.released ∧ SideBySide base x.2 y.2

theorem rel_map {α β γ : Type} {P : β → γ → Prop} {o : Option α} {f : α → β} {g : α → γ}
    (h : ∀ x ∈ o, P (f x) (g x)) : Option.Rel P (o.map f) (o.map g) := by
  cases o with
  | none => exact .none
  | some x => exact .some (h x rfl)

theorem rel_close (h : Alike base s e ce r w) :
    Option.Rel (SeenAlike base) (s.call .close) ((s.withUnset e ce r w).call .close) := by
  rw [HeapState.call, HeapState.call, HeapState.close_withUnset h.errMsg_eq, Option.map_map]
  exact rel_map fun s' hs => ⟨rfl, rfl, e, ce, r, w, rfl, h.close hs⟩

/-- A call that is refused in both runs with the same message. -/
theorem rel_transErr (h : Alike base s e ce r w) (message : CString) :
    Option.Rel (SeenAlike base)
      ((s.transErr message).map fun s' => (⟨.flag false, [], 0⟩, s'))
      (((s.withUnset e ce r w).transErr message).map fun s' => (⟨.flag false, [], 0⟩, s')) := by
  rw [HeapState.transErr_withUnset h.errMsg_eq, Option.map_map]
  exact rel_map fun s' hs => ⟨rfl, rfl, s'.t.errMsg, ce, r, w, rfl, h.transErr hs⟩

theorem rel_transmissionError (h : Alike base s e ce r w) :
    Option.Rel (SeenAlike base) (s.call .transmissionError)
      ((s.withUnset e ce r w).call .transmissionError) := by
  have hmessage : (s.withUnset e ce r w).transmissionError = s.transmissionError := by
    change (if s.t.error = 0 then none else e) = if s.t.error = 0 then none else s.t.errMsg
    by_cases herror : s.t.error = 0
    · rw [if_pos herror, if_pos herror]
    · rw [if_neg herror, if_neg herror, h.errMsg_eq herror]
  rw [HeapState.call, HeapState.call, hmessage]
  exact .some ⟨rfl, rfl, e, ce, r, w, rfl, h⟩

theorem rel_receive (h : Alike base s e ce r w) (fresh : ℕ → Mem) (reads : List (List UInt8)) :
    Option.Rel (SeenAlike base) (s.call (.receive fresh reads))
      ((s.withUnset e ce r w).call (.receive fresh reads)) := by
  have href := @HeapState.refusal_withUnset s e ce r w _ _ h.readUsed_iff
    (lit "Transmission instance already used for reading.")
  have hused : (s.withUnset e ce r w).t.readUsed = r := rfl
  rw [HeapState.call, HeapState.call, HeapState.receive, HeapState.receive, hused, href]
  cases s.view.refusal s.t.readUsed (lit "Transmission instance already used for reading.") with
  | some message =>
    simp only [Option.map_map]
    exact rel_transErr h message
  | none =>
    have hchunk : (s.withUnset e ce r w).t.chunkSize = s.t.chunkSize := rfl
    have hdata : (s.withUnset e ce r w).t.data = s.t.data := rfl
    have hledger : (s.withUnset e ce r w).ledger = s.ledger := rfl
    simp only [hchunk, hdata, hledger]
    cases receiveLoop s.t.chunkSize fresh reads 0 (window (fresh 0) 0 s.t.chunkSize.toNat) with
    | none => exact .none
    | some outcome =>
      obtain ⟨i, more, buffer⟩ := outcome
      by_cases hfirst : i = 1 ∧ more = false
      · simp only [if_pos hfirst, Option.map_some]
        exact .some ⟨rfl, rfl, e, ce, 1, w, rfl, h.nothingReceived⟩
      · simp only [if_neg hfirst]
        cases trimPadding buffer (s.t.chunkSize * (if more then i else i - 1)).toNat with
        | none => exact .none
        | some newSize =>
          simp only [Option.map_map]
          exact rel_map fun l hl => ⟨rfl, rfl, e, ce, 1, w, rfl, h.received hl _ _⟩

/-- When the message of a connection is read. -/
theorem isSome_load_iff {l : Ledger} {c : RawConn} :
    (c.load l).isSome = true ↔ (c.error ≠ 0 → Readable l c.errorMsg) := by
  by_cases herror : c.error = 0
  · simp [RawConn.load, herror]
  · cases hptr : c.errorMsg with
    | none => simp [RawConn.load, herror, hptr, Readable]
    | some p => simp [RawConn.load, herror, hptr, Readable]

theorem rel_transmit (h : Alike base s e ce r w) (heap : SendHeap) :
    Option.Rel (SeenAlike base) (s.call (.transmit heap))
      ((s.withUnset e ce r w).call (.transmit heap)) := by
  have href := @HeapState.refusal_withUnset s e ce r w _ _ h.writeUsed_iff
    (lit "Transmission instance already used for writing.")
  have hused : (s.withUnset e ce r w).t.writeUsed = w := rfl
  have hdata : (s.withUnset e ce r w).t.data = s.t.data := rfl
  rw [HeapState.call, HeapState.call, HeapState.transmit, HeapState.transmit, hused, href, hdata]
  cases hpass : s.view.refusal s.t.writeUsed
    (lit "Transmission instance already used for writing.") with
  | some message =>
    simp only [Option.map_map]
    exact rel_transErr h message
  | none =>
    cases s.t.data with
    | none =>
      simp only [Option.map_map]
      exact rel_transErr h _
    | some p =>
      have husable := Transmission.refusal_eq_none_iff.mp hpass
      have hiff : s.ledger.Live p ∧ s.t.chunkSize ≠ serializedSizeWithoutData ∧
            (s.t.connection.load s.ledger).isSome = true ↔
          (s.withUnset e ce r w).ledger.Live p ∧
            (s.withUnset e ce r w).t.chunkSize ≠ serializedSizeWithoutData ∧
            ((s.withUnset e ce r w).t.connection.load (s.withUnset e ce r w).ledger).isSome =
              true := by
        refine and_congr_right fun _ => and_congr_right fun hchunk => ?_
        rw [isSome_load_iff, isSome_load_iff]
        exact forall_congr' fun herror => h.readable_iff
          ⟨husable.error_eq, husable.isOpen_ne, husable.used_eq, hchunk⟩ herror
      by_cases hcond : s.ledger.Live p ∧ s.t.chunkSize ≠ serializedSizeWithoutData ∧
          (s.t.connection.load s.ledger).isSome = true
      · simp only [if_pos hcond, if_pos (hiff.mp hcond), Option.map_map]
        exact rel_map fun data _ => ⟨rfl, rfl, e, ce, r, 1, rfl, h.transmitted⟩
      · simp only [if_neg hcond, if_neg (mt hiff.mpr hcond)]
        exact .none

/-- **Calls side by side.** -/
theorem simulation_sideBySide (base : ℕ) : Simulation (SideBySide base) := by
  rintro s₁ s₂ c ⟨e, ce, r, w, rfl, h⟩
  cases c with
  | transmit heap => exact rel_transmit h heap
  | receive fresh reads => exact rel_receive h fresh reads
  | transmissionError => exact rel_transmissionError h
  | close => exact rel_close h

end Calls

/-! ### The two-run law -/

section TwoRuns

variable {ledger : Ledger} {m : Mem} {u₁ u₂ : Unset ledger}

/-- The two instances differ in what is unset. -/
theorem transmissionDeserialize_withUnset (u₁ u₂ : Unset ledger) :
    transmissionDeserialize ledger u₂ m =
      (transmissionDeserialize ledger u₁ m).withUnset u₂.errMsg u₂.connErrorMsg u₂.readUsed
        u₂.writeUsed := rfl

/-- What is unset refers to older blocks than the data. -/
theorem readable_deserialize {u : Unset ledger} :
    Readable (transmissionDeserialize ledger u m).ledger u.connErrorMsg ↔
      Readable ledger u.connErrorMsg :=
  forall₂_congr fun p hp => by
    rw [transmissionDeserialize, Ledger.string_malloc_of_lt (u.connErrorMsg_lt p hp)]

/-- When the marks agree, the two runs go side by side. -/
theorem sideBySide_deserialize (h : UnsetAlike ledger m u₁ u₂)
    (hfine : (transmissionDeserialize ledger u₁ m).t.error = 0 ∨ Freeable ledger u₁.errMsg) :
    SideBySide ledger.next (transmissionDeserialize ledger u₁ m)
      (transmissionDeserialize ledger u₂ m) := by
  refine ⟨u₂.errMsg, u₂.connErrorMsg, u₂.readUsed, u₂.writeUsed, rfl, ?_⟩
  refine ⟨fun herror => (h.errMsg_eq herror).symm, (h.used_iff hfine).1.symm,
    (h.used_iff hfine).2.symm, fun hpasses herror => ?_, ?_, ?_, u₁.connErrorMsg_lt,
    u₂.connErrorMsg_lt⟩
  · change Readable (transmissionDeserialize ledger u₁ m).ledger u₁.connErrorMsg ↔
      Readable (transmissionDeserialize ledger u₂ m).ledger u₂.connErrorMsg
    rw [readable_deserialize, readable_deserialize]
    exact h.readable_iff hpasses herror
  · rw [transmissionDeserialize, Ledger.next_malloc]
    exact Nat.le_succ _
  · rintro p ⟨⟩
    exact le_rfl

/-- What is unset refers to older blocks than the data, so a close returns. -/
theorem isSome_close_deserialize {u : Unset ledger}
    (hfine : (transmissionDeserialize ledger u m).t.error = 0 ∨ Freeable ledger u.errMsg) :
    (transmissionDeserialize ledger u m).close.isSome := by
  have hdata : (transmissionDeserialize ledger u m).ledger.Live ledger.next :=
    Ledger.live_malloc_next
  have hfree : (transmissionDeserialize ledger u m).ledger.free
      (transmissionDeserialize ledger u m).t.data = some (Ledger.release _ _ hdata) :=
    Ledger.free_some hdata
  rw [HeapState.close, hfree, Option.bind_some, Option.isSome_map]
  by_cases herror : (transmissionDeserialize ledger u m).t.error = 0
  · rw [if_neg (not_not.mpr herror)]
    rfl
  · rw [if_pos herror]
    have hfreeable := hfine.resolve_left herror
    cases hptr : (transmissionDeserialize ledger u m).t.errMsg with
    | none => rfl
    | some p =>
      have hlive := hfreeable p hptr
      have hlive' : (Ledger.release _ _ hdata).Live p := by
        rw [Ledger.live_release_iff]
        exact ⟨hlive.malloc, hlive.1.ne⟩
      rw [Ledger.free_some hlive']
      rfl

end TwoRuns

/-! ### Where the two runs part -/

/-- The message of a use of a marked instance. -/
def usedMessage (c : TransmissionCall) : CString :=
  if c.isTransmit then lit "Transmission instance already used for writing."
  else lit "Transmission instance already used for reading."

section Part

variable {s : HeapState} {c : TransmissionCall}

/-- A refusal, and the message that it leaves. -/
theorem observed_of_refusal {err : CString} (hclose : s.close.isSome)
    (hcall : s.call c = (s.transErr err).map fun s' => (⟨.flag false, [], 0⟩, s')) :
    ∃ n freed freed', observed s [c, .transmissionError] =
      [some (⟨.flag false, [], 0⟩, freed),
        some (⟨.message (some n) (some ⟨err.strlen, err.bytes ++ [0]⟩), [], 0⟩, freed')] := by
  obtain ⟨s', hs'⟩ : ∃ s', s.transErr err = some s' := by
    rw [← Option.isSome_iff_exists, HeapState.transErr, Option.isSome_map]
    exact hclose
  obtain ⟨s₁, hs₁, ht, hl⟩ := HeapState.transErr_cases hs'
  have herror : s'.t.error = 1 := by rw [ht]
  have hptr : s'.t.errMsg = some s.ledger.next := by rw [ht]
  have hmessage : s'.transmissionError = some s.ledger.next := by
    rw [HeapState.transmissionError, herror, if_neg (show (1 : UInt8) ≠ 0 by decide), hptr]
  have hblock : s'.ledger.blocks[s.ledger.next]? = some ⟨err.strlen, err.bytes ++ [0]⟩ := by
    rw [hl, ← HeapState.next_of_close hs₁, Ledger.getElem?_malloc_next]
  have hreply : s'.call .transmissionError = some (⟨.message (some s.ledger.next)
      (some ⟨err.strlen, err.bytes ++ [0]⟩), [], 0⟩, s') := by
    rw [HeapState.call, hmessage, Option.bind_some, hblock]
  refine ⟨s.ledger.next, s'.ledger.released, s'.ledger.released, ?_⟩
  rw [hs', Option.map_some] at hcall
  simp only [observed, hcall, hreply]

/-- A marked instance is refused with the message of its mark. -/
theorem call_of_used (hc : c.used s.t ≠ 0) :
    s.call c = (s.transErr (usedMessage c)).map fun s' => (⟨.flag false, [], 0⟩, s') := by
  cases c with
  | transmit heap =>
    have href : s.view.refusal s.t.writeUsed
        (lit "Transmission instance already used for writing.") =
          some (lit "Transmission instance already used for writing.") := if_pos hc
    rw [HeapState.call, HeapState.transmit, href]
    exact Option.map_map _ _ _
  | receive fresh reads =>
    have href : s.view.refusal s.t.readUsed
        (lit "Transmission instance already used for reading.") =
          some (lit "Transmission instance already used for reading.") := if_pos hc
    rw [HeapState.call, HeapState.receive, href]
    exact Option.map_map _ _ _
  | transmissionError => exact absurd rfl hc
  | close => exact absurd rfl hc

/-- The other messages. -/
theorem ne_usedMessage (c : TransmissionCall) {err : CString}
    (h : err = lit "Erroneous transmission instance used." ∨
      err = lit "Transmission instance is closed." ∨ err = lit "Data to transmit is NULL.") :
    err.bytes ≠ (usedMessage c).bytes := by
  rw [usedMessage]
  rcases h with rfl | rfl | rfl <;> split <;> decide

theorem refusal_of_unused {t : Transmission} {used : Int16} (hused : used = 0)
    {message err : CString} (h : t.refusal used message = some err) :
    err = lit "Erroneous transmission instance used." ∨
      err = lit "Transmission instance is closed." ∨ err = lit "Data to transmit is NULL." := by
  rw [Transmission.refusal, if_neg (not_not.mpr hused)] at h
  split_ifs at h with herror hopen
  · exact .inl (Option.some.inj h).symm
  · exact .inr (.inl (Option.some.inj h).symm)

/-- An instance without the mark is refused with another message, or is not refused. -/
theorem call_of_unused (hc : c.isUse) (hused : c.used s.t = 0) :
    (∃ err : CString, err.bytes ≠ (usedMessage c).bytes ∧
      s.call c = (s.transErr err).map fun s' => (⟨.flag false, [], 0⟩, s')) ∨ ¬ s.Refuses c := by
  cases c with
  | transmit heap =>
    cases href : s.view.refusal s.t.writeUsed
      (lit "Transmission instance already used for writing.") with
    | some err =>
      refine .inl ⟨err, ne_usedMessage _ (refusal_of_unused hused href), ?_⟩
      rw [HeapState.call, HeapState.transmit, href]
      exact Option.map_map _ _ _
    | none =>
      cases hdata : s.t.data with
      | none =>
        refine .inl ⟨_, ne_usedMessage _ (.inr (.inr rfl)), ?_⟩
        rw [HeapState.call, HeapState.transmit, href, hdata]
        exact Option.map_map _ _ _
      | some p =>
        refine .inr ?_
        rintro (hnot | hnone)
        · exact hnot (Transmission.refusal_eq_none_iff.mp href)
        · rw [hdata] at hnone
          exact absurd hnone (by simp)
  | receive fresh reads =>
    cases href : s.view.refusal s.t.readUsed
      (lit "Transmission instance already used for reading.") with
    | some err =>
      refine .inl ⟨err, ne_usedMessage _ (refusal_of_unused hused href), ?_⟩
      rw [HeapState.call, HeapState.receive, href]
      exact Option.map_map _ _ _
    | none => exact .inr (not_not.mpr (Transmission.refusal_eq_none_iff.mp href))
  | transmissionError => exact absurd hc (by decide)
  | close => exact absurd hc (by decide)

/-- The uses by which the marks are told apart. -/
def probe (write : Bool) : TransmissionCall :=
  if write then .transmit ⟨fun _ => 0, fun _ _ => 0⟩ else .receive (fun _ _ => 0) []

/-- A use that is not refused is not seen like a refusal: it returns 1, or it has read. -/
theorem reply_of_not_refuses {write : Bool} {s' : HeapState} (h : ¬ s.Refuses (probe write))
    {r : CallReply} (hcall : s.call (probe write) = some (r, s')) :
    r ≠ ⟨.flag false, [], 0⟩ := by
  cases write with
  | true =>
    have hprobe : probe true = .transmit ⟨fun _ => 0, fun _ _ => 0⟩ := rfl
    rw [hprobe] at h hcall
    cases call_cases hcall with
    | refused hc hs => exact absurd hc h
    | transmitted hc => simp
  | false =>
    have href : s.view.refusal s.t.readUsed
        (lit "Transmission instance already used for reading.") = none :=
      Transmission.refusal_eq_none_iff.mpr (not_not.mp h)
    have hprobe : probe false = .receive (fun _ _ => 0) [] := rfl
    rw [hprobe, HeapState.call, HeapState.receive, href] at hcall
    obtain ⟨rfl, -⟩ := Prod.mk.inj (Option.some.inj hcall)
    simp

/-- **The marks are seen.** -/
theorem used_eq_zero_of_observed {s₁ s₂ : HeapState} {write : Bool} (h₁ : s₁.close.isSome)
    (h₂ : s₂.close.isSome) (h : observed s₁ [probe write, .transmissionError] =
      observed s₂ [probe write, .transmissionError])
    (hused : (probe write).used s₁.t = 0) : (probe write).used s₂.t = 0 := by
  by_contra hne
  have huse : (probe write).isUse := by cases write <;> rfl
  obtain ⟨n, freed, freed', hseen₂⟩ := observed_of_refusal h₂ (call_of_used hne)
  rcases call_of_unused huse hused with ⟨err, herr, hcall⟩ | hnot
  · obtain ⟨n', released, released', hseen₁⟩ := observed_of_refusal h₁ hcall
    rw [hseen₁, hseen₂] at h
    simp only [List.cons.injEq, Option.some.injEq, Prod.mk.injEq, CallReply.mk.injEq,
      Returned.message.injEq, Block.mk.injEq] at h
    exact herr (List.append_cancel_right h.2.1.1.1.2.2)
  · rw [hseen₂, observed] at h
    cases hcall : s₁.call (probe write) with
    | none => simp [hcall] at h
    | some outcome =>
      obtain ⟨r, s'⟩ := outcome
      simp only [hcall, List.cons.injEq, Option.some.injEq, Prod.mk.injEq] at h
      exact reply_of_not_refuses hnot hcall h.1.1

end Part

/-! ### Messages that are not there -/

section Dangling

variable {s : HeapState} {e ce : Option ℕ} {r w : Int16}

/-- A close that frees a message that is not there. -/
theorem close_of_dangling (herror : s.t.error ≠ 0) (hdead : ¬ Freeable s.ledger s.t.errMsg) :
    s.close = none := by
  by_contra hsome
  obtain ⟨s', hs'⟩ := Option.ne_none_iff_exists'.mp hsome
  obtain ⟨l, hl, hl', -⟩ := HeapState.close_cases hs'
  rw [if_pos herror] at hl'
  refine hdead fun p hp => ?_
  rw [Option.mem_def.mp hp] at hl'
  obtain ⟨hnone, -⟩ | ⟨q, hq, heq, -⟩ := Ledger.free_cases hl'
  · exact absurd hnone (by simp)
  · obtain rfl := Option.some.inj heq
    rcases Ledger.free_cases hl with ⟨-, rfl⟩ | ⟨q, hq', -, rfl⟩
    · exact hq
    · exact ((Ledger.live_release_iff hq').mp hq).1

/-- Then only the message can be asked for. -/
theorem call_of_dangling (herror : s.t.error ≠ 0) (hdead : ¬ Freeable s.ledger s.t.errMsg)
    {c : TransmissionCall} (hc : c.isUse ∨ c.isClose) : s.call c = none := by
  have hclose := close_of_dangling herror hdead
  rcases hc with huse | hclosing
  · obtain ⟨message, hcall⟩ := exists_transErr_of_refuses (refuses_of_spent huse (.inr herror))
    rw [hcall, HeapState.transErr, hclose]
    rfl
  · cases c with
    | transmit heap => exact absurd hclosing (by simp [TransmissionCall.isClose])
    | receive fresh reads => exact absurd hclosing (by simp [TransmissionCall.isClose])
    | transmissionError => exact absurd hclosing (by decide)
    | close =>
      rw [HeapState.call, hclose]
      rfl

/-- Two instances with the same message that is not there. -/
def BothDangling (s₁ s₂ : HeapState) : Prop :=
  ∃ ce r w, s₂ = s₁.withUnset s₁.t.errMsg ce r w ∧ s₁.t.error ≠ 0 ∧
    ¬ Freeable s₁.ledger s₁.t.errMsg

theorem simulation_bothDangling : Simulation BothDangling := by
  rintro s₁ s₂ c ⟨ce, r, w, rfl, herror, hdead⟩
  have hnone : ∀ c : TransmissionCall, c.isUse ∨ c.isClose → Option.Rel
      (fun x y => x.1 = y.1 ∧ x.2.ledger.released = y.2.ledger.released ∧ BothDangling x.2 y.2)
      (s₁.call c) ((s₁.withUnset s₁.t.errMsg ce r w).call c) := by
    intro c hc
    rw [call_of_dangling herror hdead hc,
      call_of_dangling (s := s₁.withUnset s₁.t.errMsg ce r w) herror hdead hc]
    exact .none
  cases c with
  | transmit heap => exact hnone _ (.inl rfl)
  | receive fresh reads => exact hnone _ (.inl rfl)
  | transmissionError => exact .some ⟨rfl, rfl, ce, r, w, rfl, herror, hdead⟩
  | close => exact hnone _ (.inr rfl)

end Dangling

section TwoRuns

variable {ledger : Ledger} {m : Mem} {u₁ u₂ : Unset ledger}

/-- When the contents agree on what is looked at, nothing else is seen. -/
theorem observed_eq_of_unsetAlike (h : UnsetAlike ledger m u₁ u₂)
    (calls : List TransmissionCall) :
    observed (transmissionDeserialize ledger u₁ m) calls =
      observed (transmissionDeserialize ledger u₂ m) calls := by
  by_cases hfine : (transmissionDeserialize ledger u₁ m).t.error = 0 ∨
      Freeable ledger u₁.errMsg
  · exact observed_eq_of_simulation (simulation_sideBySide ledger.next)
      (sideBySide_deserialize h hfine) calls
  · obtain ⟨herror, hdead⟩ := not_or.mp hfine
    refine observed_eq_of_simulation simulation_bothDangling
      ⟨u₂.connErrorMsg, u₂.readUsed, u₂.writeUsed, ?_, herror, fun hfree => hdead ?_⟩ calls
    · rw [transmissionDeserialize_withUnset u₁ u₂, ← h.errMsg_eq herror]
      rfl
    · intro p hp
      exact (Ledger.live_malloc_iff_of_lt (u₁.errMsg_lt p hp)).mp (hfree p hp)

/-- The message is seen when the error flag is set. -/
theorem errMsg_eq_of_observed (h : ∀ calls, observed (transmissionDeserialize ledger u₁ m) calls =
      observed (transmissionDeserialize ledger u₂ m) calls)
    (herror : (transmissionDeserialize ledger u₁ m).t.error ≠ 0) : u₁.errMsg = u₂.errMsg := by
  have hseen := h [.transmissionError]
  have hmessage : ∀ u : Unset ledger,
      (transmissionDeserialize ledger u m).transmissionError = u.errMsg := fun u => if_neg herror
  simp only [observed, HeapState.call, hmessage, List.cons.injEq, Option.some.injEq,
    Prod.mk.injEq, CallReply.mk.injEq, Returned.message.injEq] at hseen
  exact hseen.1.1.1.1

/-- Whether a call returns is seen. -/
theorem isSome_call_eq_of_observed {s₁ s₂ : HeapState} {c : TransmissionCall}
    (h : observed s₁ [c] = observed s₂ [c]) : (s₁.call c).isSome = (s₂.call c).isSome := by
  rw [observed, observed] at h
  cases h₁ : s₁.call c with
  | none =>
    cases h₂ : s₂.call c with
    | none => rfl
    | some outcome => simp [h₁, h₂] at h
  | some outcome =>
    cases h₂ : s₂.call c with
    | none => simp [h₁, h₂] at h
    | some outcome' => rfl

/-- A `transmit` that is not refused returns if the message of the connection can be read. -/
theorem isSome_transmit_deserialize {u : Unset ledger} (heap : SendHeap)
    (hpasses : PassesTransmit (transmissionDeserialize ledger u m).t)
    (herror : (transmissionDeserialize ledger u m).t.connection.error ≠ 0) :
    ((transmissionDeserialize ledger u m).call (.transmit heap)).isSome = true ↔
      Readable ledger u.connErrorMsg := by
  have husable : (transmissionDeserialize ledger u m).view.Usable
      (transmissionDeserialize ledger u m).t.writeUsed :=
    ⟨hpasses.writeUsed_eq, hpasses.error_eq, hpasses.isOpen_ne⟩
  have hdata : (transmissionDeserialize ledger u m).t.data = some ledger.next := rfl
  have hview : ∃ data, (transmissionDeserialize ledger u m).view.data = some data := by
    simp only [HeapState.view, hdata, Option.bind_some, Option.map_eq_some_iff]
    exact ⟨_, _, Ledger.getElem?_malloc_next, rfl⟩
  obtain ⟨data, hview⟩ := hview
  have hload : ((transmissionDeserialize ledger u m).t.connection.load
      (transmissionDeserialize ledger u m).ledger).isSome = true ↔
        Readable ledger u.connErrorMsg := by
    rw [isSome_load_iff]
    exact ⟨fun h => readable_deserialize.mp (h herror), fun h _ => readable_deserialize.mpr h⟩
  have hlive : (transmissionDeserialize ledger u m).ledger.Live ledger.next :=
    Ledger.live_malloc_next
  rw [HeapState.call, Option.isSome_map, HeapState.transmit,
    Transmission.refusal_eq_none_iff.mpr husable, hdata]
  by_cases hread : Readable ledger u.connErrorMsg
  · refine iff_of_true ?_ hread
    simp only [if_pos (And.intro hlive (And.intro hpasses.chunkSize_ne (hload.mpr hread))), hview]
    rfl
  · refine iff_of_false ?_ hread
    have hcond : ¬ ((transmissionDeserialize ledger u m).ledger.Live ledger.next ∧
        (transmissionDeserialize ledger u m).t.chunkSize ≠ serializedSizeWithoutData ∧
        ((transmissionDeserialize ledger u m).t.connection.load
          (transmissionDeserialize ledger u m).ledger).isSome = true) :=
      fun h => hread (hload.mp h.2.2)
    simp only [if_neg hcond]
    exact Bool.false_ne_true

/-- **The two-run law.** Two deserialized instances are seen alike in every sequence of calls, if
and only if the two contents of the local struct agree on what is looked at. -/
theorem forall_observed_eq_iff (ledger : Ledger) (m : Mem) (u₁ u₂ : Unset ledger) :
    (∀ calls, observed (transmissionDeserialize ledger u₁ m) calls =
      observed (transmissionDeserialize ledger u₂ m) calls) ↔ UnsetAlike ledger m u₁ u₂ := by
  constructor
  · intro h
    have herrMsg := fun herror => errMsg_eq_of_observed h herror
    have hused : (transmissionDeserialize ledger u₁ m).t.error = 0 ∨ Freeable ledger u₁.errMsg →
        (u₁.readUsed = 0 ↔ u₂.readUsed = 0) ∧ (u₁.writeUsed = 0 ↔ u₂.writeUsed = 0) := by
      intro hfine
      have hfine₂ : (transmissionDeserialize ledger u₂ m).t.error = 0 ∨
          Freeable ledger u₂.errMsg := by
        by_cases herror : (transmissionDeserialize ledger u₁ m).t.error = 0
        · exact .inl herror
        · exact .inr (herrMsg herror ▸ hfine.resolve_left herror)
      have h₁ := isSome_close_deserialize hfine
      have h₂ := isSome_close_deserialize hfine₂
      have hprobe : ∀ write, (probe write).used (transmissionDeserialize ledger u₁ m).t = 0 ↔
          (probe write).used (transmissionDeserialize ledger u₂ m).t = 0 := fun write =>
        ⟨used_eq_zero_of_observed h₁ h₂ (h _), used_eq_zero_of_observed h₂ h₁ (h _).symm⟩
      exact ⟨hprobe false, hprobe true⟩
    refine ⟨herrMsg, hused, fun hpasses herror => ?_⟩
    have hpasses₂ : PassesTransmit (transmissionDeserialize ledger u₂ m).t :=
      ⟨hpasses.1, hpasses.2, (hused (.inl hpasses.1)).2.mp hpasses.3, hpasses.4⟩
    have hsome := isSome_call_eq_of_observed (h [.transmit ⟨fun _ => 0, fun _ _ => 0⟩])
    rw [← isSome_transmit_deserialize _ hpasses herror,
      ← isSome_transmit_deserialize _ hpasses₂ herror, hsome]
  · exact observed_eq_of_unsetAlike

end TwoRuns

/-- The transmission of an empty message. -/
def exampleTransmission : Transmission := initTransmission 200 ⟨0, none, 3, 0⟩ (some fun _ => 0) 0

/-- A first `receive` on a deserialized instance reads, or is refused, as the mark happens to be. -/
theorem not_forall_observed_eq : ¬ ∀ (t : Transmission) (fresh : Mem) (block : List UInt8)
    (ledger : Ledger) (u₁ u₂ : Unset ledger) (calls : List TransmissionCall),
    transmissionSerialize fresh t = some block →
      observed (transmissionDeserialize ledger u₁ (overlay block fun _ => 0)) calls =
        observed (transmissionDeserialize ledger u₂ (overlay block fun _ => 0)) calls := by
  intro h
  have hseen := h exampleTransmission (fun _ => 0) _ .empty ⟨none, none, 0, 0, by simp, by simp⟩
    ⟨none, none, 1, 0, by simp, by simp⟩ [.receive (fun _ _ => 0) []] rfl
  exact absurd hseen (by decide)

end PekarDrive
