import PekarDrive.Transmission.Heap

/-!
# Owned blocks

An instance that `init_transmission` has made owns its blocks, and goes on owning them whatever is
done with it (`PekarDrive.HeapState.Owned.call`). As long as it does, forgetting the addresses
(`PekarDrive.HeapState.view`) turns the functions on the heap into those on contents; they are not
defined only where `close_transmission` would free a message twice.

## Main definitions

* `PekarDrive.HeapState.Owned`.

## Main results

* `PekarDrive.HeapState.owned_init`, `PekarDrive.HeapState.Owned.call`.
* `PekarDrive.HeapState.view_init`, `PekarDrive.HeapState.map_view_close`,
  `PekarDrive.HeapState.map_view_transmit`, `PekarDrive.HeapState.map_view_receive`.
-/

namespace PekarDrive

open CMemory CText

/-! ### Owned blocks -/

namespace HeapState

/-- The instance owns its blocks: it has been made by `init_transmission`. -/
structure Owned (s : HeapState) : Prop where
  /-- The data is held. -/
  data_live : ∀ p ∈ s.t.data, s.ledger.Live p
  /-- The message lies in a block, which may have been freed. -/
  errMsg_lt : ∀ p ∈ s.t.errMsg, p < s.ledger.next
  /-- The two blocks are not the same. -/
  data_ne : ∀ p ∈ s.t.data, s.t.errMsg ≠ some p
  /-- So does the message of the connection. -/
  connection_lt : ∀ p ∈ s.t.connection.errorMsg, p < s.ledger.next
  /-- Without an error there is no message of the connection. -/
  connection_eq : s.t.error = 0 → s.t.connection.errorMsg = none
  /-- Without an error a chunk has room for data. -/
  lt_chunkSize : s.t.error = 0 → serializedSizeWithoutData < s.t.chunkSize

section Owned

variable {s s' : HeapState}

theorem owned_init (ledger : Ledger) (chunkSize : UInt16) (connection : Conn) (data : Option Mem)
    (size : UInt64) : (init ledger chunkSize connection data size).Owned where
  data_live p hp := ((Ledger.mem_place hp).2.place _).place _
  errMsg_lt p hp := (Ledger.mem_place hp).2.1
  data_ne p hp herr := by
    have hlt := ((Ledger.mem_place hp).2.place
      ((if connection.error ≠ 0 then connection.errorMsg else none).map fun text =>
        stringBlock (text.strlen + 1) text)).1
    exact absurd (Ledger.mem_place herr).1 hlt.ne
  connection_lt p hp := ((Ledger.mem_place hp).2.place _).1
  connection_eq herror := by
    have hnone : (if connection.error ≠ 0 then connection.errorMsg else none) = none := by
      by_contra hne
      simp only [init, hne, ne_eq, not_false_eq_true, true_or, if_true] at herror
      exact absurd herror (by decide)
    simp only [init, hnone, Option.map_none]
    rfl
  lt_chunkSize herror := by
    refine UInt32.not_le.mp fun hle => ?_
    have hle' : chunkSize.toUInt32 ≤ serializedSizeWithoutData := hle
    simp only [init, hle', or_true, if_true] at herror
    exact absurd herror (by decide)

theorem Owned.close (h : s.Owned) (hs : s.close = some s') : s'.Owned := by
  have ht := t_of_close hs
  have hnext := next_of_close hs
  refine ⟨?_, ?_, ?_, ?_, ?_, ?_⟩
  · rw [ht]; simp
  · rw [ht, hnext]; exact h.errMsg_lt
  · rw [ht]; simp
  · rw [ht, hnext]; exact h.connection_lt
  · rw [ht]; exact h.connection_eq
  · rw [ht]; exact h.lt_chunkSize

theorem Owned.transErr (h : s.Owned) {err : CString} (hs : s.transErr err = some s') :
    s'.Owned := by
  obtain ⟨s₁, hs₁, ht, hl⟩ := transErr_cases hs
  have hnext := next_of_close hs₁
  refine ⟨?_, ?_, ?_, ?_, ?_, ?_⟩
  · rw [ht]; simp
  · rw [ht, hl]; simp [hnext]
  · rw [ht]; simp
  · rw [ht, hl, Ledger.next_malloc, hnext]
    exact fun p hp => Nat.lt_succ_of_lt (h.connection_lt p hp)
  · rw [ht]; exact fun h => absurd (show (1 : UInt8) = 0 from h) (by decide)
  · rw [ht]; exact fun h => absurd (show (1 : UInt8) = 0 from h) (by decide)

/-- An instance goes on owning its blocks. -/
theorem Owned.call (h : s.Owned) {c : TransmissionCall} {r : CallReply}
    (hs : s.call c = some (r, s')) : s'.Owned := by
  cases call_cases hs with
  | refused hc hs => exact h.transErr hs
  | transmitted hc => exact ⟨h.1, h.2, h.3, h.4, h.5, h.6⟩
  | nothingReceived hc => exact ⟨h.1, h.2, h.3, h.4, h.5, h.6⟩
  | received hc hl =>
    rename_i n size stored l
    have hnext : l.next = s.ledger.next := congrArg List.length (Ledger.blocks_of_free hl)
    refine ⟨?_, ?_, ?_, ?_, h.connection_eq, h.lt_chunkSize⟩
    · rintro p ⟨⟩
      exact Ledger.live_malloc_next
    · intro p hp
      rw [Ledger.next_malloc, hnext]
      exact Nat.lt_succ_of_lt (h.errMsg_lt p hp)
    · rintro p ⟨⟩ herr
      have := h.errMsg_lt _ herr
      omega
    · intro p hp
      rw [Ledger.next_malloc, hnext]
      exact Nat.lt_succ_of_lt (h.connection_lt p hp)
  | asked => exact h
  | closed hs => exact h.close hs

end Owned

/-! ### The functions on contents -/

section View

variable {s s' : HeapState}

/-- A block that is allocated for a message. -/
theorem msgBlockAt_malloc (l : Ledger) (size : ℕ) (text : CString) :
    msgBlockAt (l.malloc size (text.bytes ++ [0])) (some l.next) = some ⟨size, text, false⟩ := by
  simp [msgBlockAt, CString.ofMemory_append_zero, Ledger.next_notMem_released]

/-- A message stays where it is when a block is allocated. -/
theorem msgBlockAt_malloc_of_lt {l : Ledger} {pointer : Option ℕ}
    (hlt : ∀ p ∈ pointer, p < l.next) (size : ℕ) (stored : List UInt8) :
    msgBlockAt (l.malloc size stored) pointer = msgBlockAt l pointer := by
  refine Option.bind_congr fun p hp => ?_
  rw [Ledger.getElem?_malloc_of_lt (hlt p hp), Ledger.released_malloc]

/-- So does the message of a connection. -/
theorem connAt_malloc {l : Ledger} {c : RawConn} (hlt : ∀ p ∈ c.errorMsg, p < l.next) (size : ℕ)
    (stored : List UInt8) : connAt (l.malloc size stored) c = connAt l c := by
  refine (Conn.mk.injEq ..).mpr ⟨rfl, Option.bind_congr fun p hp => ?_, rfl, rfl⟩
  rw [Ledger.getElem?_malloc_of_lt (hlt p hp)]

theorem connAt_congr {l l' : Ledger} (hblocks : l'.blocks = l.blocks) (c : RawConn) :
    connAt l' c = connAt l c := by
  simp only [connAt, hblocks]

theorem view_init (ledger : Ledger) (chunkSize : UInt16) (connection : Conn) (data : Option Mem)
    (size : UInt64) : (init ledger chunkSize connection data size).view =
      initTransmission chunkSize connection data size := by
  have hmessage : (if connection.error ≠ 0 then connection.errorMsg else none) =
      if connection.error ≠ 0 ∧ connection.errorMsg ≠ none then connection.errorMsg else none := by
    by_cases herror : connection.error = 0
    · simp [herror]
    · by_cases hnone : connection.errorMsg = none <;> simp [herror, hnone]
  have herrored : (if connection.error ≠ 0 then connection.errorMsg else none) ≠ none ↔
      connection.error ≠ 0 ∧ connection.errorMsg ≠ none := by
    rw [ne_eq, ite_eq_right_iff]
    exact Classical.not_imp
  let d := data.map fun m => (⟨size.toNat, window m 0 size.toNat⟩ : Block)
  let m := (if connection.error ≠ 0 then connection.errorMsg else none).map fun text =>
    stringBlock (text.strlen + 1) text
  let e := if chunkSize.toUInt32 ≤ serializedSizeWithoutData then
    some (stringBlock 50 (lit "Chunk size too small for transmission.")) else none
  let l := ((ledger.place d).2.place m).2
  have hlast : ∀ p < l.next, (l.place e).2.blocks[p]? = l.blocks[p]? :=
    fun p hp => Ledger.getElem?_place_of_lt hp e
  have hd : ((ledger.place d).1.bind fun p => (l.place e).2.blocks[p]?) = d :=
    Ledger.bind_getElem?_place d fun p hp => by
      rw [hlast p (Ledger.lt_next_place hp m), Ledger.getElem?_place_of_lt hp]
  have hm : (((ledger.place d).2.place m).1.bind fun p => (l.place e).2.blocks[p]?) = m :=
    Ledger.bind_getElem?_place m hlast
  have he : ((l.place e).1.bind fun p => (l.place e).2.blocks[p]?) = e :=
    Ledger.bind_getElem?_place e fun _ _ => rfl
  refine (Transmission.mk.injEq ..).mpr ⟨?_, rfl, ?_, ?_, rfl, rfl, rfl, ?_, rfl, rfl⟩
  · have hview := congrArg (Option.map Block.stored) hd
    rw [Option.map_bind] at hview
    refine hview.trans ?_
    simp only [d, Option.map_map]
    rfl
  · simp only [init, herrored]
  · change msgBlockAt (l.place e).2 (l.place e).1 = _
    by_cases hsmall : chunkSize.toUInt32 ≤ serializedSizeWithoutData
    · simp only [e, if_pos hsmall]
      exact msgBlockAt_malloc l 50 _
    · simp only [e, if_neg hsmall]
      rfl
  · have hview := congrArg (Option.map fun b => CString.ofMemory b.stored) hm
    rw [Option.map_bind] at hview
    refine (Conn.mk.injEq ..).mpr ⟨rfl, hview.trans ?_, rfl, rfl⟩
    simp only [m, Option.map_map, ← hmessage, Function.comp_def, stringBlock,
      CString.ofMemory_append_zero, Option.map_id']

/-- Giving back the data. -/
theorem Owned.free_data (h : s.Owned) : ∃ l, s.ledger.free s.t.data = some l ∧
    l.blocks = s.ledger.blocks ∧
    ∀ p, s.t.errMsg = some p → (p ∈ l.released ↔ p ∈ s.ledger.released) := by
  cases hdata : s.t.data with
  | none => exact ⟨s.ledger, rfl, rfl, fun _ _ => Iff.rfl⟩
  | some q =>
    have hlive := h.data_live q hdata
    refine ⟨_, Ledger.free_some hlive, rfl, fun p hp => ?_⟩
    have hne : p ≠ q := by
      rintro rfl
      exact h.data_ne p hdata hp
    simp [Ledger.release, hne]

/-- The message is not touched. -/
theorem msgBlockAt_of_released {l : Ledger} (hblocks : l.blocks = s.ledger.blocks)
    (hreleased : ∀ p, s.t.errMsg = some p → (p ∈ l.released ↔ p ∈ s.ledger.released)) :
    msgBlockAt l s.t.errMsg = s.view.errMsg := by
  refine Option.bind_congr fun p hp => ?_
  simp only [hblocks, hreleased p hp]

/-- A closed instance. -/
theorem view_closed {l : Ledger} (hblocks : l.blocks = s.ledger.blocks)
    (hs' : s' = ⟨{ s.t with data := none, isOpen := 0, bytes := 0 }, l⟩) :
    s'.view = { s.view with
      data := none, isOpen := 0, bytes := 0, errMsg := msgBlockAt l s.t.errMsg } := by
  subst hs'
  simp only [view, connAt_congr hblocks, Option.bind_none]

theorem any_freed_msgBlockAt (l : Ledger) (p : ℕ) :
    (msgBlockAt l (some p)).any MsgBlock.freed = true ↔ p ∈ l.released := by
  by_cases hp : p < l.blocks.length
  · simp [msgBlockAt, hp]
  · have hmem : p ∉ l.released := fun hmem => hp (l.released_lt p hmem)
    simp [msgBlockAt, hp, hmem]

/-- A message that is freed. -/
theorem msgBlockAt_release {l : Ledger} {p : ℕ} (hp : l.Live p) :
    msgBlockAt (l.release p hp) (some p) =
      (msgBlockAt l (some p)).map fun b => { b with freed := true } := by
  simp [msgBlockAt, Ledger.release, Option.map_map, Function.comp_def]

/-- `close_transmission` on contents. -/
theorem map_view_close (h : s.Owned) : s.close.map view = closeTransmission s.view := by
  obtain ⟨l, hl, hblocks, hreleased⟩ := h.free_data
  have herrView : s.view.error = s.t.error := rfl
  have hmessage := msgBlockAt_of_released hblocks hreleased
  rw [close, hl, Option.bind_some, closeTransmission, herrView, Option.map_map]
  by_cases herror : s.t.error = 0
  · rw [if_neg (not_not.mpr herror), if_neg fun h => h.1 herror, Option.map_some]
    refine congrArg some ((view_closed hblocks rfl).trans ?_)
    rw [hmessage, Transmission.close, herrView, if_neg (not_not.mpr herror)]
    rfl
  · rw [if_pos herror]
    cases hptr : s.t.errMsg with
    | none =>
      have hnone : s.view.errMsg = none := by rw [view, hptr]; rfl
      rw [hnone, if_neg (by simp), Ledger.free, Option.map_some]
      refine congrArg some ((view_closed hblocks rfl).trans ?_)
      rw [hmessage, Transmission.close, hnone, herrView, if_pos herror, Option.map_none]
      rfl
    | some p =>
      have hview : s.view.errMsg = msgBlockAt s.ledger (some p) := by rw [view, hptr]
      by_cases hmem : p ∈ s.ledger.released
      · have hdead : ¬ l.Live p := fun hlive => hlive.2 ((hreleased p hptr).mpr hmem)
        rw [Ledger.free_eq_none_iff.mpr hdead, hview,
          if_pos ⟨herror, (any_freed_msgBlockAt _ _).mpr hmem⟩, Option.map_none]
      · have hlive : l.Live p := by
          refine ⟨?_, fun hin => hmem ((hreleased p hptr).mp hin)⟩
          rw [Ledger.next, hblocks]
          exact h.errMsg_lt p hptr
        have hfreed : ¬ (s.t.error ≠ 0 ∧ s.view.errMsg.any MsgBlock.freed = true) := by
          rw [hview, any_freed_msgBlockAt]
          exact fun h => hmem h.2
        rw [Ledger.free_some hlive, if_neg hfreed, Option.map_some]
        have hblocks' : (l.release p hlive).blocks = s.ledger.blocks := hblocks
        refine congrArg some ((view_closed hblocks' rfl).trans ?_)
        rw [hptr, msgBlockAt_release, ← hptr, hmessage, Transmission.close, herrView, if_pos herror]
        rfl

theorem eq_close_of_closeTransmission {t t' : Transmission} (h : closeTransmission t = some t') :
    t' = t.close := by
  rw [closeTransmission] at h
  split_ifs at h
  exact (Option.some.inj h).symm

theorem view_of_close (h : s.Owned) (hs : s.close = some s') : s'.view = s.view.close := by
  have hview := map_view_close h
  rw [hs, Option.map_some] at hview
  exact eq_close_of_closeTransmission hview.symm

/-- `TRANS_ERR` on contents. -/
theorem view_of_transErr (h : s.Owned) {err : CString} (hs : s.transErr err = some s') :
    s'.view = s.view.transErr err := by
  obtain ⟨s₁, hs₁, rfl⟩ := Option.map_eq_some_iff.mp hs
  have hnone : s₁.t.data = none := by rw [t_of_close hs₁]
  rw [Transmission.transErr, ← view_of_close h hs₁]
  refine (Transmission.mk.injEq ..).mpr ⟨?_, rfl, rfl, ?_, rfl, rfl, rfl, ?_, rfl, rfl⟩
  · simp only [view, hnone, Option.bind_none]
  · exact msgBlockAt_malloc s₁.ledger _ err
  · exact connAt_malloc (h.close hs₁).connection_lt _ _

theorem map_view_transErr (h : s.Owned) (err : CString) : (s.transErr err).map view =
    (closeTransmission s.view).map fun _ => s.view.transErr err := by
  rw [← map_view_close h, Option.map_map]
  cases hs : s.transErr err with
  | none =>
    have hclose : s.close = none := Option.map_eq_none_iff.mp hs
    rw [hclose]
    rfl
  | some s' =>
    obtain ⟨s₁, hs₁, -⟩ := transErr_cases hs
    rw [hs₁, Option.map_some, Option.map_some, view_of_transErr h hs]
    rfl

/-- What is made of the instance that `TRANS_ERR` leaves. -/
theorem map_transErr {β : Type} (h : s.Owned) (err : CString) (g : Transmission → β) :
    ((s.transErr err).map fun s' => g s'.view) =
      (closeTransmission s.view).map fun _ => g (s.view.transErr err) := by
  have hview := congrArg (Option.map g) (map_view_transErr h err)
  rwa [Option.map_map, Option.map_map] at hview

/-- Without an error nothing is freed twice. -/
theorem closeTransmission_of_usable {used : Int16} (h : s.view.Usable used) :
    closeTransmission s.view = some s.view.close :=
  if_neg fun hcond => hcond.1 h.error_eq

theorem transmit_of_usable {t : Transmission} (h : t.Usable t.writeUsed) {data : List UInt8}
    (hdata : t.data = some data) (heap : SendHeap) : PekarDrive.transmit heap t =
      (true, { t with writeUsed := 1 }, transmitChunks heap t data) := by
  rw [PekarDrive.transmit, Transmission.refusal_eq_none_iff.mpr h]
  simp only [hdata]

/-- `transmit` on contents. A message is not freed twice. -/
theorem map_view_transmit (h : s.Owned) (heap : SendHeap) :
    ((s.transmit heap).map fun (b, s', ws) => (b, s'.view, ws)) =
      (closeTransmission s.view).map fun _ => PekarDrive.transmit heap s.view := by
  have hrefused : ∀ err : CString,
      (((s.transErr err).map fun s' => (false, s', ([] : List (List UInt8)))).map
        fun (b, s', ws) => (b, s'.view, ws)) =
      (closeTransmission s.view).map fun _ => (false, s.view.transErr err, []) := by
    intro err
    rw [Option.map_map]
    exact map_transErr h err fun t => (false, t, [])
  have hused : s.view.writeUsed = s.t.writeUsed := rfl
  rw [transmit]
  cases href : s.view.refusal s.t.writeUsed
    (lit "Transmission instance already used for writing.") with
  | some message =>
    rw [PekarDrive.transmit, hused, href]
    exact hrefused message
  | none =>
    have husable := Transmission.refusal_eq_none_iff.mp href
    cases hdata : s.t.data with
    | none =>
      have hnone : s.view.data = none := by simp only [view, hdata, Option.bind_none]
      rw [PekarDrive.transmit, hused, href]
      simp only [hnone]
      exact hrefused _
    | some p =>
      have hlive := h.data_live p hdata
      obtain ⟨data, hsome⟩ : ∃ data, s.view.data = some data := by
        simp only [view, hdata, Option.bind_some, Option.map_eq_some_iff]
        exact ⟨_, _, List.getElem?_eq_getElem hlive.1, rfl⟩
      have hload : (s.t.connection.load s.ledger).isSome := by
        rw [RawConn.load, h.connection_eq husable.error_eq]
        split <;> rfl
      have hchunk : s.t.chunkSize ≠ serializedSizeWithoutData :=
        (UInt32.ne_of_lt (h.lt_chunkSize husable.error_eq)).symm
      rw [closeTransmission_of_usable husable, Option.map_some,
        transmit_of_usable (hused ▸ husable) hsome heap]
      simp only [if_pos (And.intro hlive (And.intro hchunk hload)), hsome, Option.map_some]
      rw [← hsome]
      rfl

/-- `receive` on contents. -/
theorem map_view_receive (h : s.Owned) (fresh : ℕ → Mem) (reads : List (List UInt8)) :
    ((s.receive fresh reads).map fun (b, s', _) => (b, s'.view)) =
      (closeTransmission s.view).bind fun _ => PekarDrive.receive fresh reads s.view := by
  have hused : s.view.readUsed = s.t.readUsed := rfl
  rw [receive, PekarDrive.receive, hused]
  cases href : s.view.refusal s.t.readUsed
    (lit "Transmission instance already used for reading.") with
  | some message =>
    rw [Option.map_map]
    refine (map_transErr h message fun t => (false, t)).trans ?_
    cases closeTransmission s.view <;> rfl
  | none =>
    have husable := Transmission.refusal_eq_none_iff.mp href
    have hsize : s.view.chunkSize = s.t.chunkSize := rfl
    rw [closeTransmission_of_usable husable, Option.bind_some]
    simp only [hsize]
    cases receiveLoop s.t.chunkSize fresh reads 0 (window (fresh 0) 0 s.t.chunkSize.toNat) with
    | none => rfl
    | some outcome =>
      obtain ⟨i, more, buffer⟩ := outcome
      simp only
      by_cases hfirst : i = 1 ∧ more = false
      · simp only [if_pos hfirst]
        rfl
      · simp only [if_neg hfirst]
        cases trimPadding buffer (s.t.chunkSize * (if more then i else i - 1)).toNat with
        | none => rfl
        | some newSize =>
          obtain ⟨l, hl, hblocks, hreleased⟩ := h.free_data
          have hnext : l.next = s.ledger.next := congrArg List.length hblocks
          have hmessage := msgBlockAt_of_released hblocks hreleased
          simp only [hl, Option.map_some, Option.some.injEq, Prod.mk.injEq, true_and]
          refine (Transmission.mk.injEq ..).mpr ⟨?_, rfl, rfl, ?_, rfl, rfl, rfl, ?_, rfl, rfl⟩
          · simp only [Option.bind_some, Ledger.getElem?_malloc_next, Option.map_some]
          · refine (msgBlockAt_malloc_of_lt (fun p hp => ?_) _ _).trans hmessage
            rw [hnext]
            exact h.errMsg_lt p hp
          · refine (connAt_malloc (fun p hp => ?_) _ _).trans (connAt_congr hblocks _)
            rw [hnext]
            exact h.connection_lt p hp

end View

end HeapState

end PekarDrive
