import PekarDrive.Transmission.Chunks
import Mathlib.Data.List.DropRight

/-!
# What `receive` makes of its reads

`receive` gives every read a slot of one chunk. A read that delivers less than a chunk leaves the
rest of its slot as it was allocated, and the test for the end of the message looks at the last
byte of the slot. So a run on pieces of any size is the run on the slots that the pieces leave
(`PekarDrive.slots`), and on whole chunks the outcome is a function of the chunks
(`PekarDrive.present`): the chunks up to the first one that ends in the pad byte, without the
trailing run of pad bytes.

## Main definitions

* `PekarDrive.message`, `PekarDrive.readCalls`: the chunks that `receive` reads, and the number of
  calls of `conn_read`.
* `PekarDrive.slots`, `PekarDrive.present`.

## Main results

* `PekarDrive.receive_eq`: the outcome of `receive` for any pieces.
* `PekarDrive.receive_of_not_padded`: without a chunk that ends in the pad byte, all chunks are
  presented whole.
* `PekarDrive.receive_chunks`: the outcome for whole chunks.
-/

namespace PekarDrive

open CMemory CText

/-! ### Chunks up to the pad byte -/

/-- The last byte is the pad byte. -/
def endsPadded (w : List UInt8) : Bool := w.getLast? == some pad

/-- The chunks up to the first one that ends in the pad byte. -/
def message : List (List UInt8) → List (List UInt8)
  | [] => []
  | w :: ws => if endsPadded w then [w] else w :: message ws

/-- The number of calls of `conn_read`: the last one reads the chunk that ends in the pad byte, or
finds the end of the stream. -/
def readCalls : List (List UInt8) → ℕ
  | [] => 1
  | w :: ws => if endsPadded w then 1 else readCalls ws + 1

/-- A text without its trailing run of pad bytes. -/
def unpadded (bs : List UInt8) : List UInt8 := bs.rdropWhile (· == pad)

theorem endsPadded_iff {w : List UInt8} : endsPadded w = true ↔ w.getLast? = some pad := beq_iff_eq

theorem readCalls_pos (ws : List (List UInt8)) : 0 < readCalls ws := by
  cases ws with
  | nil => exact Nat.one_pos
  | cons w ws =>
    rw [readCalls]
    split <;> exact Nat.succ_pos _

theorem readCalls_eq (ws : List (List UInt8)) :
    readCalls ws = (message ws).length + if ws.any endsPadded then 0 else 1 := by
  induction ws with
  | nil => rfl
  | cons w ws ih =>
    rw [readCalls, message, List.any_cons]
    cases hw : endsPadded w with
    | true => simp
    | false =>
      simp only [Bool.false_eq_true, if_false, Bool.false_or, List.length_cons, ih]
      omega

theorem message_subset (ws : List (List UInt8)) : message ws ⊆ ws := by
  induction ws with
  | nil => exact List.Subset.refl _
  | cons w ws ih =>
    rw [message]
    split
    · exact List.cons_subset_cons w (List.nil_subset ws)
    · exact List.cons_subset_cons w ih

theorem length_flatten_of_length_eq {c : ℕ} {ws : List (List UInt8)}
    (hws : ∀ w ∈ ws, w.length = c) : ws.flatten.length = ws.length * c := by
  rw [List.length_flatten, List.map_congr_left hws, List.map_const', List.sum_replicate_nat]

/-- `trim_padding` finds the length without the trailing run of pad bytes, if a byte is left. -/
theorem trimPadding_eq {buffer : List UInt8} {n : ℕ} (hn : n ≤ buffer.length) :
    trimPadding buffer n =
      if ∃ b ∈ buffer.take n, b ≠ pad then some (unpadded (buffer.take n)).length else none := by
  induction n with
  | zero => simp [trimPadding]
  | succ n ih =>
    have htake : buffer.take (n + 1) = buffer.take n ++ [buffer[n]] :=
      List.take_succ_eq_append_getElem hn
    rw [trimPadding, List.getElem?_eq_getElem hn, htake, unpadded]
    by_cases hpad : buffer[n] = pad
    · have hmem : (∃ b ∈ buffer.take n ++ [buffer[n]], b ≠ pad) ↔ ∃ b ∈ buffer.take n, b ≠ pad := by
        simp [hpad]
      simp only [hpad, ne_eq, not_true_eq_false, if_false]
      rw [ih (Nat.le_of_succ_le hn), List.rdropWhile_concat_pos _ _ _ (by simp)]
      simp only [hpad] at hmem
      simp only [hmem, unpadded]
    · have hmem : ∃ b ∈ buffer.take n ++ [buffer[n]], b ≠ pad :=
        ⟨buffer[n], List.mem_append_right _ (List.mem_singleton_self _), hpad⟩
      simp only [ne_eq, hpad, not_false_eq_true, if_true, if_pos hmem]
      rw [List.rdropWhile_concat_neg _ _ _ (by simpa using hpad), List.length_append,
        List.length_take_of_le (Nat.le_of_succ_le hn), List.length_singleton]

theorem trimPadding_of_length_lt {buffer : List UInt8} {n : ℕ} (hn : buffer.length < n) :
    trimPadding buffer n = none := by
  obtain ⟨k, rfl⟩ := Nat.exists_eq_add_of_le' (Nat.one_le_of_lt hn)
  rw [trimPadding, List.getElem?_eq_none (by omega)]

/-- The bytes that are left are the first ones. -/
theorem take_length_unpadded (bs behind : List UInt8) :
    (bs ++ behind).take (unpadded bs).length = unpadded bs := by
  have hprefix : unpadded bs <+: bs := List.rdropWhile_prefix _ bs
  rw [List.take_append_of_le_length hprefix.length_le]
  exact (List.prefix_iff_eq_take.mp hprefix).symm

/-! ### The slots of the reads -/

/-- What a piece leaves in the slot with the number `i`, where the memory `m` was. -/
def slot (c : ℕ) (m : Mem) (i : ℕ) (p : List UInt8) : List UInt8 :=
  p ++ window m (i * c + p.length) (c - p.length)

/-- What the reads from the `i`-th one on leave in their slots. -/
def slots (c : ℕ) (fresh : ℕ → Mem) : ℕ → List (List UInt8) → List (List UInt8)
  | _, [] => []
  | i, p :: ps => slot c (fresh i) i p :: slots c fresh (i + 1) ps

/-- What `receive` leaves behind on chunks that fill their slots. -/
def present (t : Transmission) (ws : List (List UInt8)) : Option (Bool × Transmission) :=
  let received := (message ws).flatten
  if readCalls ws * t.chunkSize.toNat < 2 ^ 32 ∧ ∃ b ∈ received, b ≠ pad then
    some (true, { t with
      readUsed := 1
      data := some (unpadded received)
      bytes := UInt64.ofNat (unpadded received).length })
  else none

section Slots

variable {c : ℕ} (fresh : ℕ → Mem)

theorem length_slot {p : List UInt8} (hp : p.length ≤ c) (m : Mem) (i : ℕ) :
    (slot c m i p).length = c := by
  rw [slot, List.length_append, length_window]
  omega

theorem slot_of_length_eq {p : List UInt8} (hp : p.length = c) (m : Mem) (i : ℕ) :
    slot c m i p = p := by
  rw [slot, hp, Nat.sub_self, window_zero, List.append_nil]

/-- A piece and what was behind it in its slot. -/
theorem append_drop_window {p : List UInt8} (hp : p.length ≤ c) (m : Mem) (i : ℕ) :
    p ++ (window m (i * c) c).drop p.length = slot c m i p := by
  obtain ⟨k, hk⟩ := Nat.exists_eq_add_of_le hp
  have hsub : c - p.length = k := by omega
  have hsplit :
      window m (i * c) c = window m (i * c) p.length ++ window m (i * c + p.length) k := by
    rw [← window_add, ← hk]
  rw [slot, hsub, hsplit, List.drop_append, length_window, Nat.sub_self, List.drop_zero,
    List.drop_of_length_le (length_window _ _ _).le, List.nil_append]

theorem length_of_mem_slots {ps : List (List UInt8)} (hps : ∀ p ∈ ps, p.length ≤ c) (i : ℕ) :
    ∀ w ∈ slots c fresh i ps, w.length = c := by
  induction ps generalizing i with
  | nil => exact fun w hw => absurd hw List.not_mem_nil
  | cons p ps ih =>
    obtain ⟨hp, hps⟩ := List.forall_mem_cons.mp hps
    rw [slots, List.forall_mem_cons]
    exact ⟨length_slot hp (fresh i) i, ih hps (i + 1)⟩

end Slots

/-! ### The loop -/

/-- A piece is stored behind what the buffer starts with. -/
theorem store_append {bs tail piece : List UInt8} {off : ℕ} (hoff : bs.length = off)
    (hpiece : piece.length ≤ tail.length) :
    store (bs ++ tail) off piece = some (bs ++ (piece ++ tail.drop piece.length)) := by
  subst hoff
  rw [store, if_pos (by rw [List.length_append]; omega), List.take_left, List.append_assoc,
    List.drop_append, List.drop_of_length_le (Nat.le_add_right _ _), Nat.add_sub_cancel_left,
    List.nil_append]

/-- The test for the end of the message looks at the last byte of the slot. -/
theorem containsPadding_append {bs w : List UInt8} {n : UInt32} (hw : w ≠ [])
    (hn : n.toNat = bs.length + w.length) : containsPadding (bs ++ w) n = some (endsPadded w) := by
  have hpos : 0 < w.length := List.length_pos_iff.mpr hw
  have hone : (1 : UInt32) ≤ n := by
    rw [UInt32.le_iff_toNat_le, hn, UInt32.toNat_one]
    omega
  have hindex : (n - 1).toNat = bs.length + (w.length - 1) := by
    rw [UInt32.toNat_sub_of_le _ _ hone, hn, UInt32.toNat_one]
    omega
  rw [containsPadding, hindex, List.getElem?_append_right (Nat.le_add_right _ _),
    Nat.add_sub_cancel_left, ← List.getLast?_eq_getElem?, endsPadded,
    List.getLast?_eq_some_getLast hw]
  simp

/-- Growing a buffer by one slot. -/
theorem realloc_slot (m : Mem) {bs : List UInt8} {c i : ℕ} (hbs : bs.length = i * c) :
    realloc m bs ((i + 1) * c) = bs ++ window m (i * c) c := by
  have hmul : (i + 1) * c = i * c + c := Nat.succ_mul i c
  rw [realloc, hbs, hmul, Nat.add_sub_cancel_left, List.take_of_length_le (by omega)]

section Loop

variable {c : UInt32} (fresh : ℕ → Mem)

/-- One iteration, with `i` slots filled. -/
theorem receiveLoop_cons (hc : 0 < c.toNat) {p : List UInt8} {ps : List (List UInt8)}
    (hne : p ≠ []) (hle : p.length ≤ c.toNat) {i : ℕ} {bs : List UInt8}
    (hbs : bs.length = i * c.toNat) (hi : (i + 1) * c.toNat < 2 ^ 32) :
    receiveLoop c fresh (p :: ps) (UInt32.ofNat i) (bs ++ window (fresh i) (i * c.toNat) c.toNat) =
      if endsPadded (slot c.toNat (fresh i) i p) then
        some (UInt32.ofNat (i + 1), true, bs ++ slot c.toNat (fresh i) i p)
      else
        receiveLoop c fresh ps (UInt32.ofNat (i + 1)) (realloc (fresh (i + 1))
          (bs ++ slot c.toNat (fresh i) i p) ((i + 1 + 1) * c.toNat % 2 ^ 32)) := by
  have hslot := length_slot hle (fresh i) i
  have hmul : (i + 1) * c.toNat = i * c.toNat + c.toNat := Nat.succ_mul i c.toNat
  have hoff : (UInt32.ofNat i * c).toNat = i * c.toNat := by
    rw [toNat_ofNat_mul, Nat.mod_eq_of_lt (by omega)]
  have hend : (UInt32.ofNat (i + 1) * c).toNat =
      bs.length + (slot c.toNat (fresh i) i p).length := by
    rw [toNat_ofNat_mul, Nat.mod_eq_of_lt hi, hbs, hslot, hmul]
  have hindex : (UInt32.ofNat (i + 1)).toNat = i + 1 := by
    have := Nat.le_mul_of_pos_right (i + 1) hc
    exact toNat_counter (by omega)
  have hstore : store (bs ++ window (fresh i) (i * c.toNat) c.toNat) (i * c.toNat) p =
      some (bs ++ slot c.toNat (fresh i) i p) := by
    rw [store_append hbs (by rwa [length_window]), append_drop_window hle]
  have hnil : slot c.toNat (fresh i) i p ≠ [] := List.ne_nil_of_length_pos (by omega)
  rw [receiveLoop, if_neg hne, hoff, hstore]
  simp only [counter_add_one, containsPadding_append hnil hend, hindex, toNat_ofNat_mul]
  cases endsPadded (slot c.toNat (fresh i) i p) <;> rfl

/-- A buffer that is shorter than the slots filled so far, since its size has gone round. -/
theorem receiveLoop_of_short {ps : List (List UInt8)} (hps : ∀ p ∈ ps, p ≠ []) {i : ℕ}
    {buffer : List UInt8} (hi : i * c.toNat < 2 ^ 32) (hshort : buffer.length < i * c.toNat) :
    receiveLoop c fresh ps (UInt32.ofNat i) buffer = none ∨
      receiveLoop c fresh ps (UInt32.ofNat i) buffer =
        some (UInt32.ofNat (i + 1), false, buffer) := by
  cases ps with
  | nil =>
    right
    rw [receiveLoop, UInt32.ofNat_add]
    rfl
  | cons p ps =>
    left
    have hoff : (UInt32.ofNat i * c).toNat = i * c.toNat := by
      rw [toNat_ofNat_mul, Nat.mod_eq_of_lt hi]
    rw [receiveLoop, if_neg (hps p List.mem_cons_self), hoff, store, if_neg (by omega)]

/-- **The loop.** With `i` slots filled, it ends behind the message. When a size goes round on the
way, it leaves its buffer, or ends with a buffer that is too short. -/
theorem receiveLoop_eq (hc : 0 < c.toNat) {ps : List (List UInt8)}
    (hps : ∀ p ∈ ps, p ≠ [] ∧ p.length ≤ c.toNat) {i : ℕ} {bs : List UInt8}
    (hbs : bs.length = i * c.toNat) (hi : (i + 1) * c.toNat < 2 ^ 32) :
    let ws := slots c.toNat fresh i ps
    let outcome := receiveLoop c fresh ps (UInt32.ofNat i)
      (bs ++ window (fresh i) (i * c.toNat) c.toNat)
    ((i + readCalls ws) * c.toNat < 2 ^ 32 → ∃ behind,
      outcome = some (UInt32.ofNat (i + readCalls ws), ws.any endsPadded,
        bs ++ (message ws).flatten ++ behind)) ∧
    (2 ^ 32 ≤ (i + readCalls ws) * c.toNat → outcome = none ∨ ∃ n buffer,
      outcome = some (UInt32.ofNat (n + 1), false, buffer) ∧ 0 < n ∧ n * c.toNat < 2 ^ 32 ∧
        buffer.length < n * c.toNat) := by
  induction ps generalizing i bs with
  | nil =>
    refine ⟨fun _ => ⟨window (fresh i) (i * c.toNat) c.toNat, ?_⟩, fun h => ?_⟩
    · rw [receiveLoop, slots, readCalls, message, UInt32.ofNat_add, List.flatten_nil,
        List.append_nil]
      rfl
    · rw [slots, readCalls] at h
      omega
  | cons p ps ih =>
    obtain ⟨⟨hne, hle⟩, hps⟩ := List.forall_mem_cons.mp hps
    rw [receiveLoop_cons fresh hc hne hle hbs hi]
    simp only [slots, readCalls, message, List.any_cons]
    cases hpad : endsPadded (slot c.toNat (fresh i) i p) with
    | true =>
      simp only [if_true, Bool.true_or, List.flatten_singleton]
      exact ⟨fun _ => ⟨[], by rw [List.append_nil]⟩, fun h => absurd hi (by omega)⟩
    | false =>
      have hcount : i + (readCalls (slots c.toNat fresh (i + 1) ps) + 1) =
          i + 1 + readCalls (slots c.toNat fresh (i + 1) ps) := by omega
      have hlen : (bs ++ slot c.toNat (fresh i) i p).length = (i + 1) * c.toNat := by
        rw [List.length_append, hbs, length_slot hle, Nat.succ_mul]
      simp only [Bool.false_eq_true, if_false, Bool.false_or, List.flatten_cons, hcount]
      rcases Nat.lt_or_ge ((i + 1 + 1) * c.toNat) (2 ^ 32) with hnext | hround
      · rw [Nat.mod_eq_of_lt hnext, realloc_slot _ hlen]
        simpa only [List.append_assoc] using ih hps hlen hnext
      · -- the size of the buffer goes round
        have hmul : (i + 1 + 1) * c.toNat = (i + 1) * c.toNat + c.toNat := Nat.succ_mul _ _
        have hpos : c.toNat ≤ (i + 1) * c.toNat := Nat.le_mul_of_pos_left _ (Nat.succ_pos i)
        have hcalls : (i + 1 + 1) * c.toNat ≤
            (i + 1 + readCalls (slots c.toNat fresh (i + 1) ps)) * c.toNat := by
          exact Nat.mul_le_mul_right _ (Nat.add_le_add_left (readCalls_pos _) _)
        refine ⟨fun h => absurd h (by omega), fun _ => ?_⟩
        have hshort : (realloc (fresh (i + 1)) (bs ++ slot c.toNat (fresh i) i p)
            ((i + 1 + 1) * c.toNat % 2 ^ 32)).length < (i + 1) * c.toNat := by
          rw [length_realloc]
          omega
        rcases receiveLoop_of_short fresh (fun p hp => (hps p hp).1) hi hshort with h | h
        · exact .inl h
        · exact .inr ⟨i + 1, _, h, Nat.succ_pos i, hi, hshort⟩

end Loop

/-! ### The outcome -/

/-- The pieces that arrive before a read that delivers nothing. -/
def delivered (reads : List (List UInt8)) : List (List UInt8) :=
  reads.takeWhile fun p => decide (p ≠ [])

/-- The number of calls of `conn_read`. -/
def receiveCalls (fresh : ℕ → Mem) (reads : List (List UInt8)) (t : Transmission) : Option ℕ :=
  match t.refusal t.readUsed (lit "Transmission instance already used for reading.") with
  | some _ => some 0
  | none => (receiveLoop t.chunkSize fresh reads 0 (window (fresh 0) 0 t.chunkSize.toNat)).map
      fun outcome => outcome.1.toNat

theorem mem_delivered {reads : List (List UInt8)} {p : List UInt8} (hp : p ∈ delivered reads) :
    p ∈ reads ∧ p ≠ [] := by
  refine ⟨(List.takeWhile_sublist _).subset hp, ?_⟩
  simpa using List.mem_takeWhile_imp (show p ∈ reads.takeWhile fun p => decide (p ≠ []) from hp)

theorem delivered_eq_self {ps : List (List UInt8)} (hps : ∀ p ∈ ps, p ≠ []) : delivered ps = ps :=
  List.takeWhile_eq_self_iff.mpr fun p hp => decide_eq_true (hps p hp)

/-- What lies behind a read that delivers nothing is not read. -/
theorem receiveLoop_delivered (c : UInt32) (fresh : ℕ → Mem) (reads : List (List UInt8))
    (i : UInt32) (buffer : List UInt8) :
    receiveLoop c fresh (delivered reads) i buffer = receiveLoop c fresh reads i buffer := by
  induction reads generalizing i buffer with
  | nil => rfl
  | cons p reads ih =>
    by_cases hp : p = []
    · rw [delivered, List.takeWhile_cons_of_neg (by simpa using hp), receiveLoop, receiveLoop,
        if_pos hp]
    · have hcons : delivered (p :: reads) = p :: delivered reads :=
        List.takeWhile_cons_of_pos (by simpa using hp)
      rw [hcons, receiveLoop, receiveLoop, if_neg hp, if_neg hp]
      cases store buffer (i * c).toNat p with
      | none => rfl
      | some buffer =>
        simp only
        cases containsPadding buffer ((i + 1) * c) with
        | none => rfl
        | some padded =>
          cases padded with
          | true => rfl
          | false => exact ih _ _

section Outcome

variable (fresh : ℕ → Mem) {t : Transmission} {reads : List (List UInt8)}

/-- Nothing is delivered. -/
theorem receive_of_delivered_nil (ht : ∀ usedMessage, t.refusal t.readUsed usedMessage = none)
    (hnil : delivered reads = []) :
    receive fresh reads t = some (false, { t with readUsed := 1 }) := by
  have hloop := receiveLoop_delivered t.chunkSize fresh reads 0
    (window (fresh 0) 0 t.chunkSize.toNat)
  rw [hnil, receiveLoop] at hloop
  rw [receive, ht]
  simp only [← hloop]
  rfl

/-- What follows the loop. -/
theorem receive_of_loop (ht : ∀ usedMessage, t.refusal t.readUsed usedMessage = none) {i : UInt32}
    {more : Bool} {buffer : List UInt8}
    (hloop : receiveLoop t.chunkSize fresh reads 0 (window (fresh 0) 0 t.chunkSize.toNat) =
      some (i, more, buffer)) (hfirst : ¬ (i = 1 ∧ more = false)) :
    receive fresh reads t =
      (trimPadding buffer (t.chunkSize * (if more then i else i - 1)).toNat).map fun newSize =>
        (true, { t with
          readUsed := 1
          data := some (buffer.take newSize)
          bytes := UInt64.ofNat newSize }) := by
  rw [receive, ht]
  simp only [hloop, if_neg hfirst]
  cases trimPadding buffer (t.chunkSize * (if more then i else i - 1)).toNat <;> rfl

/-- The counter does not show a first read that delivered nothing. -/
theorem ofNat_readCalls_ne {ws : List (List UInt8)} (hne : ws ≠ [])
    (hcount : readCalls ws < 2 ^ 32) :
    ¬ (UInt32.ofNat (readCalls ws) = 1 ∧ ws.any endsPadded = false) := by
  rintro ⟨hone, hnot⟩
  have hmessage : 0 < (message ws).length := by
    obtain ⟨w, ws, rfl⟩ := List.exists_cons_of_ne_nil hne
    rw [message]
    split <;> exact Nat.succ_pos _
  have hcalls := readCalls_eq ws
  have hnat := congrArg UInt32.toNat hone
  rw [toNat_counter hcount, UInt32.toNat_one] at hnat
  simp only [hnot, Bool.false_eq_true, if_false] at hcalls
  omega

/-- The length handed to `trim_padding` is that of the message. -/
theorem toNat_mul_stored {c : UInt32} {ws : List (List UInt8)}
    (hws : ∀ w ∈ ws, w.length = c.toNat) (hfits : readCalls ws * c.toNat < 2 ^ 32) :
    (c * (if ws.any endsPadded then UInt32.ofNat (readCalls ws)
      else UInt32.ofNat (readCalls ws) - 1)).toNat = (message ws).flatten.length := by
  have hcalls := readCalls_eq ws
  have hstored : (if ws.any endsPadded then UInt32.ofNat (readCalls ws)
      else UInt32.ofNat (readCalls ws) - 1) = UInt32.ofNat (message ws).length := by
    rw [hcalls]
    split
    · rfl
    · rw [UInt32.ofNat_add]
      exact UInt32.add_sub_cancel _ _
  have hle : (message ws).length * c.toNat ≤ readCalls ws * c.toNat :=
    Nat.mul_le_mul_right _ (hcalls ▸ Nat.le_add_right _ _)
  rw [hstored, UInt32.mul_comm, toNat_ofNat_mul, Nat.mod_eq_of_lt (by omega),
    length_flatten_of_length_eq fun w hw => hws w (message_subset ws hw)]

variable (hlen : ∀ p ∈ reads, p.length ≤ t.chunkSize.toNat) (hc : 0 < t.chunkSize.toNat)

include hlen hc

/-- The loop of `receive` from its start. -/
theorem receiveLoop_zero :
    let ws := slots t.chunkSize.toNat fresh 0 (delivered reads)
    let outcome := receiveLoop t.chunkSize fresh reads 0 (window (fresh 0) 0 t.chunkSize.toNat)
    (readCalls ws * t.chunkSize.toNat < 2 ^ 32 → ∃ behind, outcome =
      some (UInt32.ofNat (readCalls ws), ws.any endsPadded, (message ws).flatten ++ behind)) ∧
    (2 ^ 32 ≤ readCalls ws * t.chunkSize.toNat → outcome = none ∨ ∃ n buffer,
      outcome = some (UInt32.ofNat (n + 1), false, buffer) ∧ 0 < n ∧
        n * t.chunkSize.toNat < 2 ^ 32 ∧ buffer.length < n * t.chunkSize.toNat) := by
  have hpieces : ∀ p ∈ delivered reads, p ≠ [] ∧ p.length ≤ t.chunkSize.toNat := fun p hp =>
    ⟨(mem_delivered hp).2, hlen p (mem_delivered hp).1⟩
  have hstart : ([] : List UInt8).length = 0 * t.chunkSize.toNat := (Nat.zero_mul _).symm
  have hloop := receiveLoop_eq fresh hc hpieces hstart
    (by rw [Nat.zero_add, Nat.one_mul]; exact t.chunkSize.toNat_lt)
  simp only [receiveLoop_delivered, Nat.zero_add, Nat.zero_mul, List.nil_append] at hloop
  exact hloop

/-- **The outcome of `receive`.** -/
theorem receive_eq (ht : ∀ usedMessage, t.refusal t.readUsed usedMessage = none)
    (hne : delivered reads ≠ []) :
    receive fresh reads t = present t (slots t.chunkSize.toNat fresh 0 (delivered reads)) := by
  obtain ⟨hfits, hround⟩ := receiveLoop_zero fresh hlen hc
  have hpieces : ∀ p ∈ delivered reads, p.length ≤ t.chunkSize.toNat := fun p hp =>
    hlen p (mem_delivered hp).1
  have hws := length_of_mem_slots fresh hpieces 0
  have hnil : slots t.chunkSize.toNat fresh 0 (delivered reads) ≠ [] := by
    obtain ⟨p, ps, hps⟩ := List.exists_cons_of_ne_nil hne
    rw [hps, slots]
    exact List.cons_ne_nil _ _
  generalize slots t.chunkSize.toNat fresh 0 (delivered reads) = ws at *
  rw [present]
  rcases Nat.lt_or_ge (readCalls ws * t.chunkSize.toNat) (2 ^ 32) with hlt | hge
  · obtain ⟨behind, hloop⟩ := hfits hlt
    have hcount : readCalls ws < 2 ^ 32 := lt_of_le_of_lt (Nat.le_mul_of_pos_right _ hc) hlt
    rw [receive_of_loop fresh ht hloop (ofNat_readCalls_ne hnil hcount),
      toNat_mul_stored hws hlt, trimPadding_eq (by rw [List.length_append]; omega), List.take_left]
    by_cases hpad : ∃ b ∈ (message ws).flatten, b ≠ pad
    · rw [if_pos hpad, if_pos ⟨hlt, hpad⟩, Option.map_some, take_length_unpadded]
    · rw [if_neg hpad, if_neg fun h => hpad h.2, Option.map_none]
  · rw [if_neg fun h => absurd h.1 (by omega)]
    rcases hround hge with hnone | ⟨n, buffer, hloop, hn, hsize, hshort⟩
    · rw [receive, ht]
      simp only [hnone]
    · have hn32 : n < 2 ^ 32 := lt_of_le_of_lt (Nat.le_mul_of_pos_right _ hc) hsize
      have hfirst : ¬ (UInt32.ofNat (n + 1) = 1 ∧ false = false) := fun h => by
        have := congrArg UInt32.toNat h.1
        rw [UInt32.toNat_ofNat', UInt32.toNat_one] at this
        omega
      have hpred : UInt32.ofNat (n + 1) - 1 = UInt32.ofNat n := by
        rw [UInt32.ofNat_add]
        exact UInt32.add_sub_cancel _ _
      rw [receive_of_loop fresh ht hloop hfirst, if_neg Bool.false_ne_true, hpred, UInt32.mul_comm,
        toNat_ofNat_mul, Nat.mod_eq_of_lt hsize, trimPadding_of_length_lt hshort, Option.map_none]

end Outcome

/-! ### Whole chunks -/

/-- A message that ends in the first pad byte at the end of a chunk, or behind its last chunk. -/
theorem message_append {ws rest : List (List UInt8)} (hne : ws ≠ [])
    (hinit : ∀ w ∈ ws.dropLast, endsPadded w = false)
    (hend : endsPadded (ws.getLast hne) = true ∨ rest = []) :
    message (ws ++ rest) = ws ∧ readCalls (ws ++ rest) =
      if endsPadded (ws.getLast hne) then ws.length else ws.length + 1 := by
  induction ws with
  | nil => exact absurd rfl hne
  | cons w ws ih =>
    rw [List.cons_append, message, readCalls]
    cases ws with
    | nil =>
      rw [List.getLast_singleton] at hend ⊢
      cases hw : endsPadded w with
      | true => exact ⟨rfl, rfl⟩
      | false =>
        rw [hw] at hend
        obtain rfl : rest = [] := hend.resolve_left Bool.false_ne_true
        exact ⟨rfl, rfl⟩
    | cons w' ws =>
      rw [List.dropLast_cons_cons, List.forall_mem_cons] at hinit
      rw [List.getLast_cons (List.cons_ne_nil w' ws)] at hend ⊢
      obtain ⟨hmessage, hcalls⟩ := ih (List.cons_ne_nil w' ws) hinit.2 hend
      rw [hinit.1, hmessage, hcalls]
      refine ⟨rfl, ?_⟩
      simp only [Bool.false_eq_true, if_false, List.length_cons]
      split <;> rfl

theorem slots_append {c : ℕ} (fresh : ℕ → Mem) {ws : List (List UInt8)}
    (hws : ∀ w ∈ ws, w.length = c) (ps : List (List UInt8)) (i : ℕ) :
    slots c fresh i (ws ++ ps) = ws ++ slots c fresh (i + ws.length) ps := by
  induction ws generalizing i with
  | nil => rfl
  | cons w ws ih =>
    obtain ⟨hw, hws⟩ := List.forall_mem_cons.mp hws
    rw [List.cons_append, slots, slot_of_length_eq hw, ih hws, List.length_cons,
      List.cons_append, show i + 1 + ws.length = i + (ws.length + 1) by omega]

/-- A message whose last chunk does not end in the pad byte is kept whole. -/
theorem unpadded_flatten {ws : List (List UInt8)} (hne : ws ≠ []) (hnil : ws.getLast hne ≠ [])
    (hlast : endsPadded (ws.getLast hne) = false) : unpadded ws.flatten = ws.flatten := by
  have hsplit : ws.flatten = ws.dropLast.flatten ++ ws.getLast hne := by
    nth_rewrite 1 [← List.dropLast_append_getLast hne]
    rw [List.flatten_append, List.flatten_singleton]
  rw [unpadded, List.rdropWhile_eq_self_iff, hsplit]
  intro hflat
  rw [List.getLast_append_of_ne_nil hflat hnil]
  rw [endsPadded, List.getLast?_eq_some_getLast hnil] at hlast
  simpa using hlast

/-- **Chunks that do not end in the pad byte.** `receive` leaves its buffer, or presents all the
bytes of all the chunks. -/
theorem receive_of_not_padded {t : Transmission} {ws : List (List UInt8)}
    (ht : ∀ usedMessage, t.refusal t.readUsed usedMessage = none) (hc : 0 < t.chunkSize.toNat)
    (hne : ws ≠ []) (hws : ∀ w ∈ ws, w.length = t.chunkSize.toNat ∧ endsPadded w = false)
    (fresh : ℕ → Mem) : receive fresh ws t = none ∨ ∃ t', receive fresh ws t = some (true, t') ∧
      ws.length * t.chunkSize.toNat < 2 ^ 32 ∧
      t'.bytes = UInt64.ofNat (ws.length * t.chunkSize.toNat) := by
  have hlen : ∀ w ∈ ws, w.length = t.chunkSize.toNat := fun w hw => (hws w hw).1
  have hnil : ∀ w ∈ ws, w ≠ [] := fun w hw =>
    List.ne_nil_of_length_pos (by rw [hlen w hw]; exact hc)
  have hdelivered : delivered ws = ws := delivered_eq_self hnil
  have hslots : slots t.chunkSize.toNat fresh 0 ws = ws := by
    have happend := slots_append fresh hlen [] 0
    rwa [List.append_nil, slots, List.append_nil] at happend
  have hlast := hws _ (List.getLast_mem hne)
  obtain ⟨hmessage, hcalls⟩ := message_append hne
    (fun w hw => (hws w (List.dropLast_subset ws hw)).2)
    (show _ ∨ ([] : List (List UInt8)) = [] from .inr rfl)
  rw [List.append_nil] at hmessage hcalls
  rw [hlast.2, if_neg Bool.false_ne_true] at hcalls
  rw [receive_eq fresh (fun w hw => (hlen w hw).le) hc ht (by rwa [hdelivered]), hdelivered,
    hslots, present, hmessage, hcalls]
  split_ifs with hfits
  · refine .inr ⟨_, rfl, ?_, ?_⟩
    · exact lt_of_le_of_lt (Nat.mul_le_mul_right _ (Nat.le_succ _)) hfits.1
    · rw [unpadded_flatten hne (hnil _ (List.getLast_mem hne)) hlast.2,
        length_flatten_of_length_eq hlen]
  · exact .inl rfl

section Whole

variable {t : Transmission} {chunks rest : List (List UInt8)} (hne : chunks ≠ [])
  (hc : 0 < t.chunkSize.toNat) (hchunks : ∀ w ∈ chunks, w.length = t.chunkSize.toNat)
  (hend : endsPadded (chunks.getLast hne) = true ∨ ∀ p ∈ rest.head?, p = [])

include hc hchunks in
theorem delivered_append : delivered (chunks ++ rest) = chunks ++ delivered rest := by
  refine List.takeWhile_append_of_pos fun w hw => decide_eq_true ?_
  exact List.ne_nil_of_length_pos (by rw [hchunks w hw]; exact hc)

include hc hchunks hend in
/-- Behind the chunks nothing is delivered, or nothing is looked at. -/
theorem slots_delivered_append (fresh : ℕ → Mem) :
    ∃ ws, slots t.chunkSize.toNat fresh 0 (delivered (chunks ++ rest)) = chunks ++ ws ∧
      (endsPadded (chunks.getLast hne) = true ∨ ws = []) := by
  rw [delivered_append hc hchunks, slots_append fresh hchunks]
  refine ⟨_, rfl, hend.imp id fun hhead => ?_⟩
  cases rest with
  | nil => rfl
  | cons p rest =>
    obtain rfl : p = [] := hhead p (Option.mem_some_self p)
    rfl

variable (ht : ∀ usedMessage, t.refusal t.readUsed usedMessage = none)
  (hfits : chunks.length * t.chunkSize.toNat + t.chunkSize.toNat < 2 ^ 32)
  (hinit : ∀ w ∈ chunks.dropLast, endsPadded w = false)
  (hrest : ∀ p ∈ rest, p.length ≤ t.chunkSize.toNat)

include hc hchunks hend ht hfits hinit hrest

theorem receive_whole (fresh : ℕ → Mem) (hpad : ∃ b ∈ chunks.flatten, b ≠ pad) :
    receive fresh (chunks ++ rest) t = some (true, { t with
        readUsed := 1
        data := some (unpadded chunks.flatten)
        bytes := UInt64.ofNat (unpadded chunks.flatten).length }) ∧
      receiveCalls fresh (chunks ++ rest) t = some
        (if endsPadded (chunks.getLast hne) then chunks.length else chunks.length + 1) := by
  obtain ⟨ws, hslots, hbehind⟩ := slots_delivered_append hne hc hchunks hend fresh
  obtain ⟨hmessage, hcalls⟩ := message_append hne hinit hbehind
  have hlen : ∀ p ∈ chunks ++ rest, p.length ≤ t.chunkSize.toNat := fun p hp =>
    (List.mem_append.mp hp).elim (fun hp => (hchunks p hp).le) (hrest p)
  have hcount : readCalls (chunks ++ ws) * t.chunkSize.toNat < 2 ^ 32 := by
    have hle : (chunks.length + 1) * t.chunkSize.toNat =
        chunks.length * t.chunkSize.toNat + t.chunkSize.toNat := Nat.succ_mul _ _
    rw [hcalls]
    split <;> omega
  have hcount32 : readCalls (chunks ++ ws) < 2 ^ 32 :=
    lt_of_le_of_lt (Nat.le_mul_of_pos_right _ hc) hcount
  constructor
  · have hdelivered : delivered (chunks ++ rest) ≠ [] := by
      rw [delivered_append hc hchunks]
      exact List.append_ne_nil_of_left_ne_nil hne _
    rw [receive_eq fresh hlen hc ht hdelivered, hslots, present, hmessage, if_pos ⟨hcount, hpad⟩]
  · obtain ⟨behind, hloop⟩ := (receiveLoop_zero fresh hlen hc).1 (by rwa [hslots])
    rw [receiveCalls, ht]
    simp only [hloop, Option.map_some]
    rw [hslots, toNat_counter hcount32, hcalls]

end Whole

/-- **Whole chunks.** `receive` presents the chunks up to the first one that ends in the pad byte,
without the trailing run of pad bytes, and reads no chunk behind it. -/
theorem receive_chunks {c : UInt16} (hc : 72 < c.toNat) {connection : Conn} {data : Option Mem}
    {size : UInt64} (herror : (initTransmission c connection data size).error = 0)
    (fresh : ℕ → Mem) {chunks rest : List (List UInt8)} (hne : chunks ≠ [])
    (hchunks : ∀ w ∈ chunks, w.length = c.toNat)
    (hfits : chunks.length * c.toNat + c.toNat < 2 ^ 32)
    (hinit : ∀ w ∈ chunks.dropLast, w.getLast? ≠ some pad)
    (hrest : ∀ p ∈ rest, p.length ≤ c.toNat)
    (hend : (chunks.getLast hne).getLast? = some pad ∨ ∀ p ∈ rest.head?, p = [])
    (hpad : ∃ b ∈ chunks.flatten, b ≠ pad) :
    ∃ t', receive fresh (chunks ++ rest) (initTransmission c connection data size) =
        some (true, t') ∧
      t'.data = some (chunks.flatten.rdropWhile (· == pad)) ∧
      t'.bytes.toNat = (chunks.flatten.rdropWhile (· == pad)).length ∧
      receiveCalls fresh (chunks ++ rest) (initTransmission c connection data size) = some
        (if (chunks.getLast hne).getLast? = some pad then chunks.length
          else chunks.length + 1) := by
  have hsize : (initTransmission c connection data size).chunkSize.toNat = c.toNat :=
    UInt16.toNat_toUInt32 c
  obtain ⟨hreceive, hcalls⟩ := receive_whole (t := initTransmission c connection data size) hne
    (by omega) (by rwa [hsize]) (hend.imp_left endsPadded_iff.mpr)
    (refusal_of_error_eq_zero data size herror) (by rwa [hsize])
    (fun w hw => Bool.eq_false_iff.mpr fun h => hinit w hw (endsPadded_iff.mp h))
    (by rwa [hsize]) fresh hpad
  have hshort : (unpadded chunks.flatten).length ≤ chunks.length * c.toNat := by
    rw [← length_flatten_of_length_eq hchunks]
    exact (List.rdropWhile_prefix _ chunks.flatten).length_le
  refine ⟨_, hreceive, rfl, ?_, ?_⟩
  · exact UInt64.toNat_ofNat'.trans (Nat.mod_eq_of_lt (by omega))
  · simpa only [endsPadded_iff] using hcalls

/-- Two chunks of 73 bytes, the second of which ends in the pad byte, with another one behind
them. -/
theorem receive_chunks_two : ∃ t', receive (fun _ _ => 0)
      ([List.replicate 73 5, List.replicate 72 6 ++ [pad]] ++ [List.replicate 73 7])
      (initTransmission 73 ⟨0, none, 3, 0⟩ none 0) = some (true, t') ∧
    t'.data = some (List.replicate 73 5 ++ List.replicate 72 6) := by
  obtain ⟨t', hreceive, hdata, -⟩ := @receive_chunks 73 (by decide) ⟨0, none, 3, 0⟩ none 0 rfl
    (fun _ _ => 0) [List.replicate 73 5, List.replicate 72 6 ++ [pad]] [List.replicate 73 7]
    (by simp) (by simp) (by decide) (by decide) (by simp) (.inl (by simp)) ⟨5, by simp, by decide⟩
  exact ⟨t', hreceive, hdata.trans (by decide)⟩

end PekarDrive
