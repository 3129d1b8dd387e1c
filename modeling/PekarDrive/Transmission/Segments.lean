import PekarDrive.Transmission.Received

/-!
# Streams that arrive in pieces

A read delivers as many bytes as have arrived, up to a chunk. `receive` counts reads where it should
count bytes: a piece that is shorter than a chunk leaves a gap of fresh memory behind it, and the
last byte of the gap decides whether the loop goes on. So two ways in which a stream arrives give
the same message exactly when in both of them each read, up to the one that ends the message,
delivers a whole chunk (`PekarDrive.sameReceived_iff`).

When the stream ends early, the loop ends as well, and what has been stored is presented as the
message. A stream that is cut before its last chunk is reported only if nothing of it has arrived
(`PekarDrive.reportsCut_iff`).

## Main definitions

* `PekarDrive.Delivers`, `PekarDrive.SameReceived`, `PekarDrive.Determinate`.
* `PekarDrive.CutShort`, `PekarDrive.ReportsCut`.

## Main results

* `PekarDrive.sameReceived_iff`, `PekarDrive.reportsCut_iff`.
-/

namespace PekarDrive

open CMemory CText

/-- The reads deliver the stream in pieces of 1 to `c` bytes. -/
structure Delivers (c : ℕ) (reads : List (List UInt8)) (stream : List UInt8) : Prop where
  /-- Each read delivers something, and no more than it was asked for. -/
  pieces : ∀ p ∈ reads, p ≠ [] ∧ p.length ≤ c
  /-- All pieces together are the stream. -/
  flatten : reads.flatten = stream

/-- Whatever fresh memory holds in two runs of `receive`, both return the same value and leave the
same instance behind. -/
def SameReceived (t : Transmission) (reads₁ reads₂ : List (List UInt8)) : Prop :=
  ∀ fresh₁ fresh₂, ∃ result, receive fresh₁ reads₁ t = some result ∧
    receive fresh₂ reads₂ t = some result

/-- Reads that leave no gap: each one up to the first that ends in the pad byte delivers a whole
chunk, the sizes fit 32 bits, and a byte is not the pad byte. -/
def Determinate (c : ℕ) (reads : List (List UInt8)) : Prop :=
  reads = [] ∨ (∀ p ∈ message reads, p.length = c) ∧ readCalls reads * c < 2 ^ 32 ∧
    ∃ b ∈ (message reads).flatten, b ≠ pad

/-- The stream of some chunks, the last of which is padded, is cut before its last chunk; the reads
deliver what comes before the cut. -/
structure CutShort (c : ℕ) (chunks reads : List (List UInt8)) : Prop where
  /-- The chunks are whole. -/
  length_eq : ∀ w ∈ chunks, w.length = c
  /-- The last one is padded. -/
  padded : ∃ w, chunks.getLast? = some w ∧ w.getLast? = some pad
  /-- Each read delivers something, and no more than it was asked for. -/
  pieces : ∀ p ∈ reads, p ≠ [] ∧ p.length ≤ c
  /-- The cut is before the last chunk. -/
  prefix_dropLast : reads.flatten <+: chunks.dropLast.flatten

/-- `receive` returns 0 and stores no data. -/
def ReportsCut (fresh : ℕ → Mem) (reads : List (List UInt8)) (t : Transmission) : Prop :=
  ∃ t', receive fresh reads t = some (false, t') ∧ (t'.data = none ∨ t'.data = t.data)

theorem Delivers.eq_nil_iff {c : ℕ} {reads : List (List UInt8)} {stream : List UInt8}
    (h : Delivers c reads stream) : reads = [] ↔ stream = [] := by
  rw [← h.flatten, List.flatten_eq_nil_iff]
  refine ⟨fun hnil p hp => absurd hp (hnil ▸ List.not_mem_nil), fun hall => ?_⟩
  exact List.eq_nil_iff_forall_not_mem.mpr fun p hp => (h.pieces p hp).1 (hall p hp)

/-! ### Bytes that are not padding -/

theorem unpadded_append_replicate (bs : List UInt8) (n : ℕ) :
    unpadded (bs ++ List.replicate n pad) = unpadded bs := by
  induction n with
  | zero => rw [List.replicate_zero, List.append_nil]
  | succ n ih =>
    rw [List.replicate_succ', ← List.append_assoc, unpadded,
      List.rdropWhile_concat_pos _ _ _ (by simp)]
    exact ih

/-- A byte that is not the pad byte is kept, with what is in front of it. -/
theorem lt_length_unpadded (bs : List UInt8) {b : UInt8} (hb : b ≠ pad) (bs' : List UInt8) :
    bs.length < (unpadded (bs ++ b :: bs')).length := by
  induction bs' using List.reverseRecOn with
  | nil =>
    rw [unpadded, List.rdropWhile_concat_neg _ _ _ (by simpa using hb), List.length_append]
    exact Nat.lt_succ_self _
  | append_singleton bs' b' ih =>
    rw [← List.cons_append, ← List.append_assoc, unpadded]
    by_cases hb' : b' = pad
    · rw [List.rdropWhile_concat_pos _ _ _ (by simpa using hb')]
      exact ih
    · rw [List.rdropWhile_concat_neg _ _ _ (by simpa using hb')]
      simp only [List.length_append, List.length_cons]
      omega

/-! ### Reads that leave gaps -/

section Gaps

variable {c : ℕ}

/-- The first read of a message that delivers less than a chunk. -/
theorem exists_short {reads : List (List UInt8)} (h : ¬ ∀ p ∈ message reads, p.length = c) :
    ∃ pre p post, reads = pre ++ p :: post ∧ p.length ≠ c ∧
      ∀ w ∈ pre, w.length = c ∧ endsPadded w = false := by
  induction reads with
  | nil => exact absurd (fun p hp => absurd hp List.not_mem_nil) h
  | cons p reads ih =>
    by_cases hp : p.length = c
    · rw [message] at h
      cases hpad : endsPadded p with
      | true =>
        rw [hpad, if_pos rfl] at h
        exact absurd (fun q hq => List.mem_singleton.mp hq ▸ hp) h
      | false =>
        rw [hpad, if_neg Bool.false_ne_true, List.forall_mem_cons] at h
        obtain ⟨pre, q, post, hreads, hq, hpre⟩ := ih fun hall => h ⟨hp, hall⟩
        refine ⟨p :: pre, q, post, by rw [hreads, List.cons_append], hq, ?_⟩
        exact List.forall_mem_cons.mpr ⟨⟨hp, hpad⟩, hpre⟩
    · exact ⟨[], p, reads, rfl, hp, fun w hw => absurd hw List.not_mem_nil⟩

theorem message_append_of_not_padded {pre : List (List UInt8)}
    (hpre : ∀ w ∈ pre, endsPadded w = false) (ws : List (List UInt8)) :
    message (pre ++ ws) = pre ++ message ws := by
  induction pre with
  | nil => rfl
  | cons w pre ih =>
    obtain ⟨hw, hpre⟩ := List.forall_mem_cons.mp hpre
    rw [List.cons_append, message, hw, if_neg Bool.false_ne_true, ih hpre, List.cons_append]

/-- Reads without gaps are their own slots as far as the message goes. -/
theorem message_slots (fresh : ℕ → Mem) {reads : List (List UInt8)}
    (h : ∀ p ∈ message reads, p.length = c) (i : ℕ) :
    message (slots c fresh i reads) = message reads ∧
      readCalls (slots c fresh i reads) = readCalls reads := by
  induction reads generalizing i with
  | nil => exact ⟨rfl, rfl⟩
  | cons p reads ih =>
    rw [message] at h
    rw [slots, message, message, readCalls, readCalls]
    cases hpad : endsPadded p with
    | true =>
      rw [hpad, if_pos rfl, List.forall_mem_singleton] at h
      rw [slot_of_length_eq h, hpad]
      exact ⟨rfl, rfl⟩
    | false =>
      rw [hpad, if_neg Bool.false_ne_true, List.forall_mem_cons] at h
      obtain ⟨hmessage, hcalls⟩ := ih h.2 (i + 1)
      rw [slot_of_length_eq h.1, hpad, hmessage, hcalls]
      exact ⟨rfl, rfl⟩

/-- The slots of reads of which one is short, when fresh memory is `b` throughout. -/
theorem exists_slots_const (b : UInt8) {pre : List (List UInt8)} (hpre : ∀ w ∈ pre, w.length = c)
    (p : List UInt8) (post : List (List UInt8)) :
    ∃ ws, slots c (fun _ _ => b) 0 (pre ++ p :: post) =
      pre ++ (p ++ List.replicate (c - p.length) b) :: ws := by
  rw [slots_append _ hpre, slots, slot, window_const]
  exact ⟨_, rfl⟩

section Gap

variable {pre : List (List UInt8)} {p : List UInt8}
  (hpre : ∀ w ∈ pre, w.length = c ∧ endsPadded w = false) (hp : p.length < c)

include hpre hp

/-- The message goes on behind the short piece with `b`. -/
theorem exists_message_slots (b : UInt8) (post : List (List UInt8)) :
    ∃ n ws, message (slots c (fun _ _ => b) 0 (pre ++ p :: post)) =
      pre ++ message ((p ++ List.replicate (n + 1) b) :: ws) ∧
      endsPadded (p ++ List.replicate (n + 1) b) = (b == pad) := by
  obtain ⟨ws, hws⟩ := exists_slots_const b (fun w hw => (hpre w hw).1) p post
  obtain ⟨n, hn⟩ : ∃ n, c - p.length = n + 1 := ⟨c - p.length - 1, by omega⟩
  refine ⟨n, ws, ?_, ?_⟩
  · rw [hws, hn, message_append_of_not_padded fun w hw => (hpre w hw).2]
  · rw [endsPadded, List.replicate_succ', ← List.append_assoc, List.getLast?_concat]
    rfl

/-- A gap of pad bytes ends the message. -/
theorem length_unpadded_slots_pad (post : List (List UInt8)) :
    (unpadded (message (slots c (fun _ _ => pad) 0 (pre ++ p :: post))).flatten).length ≤
      (pre.flatten ++ p).length := by
  obtain ⟨n, ws, hmessage, hpadded⟩ := exists_message_slots hpre hp pad post
  rw [hmessage, message, hpadded, beq_self_eq_true, if_pos rfl, List.flatten_append,
    List.flatten_singleton, ← List.append_assoc, unpadded_append_replicate]
  exact (List.rdropWhile_prefix _ _).length_le

/-- A gap of other bytes is taken for a part of the message. -/
theorem lt_length_unpadded_slots {b : UInt8} (hb : b ≠ pad) (post : List (List UInt8)) :
    (pre.flatten ++ p).length <
      (unpadded (message (slots c (fun _ _ => b) 0 (pre ++ p :: post))).flatten).length := by
  obtain ⟨n, ws, hmessage, hpadded⟩ := exists_message_slots hpre hp b post
  rw [beq_eq_false_iff_ne.mpr hb] at hpadded
  rw [hmessage, message, hpadded, if_neg Bool.false_ne_true, List.flatten_append,
    List.flatten_cons, List.replicate_succ, List.append_assoc, List.cons_append,
    ← List.append_assoc]
  exact lt_length_unpadded _ hb _

end Gap

theorem exists_present_of_some {t : Transmission} {ws : List (List UInt8)}
    {result : Bool × Transmission} (h : present t ws = some result) :
    readCalls ws * t.chunkSize.toNat < 2 ^ 32 ∧ (∃ b ∈ (message ws).flatten, b ≠ pad) ∧
      result.2.data = some (unpadded (message ws).flatten) := by
  rw [present] at h
  split_ifs at h with hcond
  obtain rfl := Option.some.inj h
  exact ⟨hcond.1, hcond.2, rfl⟩

end Gaps

/-! ### Two ways to deliver a stream -/

section Same

variable {t : Transmission} {reads : List (List UInt8)}

theorem receive_of_nil (fresh : ℕ → Mem) (ht : t.Usable t.readUsed) :
    receive fresh [] t = some (false, { t with readUsed := 1 }) :=
  receive_of_delivered_nil fresh (fun _ => Transmission.refusal_eq_none_iff.mpr ht) rfl

variable (hpieces : ∀ p ∈ reads, p ≠ [] ∧ p.length ≤ t.chunkSize.toNat)

include hpieces

theorem receive_of_pieces (fresh : ℕ → Mem) (ht : t.Usable t.readUsed) (hne : reads ≠ []) :
    receive fresh reads t = present t (slots t.chunkSize.toNat fresh 0 reads) := by
  obtain ⟨p, ps, rfl⟩ := List.exists_cons_of_ne_nil hne
  have hp := hpieces p List.mem_cons_self
  have hc : 0 < t.chunkSize.toNat := lt_of_lt_of_le (List.length_pos_iff.mpr hp.1) hp.2
  have hdelivered : delivered (p :: ps) = p :: ps := delivered_eq_self fun q hq => (hpieces q hq).1
  have heq := receive_eq fresh (fun q hq => (hpieces q hq).2) hc
    (fun _ => Transmission.refusal_eq_none_iff.mpr ht) (by rw [hdelivered]; exact hne)
  rwa [hdelivered] at heq

/-- **Gaps show.** When the outcome is the same for every content of fresh memory, the reads leave
no gap. -/
theorem determinate_of_forall (ht : t.Usable t.readUsed) {result : Bool × Transmission}
    (h : ∀ fresh, receive fresh reads t = some result) : Determinate t.chunkSize.toNat reads := by
  by_cases hne : reads = []
  · exact .inl hne
  have hpresent : ∀ fresh, present t (slots t.chunkSize.toNat fresh 0 reads) = some result :=
    fun fresh => (receive_of_pieces hpieces fresh ht hne).symm.trans (h fresh)
  have hwhole : ∀ p ∈ message reads, p.length = t.chunkSize.toNat := by
    by_contra hnot
    obtain ⟨pre, p, post, rfl, hp, hpre⟩ := exists_short hnot
    have hlt : p.length < t.chunkSize.toNat := lt_of_le_of_ne (hpieces p (by simp)).2 hp
    -- a gap of pad bytes ends the message, a gap of other bytes belongs to it
    obtain ⟨-, -, hdata⟩ := exists_present_of_some (hpresent fun _ _ => pad)
    obtain ⟨-, -, hdata'⟩ := exists_present_of_some (hpresent fun _ _ => 5)
    have hshort := length_unpadded_slots_pad hpre hlt post
    have hlong := lt_length_unpadded_slots hpre hlt (show (5 : UInt8) ≠ pad by decide) post
    rw [Option.some.inj (hdata.symm.trans hdata')] at hshort
    omega
  obtain ⟨hmessage, hcalls⟩ := message_slots (fun _ _ => 0) hwhole 0
  obtain ⟨hfits, hpad, -⟩ := exists_present_of_some (hpresent fun _ _ => 0)
  rw [hmessage] at hpad
  rw [hcalls] at hfits
  exact .inr ⟨hwhole, hfits, hpad⟩

/-- Without a gap, the outcome depends on the message only. -/
theorem receive_of_determinate (ht : t.Usable t.readUsed) (hne : reads ≠ [])
    (h : Determinate t.chunkSize.toNat reads) (fresh : ℕ → Mem) :
    receive fresh reads t = some (true, { t with
      readUsed := 1
      data := some (unpadded (message reads).flatten)
      bytes := UInt64.ofNat (unpadded (message reads).flatten).length }) := by
  obtain ⟨hwhole, hfits, hpad⟩ := h.resolve_left hne
  obtain ⟨hmessage, hcalls⟩ := message_slots fresh hwhole 0
  rw [receive_of_pieces hpieces fresh ht hne, present, hmessage, hcalls, if_pos ⟨hfits, hpad⟩]

end Same

/-- Reads without gaps that deliver the same stream read the same message. -/
theorem message_eq_of_flatten_eq {c : ℕ} {reads₁ reads₂ : List (List UInt8)}
    (h₁ : ∀ p ∈ reads₁, p ≠ []) (h₂ : ∀ p ∈ reads₂, p ≠ [])
    (hwhole₁ : ∀ p ∈ message reads₁, p.length = c) (hwhole₂ : ∀ p ∈ message reads₂, p.length = c)
    (hflatten : reads₁.flatten = reads₂.flatten) : message reads₁ = message reads₂ := by
  induction reads₁ generalizing reads₂ with
  | nil =>
    cases reads₂ with
    | nil => rfl
    | cons p reads₂ =>
      exact absurd (List.append_eq_nil_iff.mp hflatten.symm).1 (h₂ p List.mem_cons_self)
  | cons p reads₁ ih =>
    cases reads₂ with
    | nil => exact absurd (List.append_eq_nil_iff.mp hflatten).1 (h₁ p List.mem_cons_self)
    | cons q reads₂ =>
      have hmem : ∀ (w : List UInt8) ws, w ∈ message (w :: ws) := fun w ws => by
        rw [message]
        split <;> exact List.mem_cons_self
      obtain ⟨rfl, hrest⟩ := List.append_inj (by simpa using hflatten)
        ((hwhole₁ p (hmem p reads₁)).trans (hwhole₂ q (hmem q reads₂)).symm)
      rw [message] at hwhole₁ hwhole₂ ⊢
      rw [message]
      cases hpad : endsPadded p with
      | true => rfl
      | false =>
        rw [hpad, if_neg Bool.false_ne_true, List.forall_mem_cons] at hwhole₁ hwhole₂
        rw [if_neg Bool.false_ne_true, if_neg Bool.false_ne_true,
          ih (fun r hr => h₁ r (List.mem_cons_of_mem p hr))
            (fun r hr => h₂ r (List.mem_cons_of_mem p hr)) hwhole₁.2 hwhole₂.2 hrest]
/-- Runs that agree leave no gaps: one run fixes the result of the other for all its memory. -/
theorem determinate_of_sameReceived {t : Transmission} {stream : List UInt8}
    {reads₁ reads₂ : List (List UInt8)} (h₁ : Delivers t.chunkSize.toNat reads₁ stream)
    (h₂ : Delivers t.chunkSize.toNat reads₂ stream) (ht : t.Usable t.readUsed)
    (h : SameReceived t reads₁ reads₂) :
    Determinate t.chunkSize.toNat reads₁ ∧ Determinate t.chunkSize.toNat reads₂ := by
  obtain ⟨result, hresult₁, hresult₂⟩ := h (fun _ _ => 0) fun _ _ => 0
  have hall₁ : ∀ fresh, receive fresh reads₁ t = some result := fun fresh => by
    obtain ⟨result', hfresh, hfixed⟩ := h fresh fun _ _ => 0
    rw [hfresh, Option.some.inj (hfixed.symm.trans hresult₂)]
  have hall₂ : ∀ fresh, receive fresh reads₂ t = some result := fun fresh => by
    obtain ⟨result', hfixed, hfresh⟩ := h (fun _ _ => 0) fresh
    rw [hfresh, Option.some.inj (hfixed.symm.trans hresult₁)]
  exact ⟨determinate_of_forall h₁.pieces ht hall₁, determinate_of_forall h₂.pieces ht hall₂⟩

/-- An instance that is refused stays without data, whatever is read. -/
theorem exists_receive_of_not_usable {t : Transmission} (ht : ¬ t.Usable t.readUsed) :
    ∃ t', t'.data = none ∧ ∀ fresh reads, receive fresh reads t = some (false, t') := by
  rw [← Transmission.refusal_eq_none_iff, ← ne_eq, Option.ne_none_iff_exists] at ht
  obtain ⟨message, hmessage⟩ := ht
  refine ⟨t.transErr message, rfl, fun fresh reads => ?_⟩
  rw [receive, ← hmessage]

/-- **Two ways to deliver a stream.** Two runs of `receive` on the same stream agree, whatever fresh
memory holds, if and only if neither leaves a gap, or the instance is refused. -/
theorem sameReceived_iff {t : Transmission} {stream : List UInt8}
    {reads₁ reads₂ : List (List UInt8)} (h₁ : Delivers t.chunkSize.toNat reads₁ stream)
    (h₂ : Delivers t.chunkSize.toNat reads₂ stream) :
    SameReceived t reads₁ reads₂ ↔ ¬ t.Usable t.readUsed ∨
      Determinate t.chunkSize.toNat reads₁ ∧ Determinate t.chunkSize.toNat reads₂ := by
  by_cases ht : t.Usable t.readUsed
  · simp only [ht, not_true_eq_false, false_or]
    constructor
    · exact determinate_of_sameReceived h₁ h₂ ht
    · rintro ⟨hdet₁, hdet₂⟩ fresh₁ fresh₂
      by_cases hstream : stream = []
      · -- nothing is delivered in either run
        rw [h₁.eq_nil_iff.mpr hstream, h₂.eq_nil_iff.mpr hstream]
        exact ⟨_, receive_of_nil fresh₁ ht, receive_of_nil fresh₂ ht⟩
      · have hne₁ : reads₁ ≠ [] := fun hnil => hstream (h₁.eq_nil_iff.mp hnil)
        have hne₂ : reads₂ ≠ [] := fun hnil => hstream (h₂.eq_nil_iff.mp hnil)
        have hmessage : message reads₁ = message reads₂ :=
          message_eq_of_flatten_eq (fun p hp => (h₁.pieces p hp).1)
            (fun p hp => (h₂.pieces p hp).1) (hdet₁.resolve_left hne₁).1
            (hdet₂.resolve_left hne₂).1 (h₁.flatten.trans h₂.flatten.symm)
        refine ⟨_, receive_of_determinate h₁.pieces ht hne₁ hdet₁ fresh₁, ?_⟩
        rw [hmessage]
        exact receive_of_determinate h₂.pieces ht hne₂ hdet₂ fresh₂
  · simp only [ht, not_false_eq_true, true_or, iff_true]
    obtain ⟨t', -, ht'⟩ := exists_receive_of_not_usable ht
    exact fun fresh₁ fresh₂ => ⟨_, ht' fresh₁ reads₁, ht' fresh₂ reads₂⟩

/-- A new instance for chunks of 73 bytes. -/
def exampleReceiver : Transmission := initTransmission 73 ⟨0, none, 3, 0⟩ none 0

/-- A chunk of 73 bytes that ends in the pad byte. -/
def paddedChunk : List UInt8 := List.replicate 72 5 ++ [pad]

/-- A chunk that arrives whole is received whatever fresh memory holds, and however the bytes behind
it arrive. -/
theorem sameReceived_paddedChunk :
    SameReceived exampleReceiver [paddedChunk, [6, 7]] [paddedChunk, [6], [7]] := by
  have h₁ : Delivers exampleReceiver.chunkSize.toNat [paddedChunk, [6, 7]]
      (paddedChunk ++ [6, 7]) := ⟨by decide, by decide⟩
  have h₂ : Delivers exampleReceiver.chunkSize.toNat [paddedChunk, [6], [7]]
      (paddedChunk ++ [6, 7]) := ⟨by decide, by decide⟩
  exact (sameReceived_iff h₁ h₂).2 (.inr ⟨.inr (by decide), .inr (by decide)⟩)

/-- A chunk that arrives in two pieces is not. -/
theorem not_forall_sameReceived : ¬ ∀ (c : UInt16) (connection : Conn) (stream : List UInt8)
    (reads₁ reads₂ : List (List UInt8)), 72 < c.toNat → connection.error = 0 →
      c.toNat ∣ stream.length → Delivers c.toNat reads₁ stream → Delivers c.toNat reads₂ stream →
      SameReceived (initTransmission c connection none 0) reads₁ reads₂ := by
  intro h
  have hwhole : Delivers exampleReceiver.chunkSize.toNat [paddedChunk] paddedChunk :=
    ⟨by decide, by decide⟩
  have hsplit : Delivers exampleReceiver.chunkSize.toNat [[5], paddedChunk.drop 1] paddedChunk :=
    ⟨by decide, by decide⟩
  have hsame : SameReceived exampleReceiver [paddedChunk] [[5], paddedChunk.drop 1] :=
    h 73 ⟨0, none, 3, 0⟩ paddedChunk _ _ (by decide) rfl (by decide) hwhole hsplit
  have hdet := (determinate_of_sameReceived hwhole hsplit ⟨rfl, rfl, by decide⟩ hsame).2
  exact absurd ((hdet.resolve_left (by decide)).1 [5] (by decide)) (by decide)

/-! ### A stream that is cut -/

/-- What has arrived of a stream is presented. -/
theorem eq_nil_of_reportsCut {t : Transmission} {reads : List (List UInt8)}
    (hpieces : ∀ p ∈ reads, p ≠ [] ∧ p.length ≤ t.chunkSize.toNat) (ht : t.Usable t.readUsed)
    {fresh : ℕ → Mem} (h : ReportsCut fresh reads t) : reads = [] := by
  obtain ⟨t', hreceive, -⟩ := h
  by_contra hne
  rw [receive_of_pieces hpieces fresh ht hne, present] at hreceive
  split_ifs at hreceive
  exact absurd (congrArg Prod.fst (Option.some.inj hreceive)) (by simp)

/-- **A cut stream.** When the stream ends before its padded last chunk, `receive` reports it if and
only if nothing of it has arrived, or the instance is refused. -/
theorem reportsCut_iff {t : Transmission} {chunks reads : List (List UInt8)}
    (h : CutShort t.chunkSize.toNat chunks reads) (fresh : ℕ → Mem) :
    ReportsCut fresh reads t ↔ ¬ t.Usable t.readUsed ∨ reads = [] := by
  by_cases ht : t.Usable t.readUsed
  · simp only [ht, not_true_eq_false, false_or]
    refine ⟨eq_nil_of_reportsCut h.pieces ht, ?_⟩
    rintro rfl
    exact ⟨_, receive_of_nil fresh ht, .inr rfl⟩
  · simp only [ht, not_false_eq_true, true_or, iff_true]
    obtain ⟨t', hdata, ht'⟩ := exists_receive_of_not_usable ht
    exact ⟨t', ht' fresh reads, .inl hdata⟩

/-- Two chunks of 73 bytes, of which the second one is padded. -/
def twoChunks : List (List UInt8) := [List.replicate 73 5, paddedChunk]

/-- A stream of which nothing arrives is reported. -/
theorem reportsCut_nil : ReportsCut (fun _ _ => 0) [] exampleReceiver :=
  (@reportsCut_iff exampleReceiver twoChunks []
    ⟨by decide, ⟨paddedChunk, by decide, by decide⟩, by decide, by decide⟩ _).2 (.inr rfl)

/-- When the peer closes the connection behind the first of two chunks, that chunk is presented. -/
theorem not_forall_reportsCut : ¬ ∀ (c : UInt16) (connection : Conn) (fresh : ℕ → Mem)
    (chunks reads : List (List UInt8)), 72 < c.toNat → connection.error = 0 →
      CutShort c.toNat chunks reads →
      ReportsCut fresh reads (initTransmission c connection none 0) := by
  intro h
  have hcut : CutShort exampleReceiver.chunkSize.toNat twoChunks [List.replicate 73 5] :=
    ⟨by decide, ⟨paddedChunk, by decide, by decide⟩, by decide, by decide⟩
  have hreport : ReportsCut (fun _ _ => 0) [List.replicate 73 5] exampleReceiver :=
    h 73 ⟨0, none, 3, 0⟩ _ twoChunks _ (by decide) rfl hcut
  exact absurd (eq_nil_of_reportsCut hcut.pieces ⟨rfl, rfl, by decide⟩ hreport) (by simp)

end PekarDrive
