import PekarDrive.Transmission.Received

/-!
# The status of a message

`pp_send` and `pp_read` of `lib/PP/pp.c`. Both return a status: whether the transmission has
failed, the message of the error, and the number of transmitted bytes.

When it fails, `pp_send` fills a status, frees the message of the instance twice, and would return
another status than the one it has filled. When it does not, it does not look at the results of
`conn_write`, and the number of bytes is zero in the status of every success of both functions.

## Main definitions

* `PekarDrive.PpStatus`, `PekarDrive.PpMessage`, `PekarDrive.PpEndpoint`.
* `PekarDrive.ppSend`, `PekarDrive.ppRead`.
* `PekarDrive.HandedOver`, `PekarDrive.SendReported`, `PekarDrive.ReadReported`.

## Main results

* `PekarDrive.reported_iff`.
-/

namespace PekarDrive

open CMemory CText

/-- The struct `pp_status`. -/
structure PpStatus where
  /-- Whether the transmission has failed. -/
  error : Int16
  /-- The message of the error. -/
  errorMessage : Option MsgBlock
  /-- The number of transmitted bytes. -/
  bytes : UInt64
  deriving DecidableEq

/-- The struct `pp_message`. -/
structure PpMessage where
  /-- The status. -/
  status : PpStatus
  /-- The block of the message. -/
  buffer : Option (List UInt8)
  deriving DecidableEq

/-- The struct `pp_endpoint`. -/
structure PpEndpoint where
  /-- The connection. -/
  connection : Conn

/-- `endpoint_from_connection`. -/
def endpointFromConnection (connection : Conn) : PpEndpoint := ⟨connection⟩

/-- `transmission_error`. -/
def transmissionError (t : Transmission) : Option MsgBlock :=
  if t.error = 0 then none else t.errMsg

/-- `close_transmission`, which must not free a message twice. -/
def closeTransmission (t : Transmission) : Option Transmission :=
  if t.error ≠ 0 ∧ t.errMsg.any MsgBlock.freed then none else some t.close

/-- The status that both functions fill from the message of an instance. -/
def failureStatus (message : MsgBlock) : PpStatus where
  error := 1
  errorMessage := some ⟨message.text.strlen, message.text, false⟩
  bytes := UInt64.ofNat message.text.strlen

/-- `pp_send`: the status, and the chunks handed to `conn_write`. The length of a message that is
`NULL` is not defined, nor is a message freed twice. -/
def ppSend (heap : SendHeap) (chunkSize : UInt16) (endpoint : PpEndpoint) (data : Option Mem)
    (len : UInt64) : Option (PpStatus × List (List UInt8)) :=
  let message := initTransmission chunkSize endpoint.connection data len
  let (sent, message, chunks) :=
    if message.error ≠ 0 then (false, message, []) else transmit heap message
  let afterwards :=
    if sent then some message
    else (transmissionError message).bind fun errorMsg =>
      -- filled, and not returned
      let _status := failureStatus errorMsg
      closeTransmission message
  (afterwards.bind closeTransmission).map fun _ => (⟨0, none, 0⟩, chunks)

/-- `pp_read`, when the reads deliver the given pieces and then nothing. -/
def ppRead (chunkSize : UInt16) (fresh : ℕ → Mem) (reads : List (List UInt8))
    (endpoint : PpEndpoint) : Option PpMessage :=
  match receive fresh reads (initTransmission chunkSize endpoint.connection none 0) with
  | none => none
  | some (false, t) =>
    if t.error ≠ 0 then
      (transmissionError t).map fun errorMsg => ⟨failureStatus errorMsg, none⟩
    else some ⟨⟨1, none, 0⟩, none⟩
  | some (true, t) => some ⟨⟨0, none, 0⟩, t.data.map fun data => data.take t.bytes.toNat⟩

/-! ### What a status is to say -/

section Reported

variable (heap : SendHeap) (c : UInt16) (endpoint : PpEndpoint) (data : Option Mem) (len : UInt64)

/-- The message is completely handed to the connection; `results i` is what the `i`-th call of
`conn_write` returns. -/
structure HandedOver (results : ℕ → ℤ) : Prop where
  /-- The connection has no error. -/
  connection_eq : endpoint.connection.error = 0
  /-- There is data. -/
  data_ne : data ≠ none
  /-- A chunk has room for data. -/
  lt_chunkSize : 72 < c.toNat
  /-- Every chunk is written whole. -/
  written : ∀ i < (transmit heap (initTransmission c endpoint.connection data len)).2.2.length,
    results i = c.toNat

/-- `pp_send` returns an error with a message exactly when the message is not handed over, and on
success the number of bytes. -/
def SendReported (results : ℕ → ℤ) : Prop :=
  ∃ status chunks, ppSend heap c endpoint data len = some (status, chunks) ∧
    (status.error = 1 ∧ status.errorMessage ≠ none ↔
      ¬ HandedOver heap c endpoint data len results) ∧
    (status.error = 0 → status.bytes = len)

/-- `pp_read` returns, and on success the number of bytes is that of its buffer. -/
def ReadReported (fresh : ℕ → Mem) (reads : List (List UInt8)) : Prop :=
  ∃ message, ppRead c fresh reads endpoint = some message ∧
    (message.status.error = 0 →
      ∃ buffer, message.buffer = some buffer ∧ message.status.bytes.toNat = buffer.length)

end Reported

/-! ### Sending -/

section Send

variable {heap : SendHeap} {c : UInt16} {endpoint : PpEndpoint} {data : Option Mem} {len : UInt64}

/-- The status that is returned never tells of a failure, nor of a byte. -/
theorem status_of_ppSend {status : PpStatus} {chunks : List (List UInt8)}
    (h : ppSend heap c endpoint data len = some (status, chunks)) : status = ⟨0, none, 0⟩ := by
  obtain ⟨-, -, heq⟩ := Option.map_eq_some_iff.mp h
  exact (Prod.mk.inj heq).1.symm

theorem error_initTransmission (hc : 72 < c.toNat) {connection : Conn}
    (hconn : connection.error = 0) (data : Option Mem) (len : UInt64) :
    (initTransmission c connection data len).error = 0 := by
  have hsize : serializedSizeWithoutData < c.toUInt32 := by
    rw [UInt32.lt_iff_toNat_lt, UInt16.toNat_toUInt32]
    exact hc
  exact (Transmission.refusal_eq_none_iff.mp
    (refusal_initTransmission data len hsize hconn (lit ""))).error_eq

/-- When the causes of a failure that are known before the first `conn_write` are absent, the
function returns. -/
theorem ppSend_of_error_eq_zero {m : Mem}
    (herror : (initTransmission c endpoint.connection (some m) len).error = 0) :
    ∃ chunks, ppSend heap c endpoint (some m) len = some (⟨0, none, 0⟩, chunks) := by
  have href := refusal_of_error_eq_zero (some m) len herror
    (lit "Transmission instance already used for writing.")
  have hused : (initTransmission c endpoint.connection (some m) len).writeUsed = 0 := rfl
  have htransmit : ∃ chunks, transmit heap (initTransmission c endpoint.connection (some m) len) =
      (true, { initTransmission c endpoint.connection (some m) len with writeUsed := 1 },
        chunks) := by
    rw [transmit, hused, href]
    exact ⟨_, rfl⟩
  obtain ⟨chunks, hchunks⟩ := htransmit
  refine ⟨chunks, ?_⟩
  simp only [ppSend, herror, ne_eq, not_true_eq_false, if_false, hchunks, if_true,
    Option.bind_some]
  rw [closeTransmission, if_neg fun h => absurd rfl h.1]
  rfl

/-- **The status of a sent message.** It tells what it is to tell only of an empty message. -/
theorem sendReported_iff (results : ℕ → ℤ) : SendReported heap c endpoint data len results ↔
    HandedOver heap c endpoint data len results ∧ len = 0 := by
  constructor
  · rintro ⟨status, chunks, hsend, herror, hbytes⟩
    obtain rfl := status_of_ppSend hsend
    refine ⟨not_not.mp fun hnot => ?_, (hbytes rfl).symm⟩
    exact absurd (herror.mpr hnot).1 (by decide)
  · rintro ⟨h, rfl⟩
    obtain ⟨m, rfl⟩ := Option.ne_none_iff_exists'.mp h.data_ne
    obtain ⟨chunks, hsend⟩ : ∃ chunks,
        ppSend heap c endpoint (some m) 0 = some (⟨0, none, 0⟩, chunks) :=
      ppSend_of_error_eq_zero (error_initTransmission h.lt_chunkSize h.connection_eq (some m) 0)
    refine ⟨_, chunks, hsend, ?_, fun _ => rfl⟩
    exact iff_of_false (fun hfailed => absurd hfailed.1 (by decide)) (not_not.mpr h)

end Send

/-! ### Reading -/

section Read

variable {c : UInt16} {endpoint : PpEndpoint} (fresh : ℕ → Mem) {reads : List (List UInt8)}

/-- A refused instance, and a stream that delivers nothing, are reported. -/
theorem readReported_of_not_usable
    (ht : ¬ (initTransmission c endpoint.connection none 0).Usable 0) :
    ReadReported c endpoint fresh reads := by
  rw [← @Transmission.refusal_eq_none_iff _ _
    (lit "Transmission instance already used for reading."), ← ne_eq,
    Option.ne_none_iff_exists'] at ht
  obtain ⟨message, hmessage⟩ := ht
  have hused : (initTransmission c endpoint.connection none 0).readUsed = 0 := rfl
  refine ⟨⟨failureStatus ⟨message.strlen, message, false⟩, none⟩, ?_,
    fun herror => absurd herror (show ¬ (1 : Int16) = 0 by decide)⟩
  rw [ppRead, receive, hused, hmessage]
  rfl

theorem readReported_of_delivered_nil (hnil : delivered reads = [])
    (ht : (initTransmission c endpoint.connection none 0).Usable 0) :
    ReadReported c endpoint fresh reads := by
  have hreceive := receive_of_delivered_nil fresh
    (fun _ => Transmission.refusal_eq_none_iff.mpr ht) hnil
  refine ⟨⟨⟨1, none, 0⟩, none⟩, ?_, fun herror => absurd herror (by decide)⟩
  rw [ppRead, hreceive]
  simp [ht.error_eq]

theorem unpadded_ne_nil {bs : List UInt8} (h : ∃ b ∈ bs, b ≠ pad) : unpadded bs ≠ [] := by
  obtain ⟨b, hb, hpad⟩ := h
  intro hnil
  have hall := List.rdropWhile_eq_nil_iff.mp hnil b hb
  exact hpad (beq_iff_eq.mp hall)

theorem length_flatten_message_le {n : ℕ} {ws : List (List UInt8)} (hws : ∀ w ∈ ws, w.length = n) :
    (message ws).flatten.length ≤ readCalls ws * n := by
  rw [length_flatten_of_length_eq fun w hw => hws w (message_subset ws hw)]
  refine Nat.mul_le_mul_right n ?_
  rw [readCalls_eq]
  exact Nat.le_add_right _ _

/-- What is presented is not empty, and the instance has its length. -/
theorem data_of_present {t t' : Transmission} {ws : List (List UInt8)} {more : Bool}
    (hws : ∀ w ∈ ws, w.length = t.chunkSize.toNat) (h : present t ws = some (more, t')) :
    more = true ∧ ∃ data, t'.data = some data ∧ data ≠ [] ∧ t'.bytes.toNat = data.length := by
  rw [present] at h
  split_ifs at h with hcond
  obtain ⟨rfl, rfl⟩ := Prod.mk.inj (Option.some.inj h)
  refine ⟨rfl, _, rfl, unpadded_ne_nil hcond.2, ?_⟩
  have hle : (unpadded (message ws).flatten).length ≤ (message ws).flatten.length :=
    (List.rdropWhile_prefix _ _).length_le
  have hmessage := length_flatten_message_le hws
  have hfits := hcond.1
  rw [UInt64.toNat_ofNat', Nat.mod_eq_of_lt (by omega)]

/-- What is received holds a byte, of which the status does not tell. -/
theorem not_readReported (hreads : ∀ p ∈ reads, p.length ≤ c.toNat)
    (ht : (initTransmission c endpoint.connection none 0).Usable 0) (hne : delivered reads ≠ []) :
    ¬ ReadReported c endpoint fresh reads := by
  rintro ⟨message, hread, hbytes⟩
  rw [ppRead] at hread
  have hpieces : ∀ p ∈ reads,
      p.length ≤ (initTransmission c endpoint.connection none 0).chunkSize.toNat := by
    rw [chunkSize_initTransmission, UInt16.toNat_toUInt32]
    exact hreads
  have hc : 0 < (initTransmission c endpoint.connection none 0).chunkSize.toNat := by
    obtain ⟨p, hp⟩ := List.exists_mem_of_ne_nil _ hne
    obtain ⟨hmem, hp⟩ := mem_delivered hp
    exact lt_of_lt_of_le (List.length_pos_iff.mpr hp) (hpieces p hmem)
  have hreceive := receive_eq fresh hpieces hc
    (fun _ => Transmission.refusal_eq_none_iff.mpr ht) hne
  have hslots := length_of_mem_slots fresh (fun p hp => hpieces p (mem_delivered hp).1) 0
  cases houtcome : receive fresh reads (initTransmission c endpoint.connection none 0) with
  | none =>
    rw [houtcome] at hread
    exact absurd hread (by simp)
  | some outcome =>
    obtain ⟨more, t'⟩ := outcome
    obtain ⟨rfl, data, hdata, hdatane, hlength⟩ :=
      data_of_present hslots (hreceive.symm.trans houtcome)
    rw [houtcome] at hread
    obtain rfl := Option.some.inj hread
    obtain ⟨buffer, hbuffer, hzero⟩ := hbytes rfl
    rw [hdata, Option.map_some, hlength, List.take_length] at hbuffer
    obtain rfl := Option.some.inj hbuffer
    exact hdatane (List.length_eq_zero_iff.mp hzero.symm)

/-- **The status of a received message.** It tells what it is to tell only when nothing is
received. -/
theorem readReported_iff (hreads : ∀ p ∈ reads, p.length ≤ c.toNat) :
    ReadReported c endpoint fresh reads ↔
      ¬ (initTransmission c endpoint.connection none 0).Usable 0 ∨ delivered reads = [] := by
  by_cases ht : (initTransmission c endpoint.connection none 0).Usable 0
  · simp only [ht, not_true_eq_false, false_or]
    refine ⟨fun h => ?_, fun hnil => readReported_of_delivered_nil fresh hnil ht⟩
    by_contra hne
    exact not_readReported fresh hreads ht hne h
  · simp only [ht, not_false_eq_true, true_or, iff_true]
    exact readReported_of_not_usable fresh ht

end Read

/-- **The two functions.** The status of `pp_send` tells what it is to tell if and only if an empty
message is handed over; that of `pp_read` if and only if the instance is refused or nothing is
received. -/
theorem reported_iff {heap : SendHeap} {c : UInt16} {endpoint : PpEndpoint} {data : Option Mem}
    {len : UInt64} (results : ℕ → ℤ) (fresh : ℕ → Mem) {reads : List (List UInt8)}
    (hreads : ∀ p ∈ reads, p.length ≤ c.toNat) :
    (SendReported heap c endpoint data len results ↔
      HandedOver heap c endpoint data len results ∧ len = 0) ∧
    (ReadReported c endpoint fresh reads ↔
      ¬ (initTransmission c endpoint.connection none 0).Usable 0 ∨ delivered reads = []) :=
  ⟨sendReported_iff results, readReported_iff fresh hreads⟩

/-- An endpoint over a connection without error. -/
def exampleEndpoint : PpEndpoint := endpointFromConnection ⟨0, none, 3, 0⟩

/-- An empty message, and a stream that is closed at once or delivers a byte. -/
theorem reported_nil :
    SendReported ⟨fun _ => 0, fun _ _ => 0⟩ 200 exampleEndpoint (some fun _ => 0) 0
      (fun _ => 200) ∧
    ReadReported 200 exampleEndpoint (fun _ _ => 0) [] ∧
    ¬ ReadReported 200 exampleEndpoint (fun _ _ => 0) [[5]] := by
  have hnil := @reported_iff ⟨fun _ => 0, fun _ _ => 0⟩ 200 exampleEndpoint (some fun _ => 0) 0
    (fun _ => 200) (fun _ _ => 0) [] (fun p hp => absurd hp List.not_mem_nil)
  have hbyte := @reported_iff ⟨fun _ => 0, fun _ _ => 0⟩ 200 exampleEndpoint (some fun _ => 0) 0
    (fun _ => 200) (fun _ _ => 0) [[5]] (by simp)
  refine ⟨hnil.1.mpr ⟨⟨rfl, by simp, by decide, fun _ _ => rfl⟩, rfl⟩, hnil.2.mpr (.inr rfl), ?_⟩
  rw [hbyte.2]
  exact not_or.mpr ⟨not_not.mpr ⟨rfl, rfl, by decide⟩, by decide⟩

/-- Of the four bytes of a message that is sent without a failure, the status does not tell. -/
theorem not_forall_reported : ¬ ∀ (heap : SendHeap) (c : UInt16) (endpoint : PpEndpoint)
    (data : Option Mem) (len : UInt64) (results : ℕ → ℤ),
    SendReported heap c endpoint data len results := by
  intro h
  have hsend := h ⟨fun _ => 0, fun _ _ => 0⟩ 200 exampleEndpoint
    (some (overlay (ascii "Test") fun _ => 0)) 4 fun _ => 200
  exact absurd ((sendReported_iff _).mp hsend).2 (by decide)

end PekarDrive
