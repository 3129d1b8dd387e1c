import PekarDrive.Transmission.Endpoints
import Mathlib.Data.List.Range
import Mathlib.Data.List.SplitBy

/-!
# Several messages over one connection

Calls of `pp_send` on one connection, and calls of `pp_read` at its other end, when every read
delivers one chunk. Nothing on the wire tells where a message ends: `pp_read` goes on until a chunk
ends in the pad byte, and the last byte of a chunk is what lies in the memory 72 bytes behind the
chunk buffer. So the stream is cut into messages behind the chunks where this byte is the pad byte
(`PekarDrive.messages`), wherever the calls of `pp_send` ended.

## Main definitions

* `PekarDrive.SentMessage`, `PekarDrive.ppReads`: the calls at both ends.
* `PekarDrive.messages`: the stream, cut into messages.

## Main results

* `PekarDrive.ppReads_eq_some_iff`: what calls of `pp_read` make of a stream.
* `PekarDrive.ppReads_ppSends`.
-/

namespace PekarDrive

open CMemory CText

/-- A message handed to `pp_send`, with the memory around the blocks of the call. -/
structure SentMessage where
  /-- The memory around the blocks of `transmit`. -/
  heap : SendHeap
  /-- The memory behind the data. -/
  behind : Mem
  /-- The data. -/
  data : List UInt8
  /-- The length fits an `unsigned`. -/
  length_lt : data.length < 2 ^ 32

namespace SentMessage

variable (c : UInt16) (m : SentMessage)

/-- The index of the last chunk. -/
def lastChunk : ℕ := m.data.length / (c.toNat - 72)

/-- The chunks of a message on the wire. -/
def chunks : List (List UInt8) :=
  (List.range (m.lastChunk c + 1)).map (wireChunk m.heap (c.toNat - 72) m.data)

/-- What the memory holds at the place of the last byte of a chunk. -/
def lastByte (i : ℕ) : UInt8 := m.heap.chunk i (c.toNat - 1)

end SentMessage

/-- Calls of `pp_read` one after the other, when the reads deliver the given pieces and then
nothing. -/
def ppReads (c : UInt16) (fresh : ℕ → ℕ → Mem) (endpoint : PpEndpoint) :
    ℕ → List (List UInt8) → Option (List PpMessage)
  | 0, _ => some []
  | n + 1, reads =>
    match ppRead c (fresh n) reads endpoint,
      receiveCalls (fresh n) reads (initTransmission c endpoint.connection none 0) with
    | some message, some calls =>
      (ppReads c fresh endpoint n (reads.drop calls)).map fun messages => message :: messages
    | _, _ => none

/-- A stream of chunks, cut behind the chunks that end in the pad byte. -/
def messages (ws : List (List UInt8)) : List (List (List UInt8)) :=
  ws.splitBy fun w _ => !endsPadded w

/-- `receive` returns from the chunks of a message: their size fits 32 bits, and `trim_padding`
finds a byte. -/
def Presentable (c : UInt16) (ws : List (List UInt8)) : Prop :=
  readCalls ws * c.toNat < 2 ^ 32 ∧ ∃ b ∈ ws.flatten, b ≠ pad

instance (c : UInt16) (ws : List (List UInt8)) : Decidable (Presentable c ws) :=
  inferInstanceAs (Decidable (_ ∧ _))

/-- What `pp_read` makes of the chunks of a message. -/
def presented (ws : List (List UInt8)) : PpMessage := ⟨⟨0, none, 0⟩, some (unpadded ws.flatten)⟩

/-! ### Cutting the stream -/

section Cut

theorem message_isPrefix (ws : List (List UInt8)) : message ws <+: ws := by
  induction ws with
  | nil => exact List.prefix_rfl
  | cons w ws ih =>
    rw [message]
    split
    · exact List.prefix_append [w] ws
    · exact (List.prefix_append_right_inj [w]).mpr ih

theorem message_ne_nil {ws : List (List UInt8)} (hne : ws ≠ []) : message ws ≠ [] := by
  obtain ⟨w, ws, rfl⟩ := List.exists_cons_of_ne_nil hne
  rw [message]
  split <;> exact List.cons_ne_nil _ _

theorem isChain_message (ws : List (List UInt8)) :
    (message ws).IsChain fun w _ => (!endsPadded w) = true := by
  induction ws with
  | nil => exact List.isChain_nil
  | cons w ws ih =>
    rw [message]
    split
    · exact List.isChain_singleton w
    · rename_i hw
      exact List.isChain_cons.mpr ⟨fun _ _ => by simpa using hw, ih⟩

/-- A message that does not end in the pad byte has nothing behind it. -/
theorem drop_length_message {ws : List (List UInt8)} (h : ws.any endsPadded = false) :
    ws.drop (message ws).length = [] := by
  induction ws with
  | nil => rfl
  | cons w ws ih =>
    rw [List.any_cons, Bool.or_eq_false_iff] at h
    rw [message, h.1, if_neg Bool.false_ne_true]
    exact ih h.2

theorem endsPadded_getLast_message {ws : List (List UInt8)} (h : ws.any endsPadded = true) :
    ∀ w ∈ (message ws).getLast?, endsPadded w = true := by
  induction ws with
  | nil => exact absurd h (by simp)
  | cons w ws ih =>
    rw [message]
    split
    · rename_i hw
      simpa using hw
    · rename_i hw
      rw [List.any_cons, Bool.eq_false_iff.mpr hw, Bool.false_or] at h
      have hne : ws ≠ [] := fun hnil => by simp [hnil] at h
      rw [List.getLast?_cons_of_ne_nil (message_ne_nil hne)]
      exact ih h

/-- The first message of a stream, and the rest of the stream. -/
theorem messages_eq_cons {ws : List (List UInt8)} (hne : ws ≠ []) :
    messages ws = message ws :: messages (ws.drop (message ws).length) := by
  have htake := List.prefix_iff_eq_take.mp (message_isPrefix ws)
  have hsplit : ws = message ws ++ ws.drop (message ws).length := calc
    ws = ws.take (message ws).length ++ ws.drop (message ws).length :=
      (List.take_append_drop _ _).symm
    _ = message ws ++ ws.drop (message ws).length := by rw [← htake]
  have hcut : messages (message ws ++ ws.drop (message ws).length) =
      messages (message ws) ++ messages (ws.drop (message ws).length) := by
    refine List.splitBy_append fun w hw w' hw' => ?_
    cases hany : ws.any endsPadded with
    | true => simpa using endsPadded_getLast_message hany w hw
    | false =>
      rw [drop_length_message hany] at hw'
      exact absurd hw' (by simp)
  nth_rewrite 1 [hsplit]
  rw [hcut, messages, List.splitBy_of_isChain (message_ne_nil hne) (isChain_message ws),
    List.singleton_append]

theorem readCalls_message (ws : List (List UInt8)) : readCalls (message ws) = readCalls ws := by
  induction ws with
  | nil => rfl
  | cons w ws ih =>
    rw [message, readCalls]
    split
    · rename_i hw
      rw [readCalls, if_pos hw]
    · rename_i hw
      rw [readCalls, if_neg hw, ih]

/-- Behind the calls of `conn_read` for a message lies the rest of the stream. -/
theorem drop_readCalls (ws : List (List UInt8)) :
    ws.drop (readCalls ws) = ws.drop (message ws).length := by
  rw [readCalls_eq]
  cases hany : ws.any endsPadded with
  | true => rfl
  | false =>
    rw [← List.drop_drop, drop_length_message hany]
    rfl

end Cut

/-! ### Reading -/

section Read

variable {c : UInt16} (hc : 72 < c.toNat) {endpoint : PpEndpoint}
  (hconn : endpoint.connection.error = 0) {ws : List (List UInt8)}
  (hlen : ∀ w ∈ ws, w.length = c.toNat)

include hc hconn hlen

/-- The calls of `conn_read` for one message. -/
theorem receiveCalls_eq (fresh : ℕ → Mem) (hfits : readCalls ws * c.toNat < 2 ^ 32) :
    receiveCalls fresh ws (initTransmission c endpoint.connection none 0) =
      some (readCalls ws) := by
  have hsize : (initTransmission c endpoint.connection none 0).chunkSize.toNat = c.toNat :=
    UInt16.toNat_toUInt32 c
  have hused : (initTransmission c endpoint.connection none 0).readUsed = 0 := rfl
  have hcalls : readCalls ws < 2 ^ 32 :=
    lt_of_le_of_lt (Nat.le_mul_of_pos_right _ (by omega)) hfits
  obtain ⟨hdelivered, hslots⟩ := slots_delivered_of_length_eq (by omega) fresh hlen
  obtain ⟨hloop, -⟩ := receiveLoop_zero (t := initTransmission c endpoint.connection none 0) fresh
    (fun w hw => (hlen w hw).trans hsize.symm |>.le) (by omega)
  rw [hsize, hdelivered, hslots] at hloop
  obtain ⟨behind, hloop⟩ := hloop hfits
  rw [← hsize] at hloop
  rw [receiveCalls, hused,
    refusal_of_error_eq_zero none 0 (error_initTransmission hc hconn none 0)]
  simp only [hloop, Option.map_some, toNat_counter hcalls]

/-- One call of `pp_read`, and those after it. -/
theorem ppReads_succ_eq_some_iff (fresh : ℕ → ℕ → Mem) (hne : ws ≠ []) (n : ℕ)
    (received : List PpMessage) :
    ppReads c fresh endpoint (n + 1) ws = some received ↔ Presentable c (message ws) ∧
      ∃ rest, ppReads c fresh endpoint n (ws.drop (message ws).length) = some rest ∧
        received = presented (message ws) :: rest := by
  have hread := ppRead_eq hc hconn (fresh n) hne hlen
  rw [ppReads, hread, Presentable, readCalls_message]
  by_cases hcond : readCalls ws * c.toNat < 2 ^ 32 ∧ ∃ b ∈ (message ws).flatten, b ≠ pad
  · rw [if_pos hcond, receiveCalls_eq hc hconn hlen (fresh n) hcond.1]
    simp only
    rw [drop_readCalls, Option.map_eq_some_iff]
    refine ⟨fun ⟨rest, hrest, heq⟩ => ⟨hcond, rest, hrest, heq.symm⟩, ?_⟩
    rintro ⟨-, rest, hrest, rfl⟩
    exact ⟨rest, hrest, rfl⟩
  · rw [if_neg hcond]
    exact iff_of_false (by simp) fun h => hcond h.1

end Read

/-- **Reading a stream.** As many calls of `pp_read` as there are messages return, if and only if
each message is presentable, and then with the messages. -/
theorem ppReads_eq_some_iff {c : UInt16} (hc : 72 < c.toNat) {endpoint : PpEndpoint}
    (hconn : endpoint.connection.error = 0) (fresh : ℕ → ℕ → Mem) {ws : List (List UInt8)}
    (hlen : ∀ w ∈ ws, w.length = c.toNat) (received : List PpMessage) :
    ppReads c fresh endpoint (messages ws).length ws = some received ↔
      (∀ g ∈ messages ws, Presentable c g) ∧ received = (messages ws).map presented := by
  induction hn : (messages ws).length generalizing ws received with
  | zero =>
    rw [List.length_eq_zero_iff] at hn
    rw [hn, ppReads, Option.some.injEq, eq_comm]
    simp
  | succ n ih =>
    have hne : ws ≠ [] := by
      rintro rfl
      exact absurd hn (by simp [messages])
    have hrest := messages_eq_cons hne
    rw [hrest, List.length_cons, Nat.succ.injEq] at hn
    have hdrop : ∀ w ∈ ws.drop (message ws).length, w.length = c.toNat := fun w hw =>
      hlen w (List.mem_of_mem_drop hw)
    rw [ppReads_succ_eq_some_iff hc hconn hlen fresh hne, hrest, List.forall_mem_cons,
      List.map_cons]
    constructor
    · rintro ⟨hfirst, rest, hread, rfl⟩
      obtain ⟨hall, rfl⟩ := (ih hdrop rest hn).mp hread
      exact ⟨⟨hfirst, hall⟩, rfl⟩
    · rintro ⟨⟨hfirst, hall⟩, rfl⟩
      exact ⟨hfirst, _, (ih hdrop _ hn).mpr ⟨hall, rfl⟩, rfl⟩

/-! ### Where the messages end -/

section Ends

variable {c : UInt16} (hc : 72 < c.toNat)

include hc

theorem length_of_mem_chunks (m : SentMessage) : ∀ w ∈ m.chunks c, w.length = c.toNat := by
  intro w hw
  obtain ⟨i, -, rfl⟩ := List.mem_map.mp hw
  rw [length_wireChunk, Nat.sub_add_cancel hc.le]

/-- The last byte of a chunk lies behind its buffer. -/
theorem endsPadded_wireChunk_iff (m : SentMessage) (i : ℕ) :
    endsPadded (wireChunk m.heap (c.toNat - 72) m.data i) = true ↔ m.lastByte c i = pad := by
  have hlast : (window (m.heap.chunk i) (c.toNat - 72) 72).getLast? = some (m.lastByte c i) := by
    rw [List.getLast?_eq_getElem?, length_window, getElem?_window (by decide), SentMessage.lastByte]
    congr 2
    omega
  rw [endsPadded_iff, wireChunk, List.getLast?_append, hlast, Option.some_or, Option.some.injEq]

omit hc in
theorem chunks_ne_nil (m : SentMessage) : m.chunks c ≠ [] := by simp [SentMessage.chunks]

theorem isChain_chunks_iff (m : SentMessage) :
    (m.chunks c).IsChain (fun w _ => (!endsPadded w) = true) ↔
      ∀ i < m.lastChunk c, m.lastByte c i ≠ pad := by
  rw [SentMessage.chunks, List.isChain_map, ← Nat.succ_eq_add_one, List.isChain_range_succ]
  refine forall₂_congr fun i _ => ?_
  rw [ne_eq, ← endsPadded_wireChunk_iff hc, Bool.not_eq_true', Bool.not_eq_true]

theorem endsPadded_getLast_chunks_iff (m : SentMessage) :
    endsPadded ((m.chunks c).getLast (chunks_ne_nil m)) = true ↔
      m.lastByte c (m.lastChunk c) = pad := by
  rw [← endsPadded_wireChunk_iff hc]
  simp [SentMessage.chunks, List.range_succ]

/-- The messages are those that were sent if and only if the pad byte lies behind the last buffer of
each message that another one follows, and behind no other buffer. -/
theorem messages_chunks_iff (sent : List SentMessage) :
    messages (sent.map (SentMessage.chunks c)).flatten = sent.map (SentMessage.chunks c) ↔
      (∀ m ∈ sent, ∀ i < m.lastChunk c, m.lastByte c i ≠ pad) ∧
        ∀ m ∈ sent.dropLast, m.lastByte c (m.lastChunk c) = pad := by
  have hnil : [] ∉ sent.map (SentMessage.chunks c) := by
    rintro hmem
    obtain ⟨m, -, hm⟩ := List.mem_map.mp hmem
    exact chunks_ne_nil m hm
  have hends : (sent.map (SentMessage.chunks c)).IsChain
      (fun a b => ∃ ha hb, (fun w (_ : List UInt8) => !endsPadded w) (a.getLast ha) (b.head hb) =
        false) ↔ ∀ m ∈ sent.dropLast, m.lastByte c (m.lastChunk c) = pad := by
    induction sent with
    | nil => simp
    | cons m sent ih =>
      cases sent with
      | nil => simp
      | cons m' sent =>
        have hnil' : [] ∉ (m' :: sent).map (SentMessage.chunks c) := fun h =>
          hnil (List.mem_cons_of_mem _ h)
        rw [List.map_cons, List.map_cons, List.isChain_cons_cons, ← List.map_cons, ih hnil',
          List.dropLast_cons_cons, List.forall_mem_cons]
        refine and_congr_left fun _ => ⟨?_, ?_⟩
        · rintro ⟨_, _, h⟩
          exact (endsPadded_getLast_chunks_iff hc m).mp (by simpa using h)
        · intro h
          refine ⟨chunks_ne_nil m, chunks_ne_nil m', ?_⟩
          simpa using (endsPadded_getLast_chunks_iff hc m).mpr h
  have hchunks : (∀ g ∈ sent.map (SentMessage.chunks c),
      g.IsChain fun w _ => (!endsPadded w) = true) ↔
        ∀ m ∈ sent, ∀ i < m.lastChunk c, m.lastByte c i ≠ pad := by
    rw [List.forall_mem_map]
    exact forall₂_congr fun m _ => isChain_chunks_iff hc m
  rw [messages, List.splitBy_eq_iff, hends, hchunks]
  exact ⟨fun h => h.2.2, fun h => ⟨rfl, hnil, h⟩⟩

end Ends

/-- **Several messages over one connection.** Every `pp_send` writes the chunks of its message. The
calls of `pp_read` return the messages into which the whole stream is cut, as long as each of these
is presentable. They are the messages that were sent if and only if the memory holds the pad byte
behind the last buffer of each message that another one follows, and behind no other buffer. -/
theorem ppReads_ppSends {c : UInt16} (hc : 72 < c.toNat) {sender receiver : PpEndpoint}
    (hsender : sender.connection.error = 0) (hreceiver : receiver.connection.error = 0)
    (fresh : ℕ → ℕ → Mem) (sent : List SentMessage) :
    (∀ m ∈ sent, ppSend m.heap c sender (some (overlay m.data m.behind))
        (UInt64.ofNat m.data.length) = some (⟨0, none, 0⟩, m.chunks c)) ∧
      (∀ received, ppReads c fresh receiver
          (messages (sent.map (SentMessage.chunks c)).flatten).length
          (sent.map (SentMessage.chunks c)).flatten = some received ↔
        (∀ g ∈ messages (sent.map (SentMessage.chunks c)).flatten, Presentable c g) ∧
          received = (messages (sent.map (SentMessage.chunks c)).flatten).map presented) ∧
      (messages (sent.map (SentMessage.chunks c)).flatten = sent.map (SentMessage.chunks c) ↔
        (∀ m ∈ sent, ∀ i < m.lastChunk c, m.lastByte c i ≠ pad) ∧
          ∀ m ∈ sent.dropLast, m.lastByte c (m.lastChunk c) = pad) := by
  have hlen : ∀ w ∈ (sent.map (SentMessage.chunks c)).flatten, w.length = c.toNat := by
    intro w hw
    obtain ⟨g, hg, hw⟩ := List.mem_flatten.mp hw
    obtain ⟨m, -, rfl⟩ := List.mem_map.mp hg
    exact length_of_mem_chunks hc m w hw
  exact ⟨fun m _ => ppSend_eq hc hsender m.behind m.length_lt,
    ppReads_eq_some_iff hc hreceiver fresh hlen, messages_chunks_iff hc sent⟩

/-- Two messages, with pad bytes behind the buffers. -/
def exampleSent : List SentMessage :=
  [⟨⟨fun _ => 0, fun _ _ => pad⟩, fun _ => 0, ascii "ab", by decide⟩,
    ⟨⟨fun _ => 0, fun _ _ => pad⟩, fun _ => 0, ascii "cd", by decide⟩]

/-- Both are read as they were sent. -/
theorem ppReads_ppSends_exampleSent :
    ppReads 80 (fun _ _ _ => 0) exampleEndpoint 2
      (exampleSent.map (SentMessage.chunks 80)).flatten =
        some (exampleSent.map fun m => ⟨⟨0, none, 0⟩, some m.data⟩) := by
  obtain ⟨-, hread, hends⟩ := ppReads_ppSends (c := 80) (by decide)
    (show exampleEndpoint.connection.error = 0 from rfl)
    (show exampleEndpoint.connection.error = 0 from rfl) (fun _ _ _ => 0) exampleSent
  have hmessages := hends.mpr ⟨by decide, by decide⟩
  rw [hmessages] at hread
  refine (hread _).mpr ⟨?_, ?_⟩
  · decide
  · decide

end PekarDrive
