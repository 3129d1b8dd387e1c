import PekarDrive.Transmission.Partition
import PekarDrive.Transmission.Segments
import PekarDrive.Transmission.Status

/-!
# A message between two endpoints

`pp_send` at one endpoint and `pp_read` at the other, when every read delivers one chunk. A chunk on
the wire is a block of the data, filled up with the pad byte, and the 72 bytes that lie behind the
chunk buffer. `pp_read` takes these for data: it goes on until one of them is the pad byte at the
end of a chunk, and drops the pad bytes at the end of what it has read.

So a message of fewer bytes than a chunk comes out as it went in if and only if it does not end in
the pad byte and the memory behind the first buffer happens to hold what the buffer has no room for,
and then pad bytes. In a longer message, the bytes behind the first chunk would have to be those 72
places in front of them.

## Main definitions

* `PekarDrive.wireChunk`: a chunk on the wire.

## Main results

* `PekarDrive.ppSend_eq`, `PekarDrive.ppRead_eq`: what is written, and what is read.
* `PekarDrive.ppRead_ppSend`.
-/

namespace PekarDrive

open CMemory CText

/-- The chunk with the index `i` on the wire, when a buffer has room for `size` bytes. -/
def wireChunk (heap : SendHeap) (size : ℕ) (data : List UInt8) (i : ℕ) : List UInt8 :=
  ((data.drop (i * size)).take size).rightpad size pad ++ window (heap.chunk i) size 72

theorem length_wireChunk (heap : SendHeap) (size : ℕ) (data : List UInt8) (i : ℕ) :
    (wireChunk heap size data i).length = size + 72 := by
  have hle : ((data.drop (i * size)).take size).length ≤ size := by
    rw [List.length_take]
    exact Nat.min_le_left _ _
  rw [wireChunk, List.length_append, length_window, List.rightpad, List.length_append,
    List.length_replicate, Nat.add_sub_cancel' hle]

/-! ### Sending -/

section Send

variable (heap : SendHeap) {t : Transmission} {data : List UInt8}

/-- A chunk is its buffer and what lies behind it. -/
theorem connWrite_fillBuffer (hchunk : t.dataSize.toNat + 72 = t.chunkSize.toNat)
    (i size : UInt32) :
    connWrite (fillBuffer (heap.chunk i.toNat) (overlay data heap.behindData) (i * t.dataSize)
        t.dataSize size) t.chunkSize.toNat =
      payload heap t data i size ++ window (heap.chunk i.toNat) t.dataSize.toNat 72 := by
  rw [connWrite, ← hchunk, window_add, Nat.zero_add, payload]
  refine congrArg _ (window_congr fun j hj _ => ?_)
  exact fillBuffer_of_le _ _ _ hj

/-- **The chunks on the wire.** -/
theorem transmitChunks_eq (hchunk : t.dataSize.toNat + 72 = t.chunkSize.toNat)
    (hd : 0 < t.dataSize.toNat) (hbytes : t.bytes.toNat = data.length)
    (h : Addressable data.length t.dataSize.toNat) :
    transmitChunks heap t data = (List.range (data.length / t.dataSize.toNat + 1)).map
      (wireChunk heap t.dataSize.toNat data) := by
  have hunfold : transmitChunks heap t data =
      (List.range t.iterations.toNat).map (fun i => connWrite (fillBuffer
          (heap.chunk (UInt32.ofNat i).toNat) (overlay data heap.behindData)
          (UInt32.ofNat i * t.dataSize) t.dataSize t.dataSize) t.chunkSize.toNat) ++
        [connWrite (fillBuffer (heap.chunk t.iterations.toNat) (overlay data heap.behindData)
          (t.iterations * t.dataSize) t.dataSize t.remaining) t.chunkSize.toNat] := rfl
  rw [hunfold, connWrite_fillBuffer heap hchunk t.iterations, payload_remaining heap hbytes h hd,
    toNat_iterations_of_addressable hbytes h, List.range_succ, List.map_append, List.map_singleton]
  refine congrArg₂ (· ++ ·) (List.map_congr_left fun i hi => ?_) (congrArg (fun w => [w]) ?_)
  · have hlt := List.mem_range.mp hi
    have hmul : (i + 1) * t.dataSize.toNat ≤ data.length := (Nat.le_div_iff_mul_le hd).mp hlt
    rw [Nat.succ_mul] at hmul
    have hfull : ((data.drop (i * t.dataSize.toNat)).take t.dataSize.toNat).length =
        t.dataSize.toNat := by
      rw [List.length_take, List.length_drop]
      omega
    rw [connWrite_fillBuffer heap hchunk, payload_dataSize heap hbytes h hd hlt,
      toNat_counter (lt_trans hlt h.1), wireChunk, List.rightpad, hfull, Nat.sub_self,
      List.replicate_zero, List.append_nil]
  · have hsplit : data.length / t.dataSize.toNat * t.dataSize.toNat +
        data.length % t.dataSize.toNat = data.length := Nat.div_add_mod' _ _
    have hrest : (data.drop (data.length / t.dataSize.toNat * t.dataSize.toNat)).length =
        data.length % t.dataSize.toNat := by
      rw [List.length_drop]
      omega
    have htake := List.take_of_length_le (hrest.trans_le (Nat.mod_lt _ hd).le)
    rw [wireChunk, htake, List.rightpad, hrest]

variable {heap}

/-- **What is written.** -/
theorem ppSend_eq {c : UInt16} (hc : 72 < c.toNat) {endpoint : PpEndpoint}
    (hconn : endpoint.connection.error = 0) (behind : Mem) (hn : data.length < 2 ^ 32) :
    ppSend heap c endpoint (some (overlay data behind)) (UInt64.ofNat data.length) =
      some (⟨0, none, 0⟩, (List.range (data.length / (c.toNat - 72) + 1)).map
        (wireChunk heap (c.toNat - 72) data)) := by
  have hsize : (sendingFrom c endpoint.connection behind data).dataSize.toNat = c.toNat - 72 :=
    toNat_dataSize_initTransmission hc _ _ _
  have hchunk : (sendingFrom c endpoint.connection behind data).dataSize.toNat + 72 =
      (sendingFrom c endpoint.connection behind data).chunkSize.toNat := by
    rw [hsize]
    exact Nat.sub_add_cancel hc.le
  have haddressable : Addressable data.length
      (sendingFrom c endpoint.connection behind data).dataSize.toNat := by
    refine ⟨lt_of_le_of_lt (Nat.div_le_self _ _) hn, ?_⟩
    rcases Nat.eq_zero_or_pos data.length with hzero | hpos
    · exact .inl hzero
    · have hmul := Nat.div_mul_le_self (data.length - 1)
        (sendingFrom c endpoint.connection behind data).dataSize.toNat
      exact .inr (by omega)
  have hchunks := transmitChunks_eq heap hchunk (by omega)
    (toNat_bytes_sendingFrom endpoint.connection behind (by omega)) haddressable
  rw [hsize] at hchunks
  have hcount : (UInt64.ofNat data.length).toNat = data.length :=
    UInt64.toNat_ofNat'.trans (Nat.mod_eq_of_lt (by omega))
  have hdata : (sendingFrom c endpoint.connection behind data).data = some data := by
    change some (window (overlay data behind) 0 (UInt64.ofNat data.length).toNat) = some data
    rw [hcount, window_overlay_zero]
    simp
  have herror := error_initTransmission hc hconn (some (overlay data behind))
    (UInt64.ofNat data.length)
  have htransmit : transmit heap (sendingFrom c endpoint.connection behind data) =
      (true, { sendingFrom c endpoint.connection behind data with writeUsed := 1 },
        (List.range (data.length / (c.toNat - 72) + 1)).map
          (wireChunk heap (c.toNat - 72) data)) := by
    have hused : (sendingFrom c endpoint.connection behind data).writeUsed = 0 := rfl
    have href := refusal_of_error_eq_zero (some (overlay data behind)) (UInt64.ofNat data.length)
      herror (lit "Transmission instance already used for writing.")
    rw [transmit, hused, sendingFrom, href, ← sendingFrom]
    simp only [hdata, hchunks]
  rw [sendingFrom] at htransmit
  simp only [ppSend, herror, ne_eq, not_true_eq_false, if_false, htransmit, if_true,
    Option.bind_some]
  rw [closeTransmission, if_neg fun h => absurd rfl h.1]
  rfl

end Send

/-! ### Reading -/

/-- Chunks are delivered, and fill their slots. -/
theorem slots_delivered_of_length_eq {c : ℕ} (hc : 0 < c) (fresh : ℕ → Mem)
    {chunks : List (List UInt8)} (hlen : ∀ w ∈ chunks, w.length = c) :
    delivered chunks = chunks ∧ slots c fresh 0 chunks = chunks := by
  constructor
  · exact delivered_eq_self fun w hw => List.ne_nil_of_length_pos (by rwa [hlen w hw])
  · have happend := slots_append fresh hlen [] 0
    rwa [List.append_nil, slots, List.append_nil] at happend

/-- **What is read**, when every read delivers a chunk. -/
theorem ppRead_eq {c : UInt16} (hc : 72 < c.toNat) {endpoint : PpEndpoint}
    (hconn : endpoint.connection.error = 0) (fresh : ℕ → Mem) {chunks : List (List UInt8)}
    (hne : chunks ≠ []) (hlen : ∀ w ∈ chunks, w.length = c.toNat) :
    ppRead c fresh chunks endpoint =
      if readCalls chunks * c.toNat < 2 ^ 32 ∧ ∃ b ∈ (message chunks).flatten, b ≠ pad then
        some ⟨⟨0, none, 0⟩, some (unpadded (message chunks).flatten)⟩
      else none := by
  have hsize : (initTransmission c endpoint.connection none 0).chunkSize.toNat = c.toNat :=
    UInt16.toNat_toUInt32 c
  obtain ⟨hdelivered, hslots⟩ := slots_delivered_of_length_eq (by omega) fresh hlen
  have hreceive := receive_eq (t := initTransmission c endpoint.connection none 0) fresh
    (fun w hw => (hlen w hw).trans hsize.symm |>.le) (by omega)
    (refusal_of_error_eq_zero none 0 (error_initTransmission hc hconn none 0))
    (by rwa [hdelivered])
  rw [hsize, hdelivered, hslots, present, hsize] at hreceive
  have hshort := (List.rdropWhile_prefix (· == pad) (message chunks).flatten).length_le
  have hmessage := length_flatten_message_le hlen
  rw [ppRead, hreceive]
  split_ifs with hcond
  · have hcount : (UInt64.ofNat (unpadded (message chunks).flatten).length).toNat =
        (unpadded (message chunks).flatten).length :=
      UInt64.toNat_ofNat'.trans (Nat.mod_eq_of_lt (by rw [unpadded]; omega))
    simp only [Option.map_some, hcount, List.take_length]
  · rfl

/-- What is left of a text without the pad bytes at its end. -/
theorem unpadded_eq_iff {bs data : List UInt8} : unpadded bs = data ↔
    data.getLast? ≠ some pad ∧ ∃ n, bs = data ++ List.replicate n pad := by
  have hself : ∀ {l : List UInt8}, l.getLast? ≠ some pad → unpadded l = l := by
    intro l hl
    refine List.rdropWhile_eq_self_iff.mpr fun hne hlast => hl ?_
    rw [List.getLast?_eq_some_getLast hne, beq_iff_eq.mp hlast]
  constructor
  · rintro rfl
    constructor
    · intro hlast
      have hne : bs.rdropWhile (· == pad) ≠ [] := by
        intro hnil
        rw [unpadded, hnil] at hlast
        exact absurd hlast (by simp)
      rw [unpadded, List.getLast?_eq_some_getLast hne] at hlast
      exact List.rdropWhile_last_not _ _ hne (beq_iff_eq.mpr (Option.some.inj hlast))
    · refine ⟨(bs.rtakeWhile (· == pad)).length, ?_⟩
      have hall : bs.rtakeWhile (· == pad) =
          List.replicate (bs.rtakeWhile (· == pad)).length pad :=
        List.eq_replicate_of_mem fun b hb =>
          beq_iff_eq.mp (List.mem_rtakeWhile_imp (p := (· == pad)) hb)
      rw [← hall, unpadded, List.rdropWhile_append_rtakeWhile]
  · rintro ⟨hlast, n, rfl⟩
    rw [unpadded_append_replicate, hself hlast]

/-- A last byte that is not the pad byte is kept. -/
theorem length_le_unpadded_append {w : List UInt8} (hne : w ≠ []) (hw : endsPadded w = false)
    (rest : List UInt8) : w.length ≤ (unpadded (w ++ rest)).length := by
  have hb : w.getLast hne ≠ pad := by
    intro hpad
    rw [endsPadded, List.getLast?_eq_some_getLast hne, hpad] at hw
    exact absurd hw (by simp)
  have hlt := lt_length_unpadded w.dropLast hb rest
  rw [List.length_dropLast, ← List.singleton_append, ← List.append_assoc,
    List.dropLast_append_getLast] at hlt
  have hpos := List.length_pos_iff.mpr hne
  omega

section Read

variable {c : UInt16} (hc : 72 < c.toNat) {endpoint : PpEndpoint}
  (hconn : endpoint.connection.error = 0) {fresh : ℕ → Mem} {w w' : List UInt8}
  {ws : List (List UInt8)} {data : List UInt8}

include hc hconn

/-- A message of fewer bytes than a chunk is read from the first chunk. -/
theorem ppRead_eq_some_iff (hlen : ∀ v ∈ w :: ws, v.length = c.toNat)
    (hshort : data.length < c.toNat) :
    ppRead c fresh (w :: ws) endpoint = some ⟨⟨0, none, 0⟩, some data⟩ ↔
      data ≠ [] ∧ data.getLast? ≠ some pad ∧
        w = data ++ List.replicate (c.toNat - data.length) pad := by
  have hw : w.length = c.toNat := hlen w List.mem_cons_self
  have hwne : w ≠ [] := List.ne_nil_of_length_pos (by omega)
  have hone : endsPadded w = true → (message (w :: ws)).flatten = w ∧ readCalls (w :: ws) = 1 := by
    intro hpadded
    rw [message, readCalls, if_pos hpadded, if_pos hpadded, List.flatten_singleton]
    exact ⟨rfl, rfl⟩
  rw [ppRead_eq hc hconn fresh (List.cons_ne_nil w ws) hlen]
  constructor
  · intro h
    split_ifs at h with hcond
    obtain rfl : unpadded (message (w :: ws)).flatten = data := by simpa using h
    have hpadded : endsPadded w = true := by
      by_contra hnot
      rw [Bool.not_eq_true] at hnot
      rw [message, hnot, if_neg Bool.false_ne_true, List.flatten_cons] at hshort
      have := length_le_unpadded_append hwne hnot (message ws).flatten
      omega
    rw [(hone hpadded).1] at hcond hshort ⊢
    obtain ⟨hlast, n, hn⟩ := unpadded_eq_iff.mp (rfl : unpadded w = unpadded w)
    have hcount := congrArg List.length hn
    rw [List.length_append, List.length_replicate, hw] at hcount
    refine ⟨unpadded_ne_nil hcond.2, hlast, ?_⟩
    rwa [hcount, Nat.add_sub_cancel_left]
  · rintro ⟨hne, hlast, hdata⟩
    have hpadded : endsPadded w = true := by
      obtain ⟨n, hn⟩ := Nat.exists_eq_add_of_lt hshort
      rw [endsPadded_iff, hdata, hn, Nat.add_assoc, Nat.add_sub_cancel_left, List.replicate_succ',
        ← List.append_assoc, List.getLast?_concat]
    obtain ⟨hmessage, hcalls⟩ := hone hpadded
    have hbyte : ∃ b ∈ w, b ≠ pad := by
      refine ⟨data.getLast hne, ?_, fun heq => hlast ?_⟩
      · rw [hdata]
        exact List.mem_append_left _ (List.getLast_mem hne)
      · rw [List.getLast?_eq_some_getLast hne, heq]
    have hfits : 1 * c.toNat < 2 ^ 32 := by
      have hc16 := c.toNat_lt
      omega
    rw [hmessage, hcalls, if_pos ⟨hfits, hbyte⟩, unpadded_eq_iff.mpr ⟨hlast, _, hdata⟩]

/-- A longer message is read from the first two chunks, and maybe others. -/
theorem exists_append_of_ppRead (hlen : ∀ v ∈ w :: w' :: ws, v.length = c.toNat)
    (hlong : c.toNat ≤ data.length)
    (h : ppRead c fresh (w :: w' :: ws) endpoint = some ⟨⟨0, none, 0⟩, some data⟩) :
    ∃ n rest, data ++ List.replicate n pad = w ++ (w' ++ rest) := by
  have hw : w.length = c.toNat := hlen w List.mem_cons_self
  rw [ppRead_eq hc hconn fresh (List.cons_ne_nil w _) hlen] at h
  split_ifs at h
  have hdata : unpadded (message (w :: w' :: ws)).flatten = data := by simpa using h
  obtain ⟨hlast, n, hn⟩ := unpadded_eq_iff.mp hdata
  have hnot : endsPadded w = false := by
    by_contra hpadded
    rw [Bool.not_eq_false] at hpadded
    rw [message, if_pos hpadded, List.flatten_singleton] at hn
    have hcount := congrArg List.length hn
    rw [List.length_append, List.length_replicate, hw] at hcount
    obtain rfl : n = 0 := by omega
    rw [List.replicate_zero, List.append_nil] at hn
    exact hlast (hn ▸ endsPadded_iff.mp hpadded)
  refine ⟨n, ?_⟩
  rw [← hn, message, hnot, if_neg Bool.false_ne_true, List.flatten_cons, message]
  split
  · exact ⟨[], by rw [List.flatten_singleton, List.append_nil]⟩
  · exact ⟨_, by rw [List.flatten_cons]⟩

end Read

/-! ### From one endpoint to the other -/

section RoundTrip

variable {heap : SendHeap} {size : ℕ} {data : List UInt8}

/-- The first chunk is the message, filled up with the pad byte, if the memory behind its buffer
holds what the buffer has no room for. -/
theorem wireChunk_zero_eq_iff (hshort : data.length < size + 72) :
    wireChunk heap size data 0 = data ++ List.replicate (size + 72 - data.length) pad ↔
      window (heap.chunk 0) size 72 = (data.drop size).rightpad 72 pad := by
  rw [wireChunk, Nat.zero_mul, List.drop_zero, List.rightpad, List.rightpad, List.length_take,
    List.length_drop]
  rcases Nat.le_total data.length size with hle | hle
  · rw [List.take_of_length_le hle, Nat.min_eq_right hle, List.drop_eq_nil_of_le hle,
      Nat.sub_eq_zero_of_le hle, List.append_assoc, List.append_cancel_left_eq, List.nil_append,
      Nat.sub_zero]
    have hsplit : size + 72 - data.length = (size - data.length) + 72 := by omega
    rw [hsplit, List.replicate_add, List.append_cancel_left_eq]
  · have hdata : data = data.take size ++ data.drop size := (List.take_append_drop size data).symm
    have hcount : size + 72 - data.length = 72 - (data.length - size) := by omega
    rw [Nat.min_eq_left hle, Nat.sub_self, List.replicate_zero, List.append_nil, hcount]
    nth_rewrite 2 [hdata]
    rw [List.append_assoc, List.append_cancel_left_eq]

/-- In a message that is longer than the first chunk, the chunk holds its first bytes, and the
next one has the bytes behind the first block. -/
theorem of_append_eq_wireChunk {n : ℕ} {rest : List UInt8} (hlong : size + 72 ≤ data.length)
    (h : data ++ List.replicate n pad =
      wireChunk heap size data 0 ++ (wireChunk heap size data 1 ++ rest)) :
    window (heap.chunk 0) size 72 = (data.drop size).take 72 ∧
      ∀ j, size + 72 ≤ j → j < size + 72 + size → j < data.length → data[j]? = data[j - 72]? := by
  have hfull : (data.take size).length = size := List.length_take_of_le (by omega)
  have hfirst : wireChunk heap size data 0 = data.take size ++ window (heap.chunk 0) size 72 := by
    rw [wireChunk, Nat.zero_mul, List.drop_zero, List.rightpad, hfull, Nat.sub_self,
      List.replicate_zero, List.append_nil]
  have hbehind : data.drop size ++ List.replicate n pad =
      window (heap.chunk 0) size 72 ++ (wireChunk heap size data 1 ++ rest) := by
    nth_rewrite 1 [← List.take_append_drop size data] at h
    rw [hfirst, List.append_assoc, List.append_assoc] at h
    exact List.append_cancel_left h
  have hdrop : 72 ≤ (data.drop size).length := by
    rw [List.length_drop]
    omega
  have htake := congrArg (List.take 72) hbehind
  rw [List.take_append_of_le_length hdrop, List.take_left' (length_window _ _ _)] at htake
  refine ⟨htake.symm, fun j hj hlt hdata => ?_⟩
  -- what lies behind the first chunk starts with the second one
  have hnext := congrArg (List.drop 72) hbehind
  rw [List.drop_append_of_le_length hdrop, List.drop_left' (length_window _ _ _),
    List.drop_drop] at hnext
  have hj' : j - (size + 72) < (data.drop (size + 72)).length := by
    rw [List.length_drop]
    omega
  have hblock : j - (size + 72) < ((data.drop (1 * size)).take size).length := by
    rw [List.length_take, List.length_drop]
    omega
  calc data[j]? = (data.drop (size + 72))[j - (size + 72)]? := by
        rw [List.getElem?_drop, Nat.add_sub_cancel' hj]
    _ = (wireChunk heap size data 1 ++ rest)[j - (size + 72)]? := by
        rw [← hnext, List.getElem?_append_left hj']
    _ = ((data.drop (1 * size)).take size)[j - (size + 72)]? := by
        rw [wireChunk, List.rightpad, List.append_assoc, List.append_assoc,
          List.getElem?_append_left hblock]
    _ = data[j - 72]? := by
        rw [List.getElem?_take_of_lt (by omega), List.getElem?_drop]
        congr 1
        omega

end RoundTrip

/-- **From endpoint to endpoint.** A message of fewer bytes than a chunk is read as it was sent if
and only if it does not end in the pad byte and the memory behind the first buffer holds what the
buffer has no room for, and then pad bytes. A longer one is not, unless that memory holds the next
72 bytes of the message and the bytes behind the first chunk are those 72 places in front of
them. -/
theorem ppRead_ppSend {c : UInt16} (hc : 72 < c.toNat) {sender receiver : PpEndpoint}
    (hsender : sender.connection.error = 0) (hreceiver : receiver.connection.error = 0)
    (heap : SendHeap) (behind : Mem) (fresh : ℕ → Mem) {data : List UInt8}
    (hn : data.length < 2 ^ 32) :
    ∃ chunks, ppSend heap c sender (some (overlay data behind)) (UInt64.ofNat data.length) =
        some (⟨0, none, 0⟩, chunks) ∧
      (data.length < c.toNat →
        (ppRead c fresh chunks receiver = some ⟨⟨0, none, 0⟩, some data⟩ ↔
          data ≠ [] ∧ data.getLast? ≠ some pad ∧
            window (heap.chunk 0) (c.toNat - 72) 72 =
              (data.drop (c.toNat - 72)).rightpad 72 pad)) ∧
      (c.toNat ≤ data.length →
        ppRead c fresh chunks receiver = some ⟨⟨0, none, 0⟩, some data⟩ →
          window (heap.chunk 0) (c.toNat - 72) 72 = (data.drop (c.toNat - 72)).take 72 ∧
            ∀ j, c.toNat ≤ j → j < c.toNat + (c.toNat - 72) → j < data.length →
              data[j]? = data[j - 72]?) := by
  have hsize : c.toNat - 72 + 72 = c.toNat := Nat.sub_add_cancel hc.le
  have hlen : ∀ l : List ℕ, ∀ w ∈ l.map (wireChunk heap (c.toNat - 72) data),
      w.length = c.toNat := by
    intro l w hw
    obtain ⟨i, -, rfl⟩ := List.mem_map.mp hw
    rw [length_wireChunk, hsize]
  refine ⟨_, ppSend_eq hc hsender behind hn, fun hshort => ?_, fun hlong hread => ?_⟩
  · have hrange := List.range_succ_eq_map (n := data.length / (c.toNat - 72))
    rw [hrange, List.map_cons, ppRead_eq_some_iff hc hreceiver
      (by rw [← List.map_cons, ← hrange]; exact hlen _) hshort,
      ← wireChunk_zero_eq_iff (by rwa [hsize]), hsize]
  · have hpos : 0 < data.length / (c.toNat - 72) := Nat.div_pos (by omega) (by omega)
    obtain ⟨q, hq⟩ := Nat.exists_eq_add_of_lt hpos
    have hrange : List.range (data.length / (c.toNat - 72) + 1) =
        0 :: 1 :: ((List.range q).map Nat.succ).map Nat.succ := by
      rw [hq, Nat.zero_add, List.range_succ_eq_map, List.range_succ_eq_map]
      rfl
    have hall := hlen (List.range (data.length / (c.toNat - 72) + 1))
    rw [hrange, List.map_cons, List.map_cons] at hread hall
    obtain ⟨n, rest, happend⟩ := exists_append_of_ppRead hc hreceiver hall hlong hread
    have hboth := of_append_eq_wireChunk (by rwa [hsize]) happend
    rwa [hsize] at hboth

/-- The message of the tests, with pad bytes behind the buffer. -/
theorem ppRead_ppSend_test : ∃ chunks,
    ppSend ⟨fun _ => 0, fun _ _ => pad⟩ 200 exampleEndpoint
        (some (overlay (ascii "Test") fun _ => 0)) (UInt64.ofNat (ascii "Test").length) =
      some (⟨0, none, 0⟩, chunks) ∧
    ppRead 200 (fun _ _ => 0) chunks exampleEndpoint =
      some ⟨⟨0, none, 0⟩, some (ascii "Test")⟩ := by
  obtain ⟨chunks, hsend, hread, -⟩ := ppRead_ppSend (c := 200) (by decide)
    (show exampleEndpoint.connection.error = 0 from rfl)
    (show exampleEndpoint.connection.error = 0 from rfl) ⟨fun _ => 0, fun _ _ => pad⟩
    (fun _ => 0) (fun _ _ => 0) (show (ascii "Test").length < 2 ^ 32 by decide)
  refine ⟨chunks, hsend, (hread (by decide)).mpr ⟨by decide, by decide, ?_⟩⟩
  exact (window_const pad _ 72).trans (by decide)

end PekarDrive
