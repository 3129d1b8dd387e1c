import PekarDrive.Transmission.Ownership

/-!
# The serialized transmission

`transmission_serialize` and `transmission_deserialize` of `lib/PP/transmission_serializer.c`. Nine
fields of 8, 4, 1, 1, 8, `header.bytes`, 2, 4 and 8 bytes are copied to and from offsets that are
computed anew for each field. The block is allocated for `SERIALIZED_SIZE_WITHOUT_DATA`, the size
of the struct less its two pointers, and the data; a copy that leaves it is the outcome `none`.

The messages of the instance and of its connection and the two marks of use are not serialized, and
`transmission_deserialize` leaves them as they were in its local struct.

## Main definitions

* `PekarDrive.serializationWrites`, `PekarDrive.transmissionSerialize`.
* `PekarDrive.Unset`, `PekarDrive.transmissionDeserialize`.

## Main results

* `PekarDrive.foldlM_store`, `PekarDrive.window_of_mem`: copies that lie one behind the other.
* `PekarDrive.transmissionDeserialize_serialize`.
-/

namespace PekarDrive

open CMemory CText

/-! ### The two functions -/

/-- An object of C: its size is at most `PTRDIFF_MAX`. -/
structure CObject where
  /-- The contents. -/
  bytes : List UInt8
  /-- The bound on its size. -/
  length_lt : bytes.length < 2 ^ 63

/-- The copies of `transmission_serialize`, with their offsets. -/
def serializationWrites (t : Transmission) (data : List UInt8) : List (ℕ × List UInt8) :=
  [(0, leBytes 8 t.bytes.toNat),
    (8, leBytes 4 t.chunkSize.toNat),
    (8 + 4, [t.isOpen]),
    (8 + 4 + 1, [t.error]),
    (8 + 4 + 1 + 1, leBytes 8 t.errorLen.toNat),
    (8 + 4 + 1 + 1 + 8, data.take t.bytes.toNat),
    (8 + 4 + 1 + 1 + 8 + t.bytes.toNat, leBytes 2 t.connection.error.toUInt16.toNat),
    (8 + 4 + 1 + 1 + 8 + t.bytes.toNat + 2, leBytes 4 t.connection.fd.toUInt32.toNat),
    (8 + 4 + 1 + 1 + 8 + t.bytes.toNat + 2 + 4, leBytes 8 t.connection.maxBytes.toNat)]

/-- `transmission_serialize`. The data must be as long as the header says. -/
def transmissionSerialize (fresh : Mem) (t : Transmission) : Option (List UInt8) :=
  let data := t.data.getD []
  if data.length < t.bytes.toNat then none
  else (serializationWrites t data).foldlM (fun block w => store block w.1 w.2)
    (window fresh 0 (serializedSizeWithoutData.toUInt64 + t.bytes).toNat)

/-- What the local struct of `transmission_deserialize` holds where the function does not write. Its
pointers are left over: they are `NULL`, or addresses of blocks, which may have been freed; any
other address is used like that of a freed block. -/
structure Unset (ledger : Ledger) where
  /-- The field `err_msg`. -/
  errMsg : Option ℕ
  /-- The field `connection.error_msg`. -/
  connErrorMsg : Option ℕ
  /-- The field `read_used`. -/
  readUsed : Int16
  /-- The field `write_used`. -/
  writeUsed : Int16
  /-- The address of the message is that of a block. -/
  errMsg_lt : ∀ p ∈ errMsg, p < ledger.next
  /-- So is that of the message of the connection. -/
  connErrorMsg_lt : ∀ p ∈ connErrorMsg, p < ledger.next

/-- `transmission_deserialize`, of what lies at `m`. -/
def transmissionDeserialize (ledger : Ledger) (unset : Unset ledger) (m : Mem) : HeapState :=
  let bytes := UInt64.ofNat (leNat (window m 0 8))
  let n := bytes.toNat
  { t :=
      { data := some ledger.next
        isOpen := m (8 + 4)
        error := m (8 + 4 + 1)
        errMsg := unset.errMsg
        errorLen := UInt64.ofNat (leNat (window m (8 + 4 + 1 + 1) 8))
        bytes
        chunkSize := UInt32.ofNat (leNat (window m 8 4))
        connection :=
          { error := (UInt16.ofNat (leNat (window m (8 + 4 + 1 + 1 + 8 + n) 2))).toInt16
            errorMsg := unset.connErrorMsg
            fd := (UInt32.ofNat (leNat (window m (8 + 4 + 1 + 1 + 8 + n + 2) 4))).toInt32
            maxBytes := UInt64.ofNat (leNat (window m (8 + 4 + 1 + 1 + 8 + n + 2 + 4) 8)) }
        readUsed := unset.readUsed
        writeUsed := unset.writeUsed }
    ledger := ledger.malloc n (window m (8 + 4 + 1 + 1 + 8) n) }

/-! ### Copies that lie one behind the other -/

/-- The first copy goes to offset `n`, and each further one behind the last. -/
def Contiguous : ℕ → List (ℕ × List UInt8) → Prop
  | _, [] => True
  | n, w :: writes => w.1 = n ∧ Contiguous (n + w.2.length) writes

section Contiguous

variable {writes : List (ℕ × List UInt8)}

/-- The copies go round in a block that is long enough. -/
theorem foldlM_store {pre tail : List UInt8} (h : Contiguous pre.length writes)
    (htail : (writes.map Prod.snd).flatten.length ≤ tail.length) :
    writes.foldlM (fun block w => store block w.1 w.2) (pre ++ tail) =
      some (pre ++ ((writes.map Prod.snd).flatten ++
        tail.drop (writes.map Prod.snd).flatten.length)) := by
  induction writes generalizing pre tail with
  | nil => simp
  | cons w writes ih =>
    obtain ⟨hoff, hrest⟩ := h
    rw [List.map_cons, List.flatten_cons, List.length_append] at htail
    have hlen : (pre ++ w.2).length = pre.length + w.2.length := List.length_append
    rw [List.foldlM_cons, store_append hoff.symm (by omega), Option.bind_eq_bind,
      Option.bind_some, ← List.append_assoc, ih (hlen ▸ hrest) (by rw [List.length_drop]; omega)]
    simp only [List.map_cons, List.flatten_cons, List.length_append, List.append_assoc,
      List.drop_drop]

/-- Each copy is read back. -/
theorem window_of_mem {pre post : List UInt8} (h : Contiguous pre.length writes)
    {w : ℕ × List UInt8} (hw : w ∈ writes) (behind : Mem) :
    window (overlay (pre ++ (writes.map Prod.snd).flatten ++ post) behind) w.1 w.2.length =
      w.2 := by
  induction writes generalizing pre with
  | nil => exact absurd hw List.not_mem_nil
  | cons w' writes ih =>
    obtain ⟨hoff, hrest⟩ := h
    rw [List.map_cons, List.flatten_cons]
    rcases List.mem_cons.mp hw with rfl | hw
    · have hsplit : pre ++ (w.2 ++ (writes.map Prod.snd).flatten) ++ post =
          pre ++ w.2 ++ ((writes.map Prod.snd).flatten ++ post) := by
        simp only [List.append_assoc]
      rw [hsplit]
      exact window_overlay_append pre w.2 _ behind hoff rfl
    · have hlen : (pre ++ w'.2).length = pre.length + w'.2.length := List.length_append
      rw [← List.append_assoc]
      exact ih (hlen ▸ hrest) hw

end Contiguous

/-! ### The round trip -/

/-- The fields that are serialized agree. -/
structure SerializedAlike (t t' : Transmission) : Prop where
  bytes_eq : t'.bytes = t.bytes
  chunkSize_eq : t'.chunkSize = t.chunkSize
  isOpen_eq : t'.isOpen = t.isOpen
  error_eq : t'.error = t.error
  errorLen_eq : t'.errorLen = t.errorLen
  data_eq : t'.data = t.data
  connection_error_eq : t'.connection.error = t.connection.error
  connection_fd_eq : t'.connection.fd = t.connection.fd
  connection_maxBytes_eq : t'.connection.maxBytes = t.connection.maxBytes

section RoundTrip

variable {t : Transmission} {data : List UInt8}

theorem contiguous_serializationWrites (hlen : data.length = t.bytes.toNat) :
    Contiguous 0 (serializationWrites t data) := by
  simp [Contiguous, serializationWrites, hlen]

theorem length_serializationWrites (hlen : data.length = t.bytes.toNat) :
    ((serializationWrites t data).map Prod.snd).flatten.length = 36 + t.bytes.toNat := by
  simp [serializationWrites, hlen]
  omega

/-- The block: the copies, and behind them what was there. -/
theorem exists_transmissionSerialize (data : CObject) (hdata : t.data = some data.bytes)
    (hlen : data.bytes.length = t.bytes.toNat) (fresh : Mem) :
    ∃ behind, transmissionSerialize fresh t =
      some (((serializationWrites t data.bytes).map Prod.snd).flatten ++ behind) ∧
      behind.length = 36 := by
  have hsize : (serializedSizeWithoutData.toUInt64 + t.bytes).toNat = 72 + t.bytes.toNat := by
    have hlt := data.length_lt
    rw [UInt64.toNat_add, UInt32.toNat_toUInt64]
    exact Nat.mod_eq_of_lt (show 72 + t.bytes.toNat < 2 ^ 64 by omega)
  have hwritten := length_serializationWrites hlen
  have hlong : ¬ data.bytes.length < t.bytes.toNat := by omega
  rw [transmissionSerialize, hdata, Option.getD_some, if_neg hlong, hsize]
  have hfold := @foldlM_store (serializationWrites t data.bytes) []
    (window fresh 0 (72 + t.bytes.toNat)) (contiguous_serializationWrites hlen)
    (by rw [hwritten, length_window]; omega)
  refine ⟨_, hfold, ?_⟩
  rw [List.length_drop, hwritten, length_window]
  omega

/-- What is read from the offset of a copy. -/
theorem window_serialized (hlen : data.length = t.bytes.toNat) (post : List UInt8) (behind : Mem)
    {off n : ℕ} {field : List UInt8} (hmem : (off, field) ∈ serializationWrites t data)
    (hn : field.length = n) :
    window (overlay (((serializationWrites t data).map Prod.snd).flatten ++ post) behind) off n =
      field := by
  have hread := @window_of_mem _ [] post (contiguous_serializationWrites hlen) (off, field) hmem
    behind
  rw [List.nil_append] at hread
  rw [← hn]
  exact hread

/-- A number is read back. -/
theorem leNat_serialized (hlen : data.length = t.bytes.toNat) (post : List UInt8) (behind : Mem)
    {i off w n : ℕ} (hi : (serializationWrites t data)[i]? = some (off, leBytes w n))
    (hn : n < 256 ^ w) :
    leNat (window (overlay (((serializationWrites t data).map Prod.snd).flatten ++ post) behind)
      off w) = n := by
  rw [window_serialized hlen post behind (List.mem_of_getElem? hi) (length_leBytes w n),
    leNat_leBytes_of_lt hn]

/-- A single byte is read back. -/
theorem byte_serialized (hlen : data.length = t.bytes.toNat) (post : List UInt8) (behind : Mem)
    {i off : ℕ} {b : UInt8} (hi : (serializationWrites t data)[i]? = some (off, [b])) :
    overlay (((serializationWrites t data).map Prod.snd).flatten ++ post) behind off = b := by
  have hread := window_serialized hlen post behind (List.mem_of_getElem? hi)
    (show [b].length = 1 from rfl)
  rw [window_succ, window_zero] at hread
  exact (List.cons.inj hread).1

/-- What is deserialized behind the copies. -/
theorem serializedAlike_deserialize (hdata : t.data = some data)
    (hlen : data.length = t.bytes.toNat) (ledger : Ledger) (unset : Unset ledger)
    (post : List UInt8) (behind : Mem) :
    SerializedAlike t (transmissionDeserialize ledger unset (overlay
      (((serializationWrites t data).map Prod.snd).flatten ++ post) behind)).view := by
  have hnat := fun {i off w n : ℕ} => @leNat_serialized t data hlen post behind i off w n
  have hbyte := fun {i off : ℕ} {b : UInt8} => @byte_serialized t data hlen post behind i off b
  have hwindow := fun {off n : ℕ} {field : List UInt8} =>
    @window_serialized t data hlen post behind off n field
  generalize overlay (((serializationWrites t data).map Prod.snd).flatten ++ post) behind = m at *
  have hbytes : UInt64.ofNat (leNat (window m 0 8)) = t.bytes := by
    rw [hnat (i := 0) rfl t.bytes.toNat_lt, UInt64.ofNat_toNat]
  have htake : data.take t.bytes.toNat = data := List.take_of_length_le hlen.le
  have hdataRead : window m (8 + 4 + 1 + 1 + 8) t.bytes.toNat = data := by
    rw [hwindow (List.mem_of_getElem? (i := 5) rfl) (by rw [htake, hlen]), htake]
  refine ⟨hbytes, ?_, hbyte (i := 2) rfl, hbyte (i := 3) rfl, ?_, ?_, ?_, ?_, ?_⟩
  · change UInt32.ofNat (leNat (window m 8 4)) = _
    rw [hnat (i := 1) rfl t.chunkSize.toNat_lt, UInt32.ofNat_toNat]
  · change UInt64.ofNat (leNat (window m (8 + 4 + 1 + 1) 8)) = _
    rw [hnat (i := 4) rfl t.errorLen.toNat_lt, UInt64.ofNat_toNat]
  · simp only [transmissionDeserialize, HeapState.view, hbytes, Option.bind_some,
      Ledger.getElem?_malloc_next, Option.map_some, hdataRead, hdata]
  · simp only [transmissionDeserialize, HeapState.view, connAt, hbytes]
    rw [hnat (i := 6) rfl t.connection.error.toUInt16.toNat_lt, UInt16.ofNat_toNat,
      Int16.toInt16_toUInt16]
  · simp only [transmissionDeserialize, HeapState.view, connAt, hbytes]
    rw [hnat (i := 7) rfl t.connection.fd.toUInt32.toNat_lt, UInt32.ofNat_toNat,
      Int32.toInt32_toUInt32]
  · simp only [transmissionDeserialize, HeapState.view, connAt, hbytes]
    rw [hnat (i := 8) rfl t.connection.maxBytes.toNat_lt, UInt64.ofNat_toNat]

end RoundTrip

/-- **The round trip.** The copies of a transmission with its data fill the first `36 + bytes` bytes
of a block of `72 + bytes`; what is deserialized from the block has the same serialized fields,
whatever lies behind it and whatever the fields that are not serialized hold. -/
theorem transmissionDeserialize_serialize {t : Transmission} {data : CObject}
    (hdata : t.data = some data.bytes) (hlen : data.bytes.length = t.bytes.toNat) (fresh : Mem)
    (ledger : Ledger) (unset : Unset ledger) (trailing : List UInt8) (behind : Mem) :
    ∃ block, transmissionSerialize fresh t = some block ∧
      block.length = 72 + t.bytes.toNat ∧
      (serializationWrites t data.bytes).foldl (fun n w => n + w.2.length) 0 =
        36 + t.bytes.toNat ∧
      (∀ w ∈ serializationWrites t data.bytes, w.1 + w.2.length ≤ 36 + t.bytes.toNat) ∧
      SerializedAlike t
        (transmissionDeserialize ledger unset (overlay (block ++ trailing) behind)).view := by
  obtain ⟨rest, hblock, hrest⟩ := exists_transmissionSerialize data hdata hlen fresh
  refine ⟨_, hblock, ?_, ?_, ?_, ?_⟩
  · rw [List.length_append, length_serializationWrites hlen, hrest]
    omega
  · simp [serializationWrites, hlen]
    omega
  · simp [serializationWrites, hlen]
    omega
  · rw [List.append_assoc]
    exact serializedAlike_deserialize hdata hlen ledger unset (rest ++ trailing) behind

/-- The transmission of the text `Test`, with bytes behind its serialization. -/
theorem transmissionDeserialize_serialize_test : ∃ block,
    transmissionSerialize (fun _ => 9)
      (initTransmission 200 ⟨0, none, 3, 0⟩ (some (overlay (ascii "Test") fun _ => 0)) 4) =
        some block ∧ block.length = 76 := by
  obtain ⟨block, hblock, hlength, -⟩ := @transmissionDeserialize_serialize
    (initTransmission 200 ⟨0, none, 3, 0⟩ (some (overlay (ascii "Test") fun _ => 0)) 4)
    ⟨ascii "Test", by decide⟩ (by decide) (by decide) (fun _ => 9)
    .empty ⟨none, none, 0, 0, by simp, by simp⟩ [1, 2, 3] fun _ => 0
  exact ⟨block, hblock, hlength⟩

end PekarDrive
