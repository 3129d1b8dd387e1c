import PekarDrive.Transmission.Instance

/-!
# Sending and receiving in chunks

`transmit` and `receive` of `lib/PP/transmission.c`. A chunk buffer holds 72 bytes less than the
chunk size, `fill_buffer` fills what the data leaves of it with the value 4, and `conn_write` gets
the chunk size as its length: every chunk on the wire ends with 72 bytes that lie behind the
buffer. `receive` stores whole chunks one after the other, up to the first one whose last byte is
4, and cuts every 4 off the end of what it has.

The instance that `transmit` makes of a chunk, and its serialization, are freed unused. The
counters of `receive` have 32 bits; an access outside its buffer is the outcome `none`.

## Main definitions

* `PekarDrive.fillBuffer`, `PekarDrive.transmit`.
* `PekarDrive.containsPadding`, `PekarDrive.trimPadding`, `PekarDrive.receive`.

## Main results

* `PekarDrive.length_transmitChunks`, `PekarDrive.getElem?_of_mem_transmitChunks`: the chunks on
  the wire.
-/

namespace PekarDrive

open CMemory CText

/-- `PAD`. -/
def pad : UInt8 := 4

/-! ### Sending -/

/-- The memory around the blocks of `transmit`. -/
structure SendHeap where
  /-- Behind the block of the data. -/
  behindData : Mem
  /-- From the start of each chunk buffer on, before it is filled. -/
  chunk : ℕ → Mem

/-- `fill_buffer`, with the data from offset `off` on. -/
def fillBuffer (buffer data : Mem) (off bufferSize dataSize : UInt32) : Mem :=
  if bufferSize < dataSize then buffer
  else overlay (window data off.toNat dataSize.toNat ++
    List.replicate (bufferSize - dataSize).toNat pad) buffer

/-- The chunks that `transmit` writes, in order. The quotient is computed in doubles, which is
exact for data of less than `2 ^ 53` bytes. -/
def transmitChunks (heap : SendHeap) (t : Transmission) (data : List UInt8) :
    List (List UInt8) :=
  let dataSize := t.chunkSize - serializedSizeWithoutData
  let iterations := UInt32.ofNat (t.bytes.toNat / dataSize.toNat)
  let remaining := UInt32.ofNat (t.bytes.toNat % dataSize.toNat)
  let write := fun (i size : UInt32) =>
    connWrite (fillBuffer (heap.chunk i.toNat) (overlay data heap.behindData) (i * dataSize)
      dataSize size) t.chunkSize.toNat
  (List.range iterations.toNat).map (fun i => write (UInt32.ofNat i) dataSize) ++
    [write iterations remaining]

/-- `transmit`: the return value, the instance afterwards, and the chunks written. -/
def transmit (heap : SendHeap) (t : Transmission) : Bool × Transmission × List (List UInt8) :=
  match t.refusal t.writeUsed (lit "Transmission instance already used for writing.") with
  | some message => (false, t.transErr message, [])
  | none =>
    match t.data with
    | none => (false, t.transErr (lit "Data to transmit is NULL."), [])
    | some data => (true, { t with writeUsed := 1 }, transmitChunks heap t data)

/-! ### Receiving -/

/-- Stores bytes in a block. -/
def store (block : List UInt8) (off : ℕ) (bs : List UInt8) : Option (List UInt8) :=
  if off + bs.length ≤ block.length then
    some (block.take off ++ bs ++ block.drop (off + bs.length))
  else none

/-- `realloc`: a larger block goes on with fresh memory. -/
def realloc (fresh : Mem) (block : List UInt8) (size : ℕ) : List UInt8 :=
  block.take size ++ window fresh block.length (size - block.length)

/-- `contains_padding`. -/
def containsPadding (buffer : List UInt8) (len : UInt32) : Option Bool :=
  buffer[(len - 1).toNat]?.map fun b => b == pad

/-- `trim_padding`. Its index is unsigned: when every byte is 4 it goes round behind the start of
the buffer. -/
def trimPadding (buffer : List UInt8) : ℕ → Option ℕ
  | 0 => none
  | n + 1 =>
    match buffer[n]? with
    | none => none
    | some b => if b ≠ pad then some (n + 1) else trimPadding buffer n

/-- The loop of `receive`: `i`, whether the last read has delivered bytes, and the buffer. A read
that delivers nothing has failed or found the end of the stream. -/
def receiveLoop (chunkSize : UInt32) (fresh : ℕ → Mem) :
    List (List UInt8) → UInt32 → List UInt8 → Option (UInt32 × Bool × List UInt8)
  | [], i, buffer => some (i + 1, false, buffer)
  | piece :: reads, i, buffer =>
    if piece = [] then some (i + 1, false, buffer)
    else
      match store buffer (i * chunkSize).toNat piece with
      | none => none
      | some buffer =>
        match containsPadding buffer ((i + 1) * chunkSize) with
        | none => none
        | some true => some (i + 1, true, buffer)
        | some false => receiveLoop chunkSize fresh reads (i + 1)
            (realloc (fresh (i + 1).toNat) buffer ((i + 1 + 1) * chunkSize).toNat)

/-- `receive`, when the reads deliver the given pieces and then nothing: the return value and the
instance afterwards. -/
def receive (fresh : ℕ → Mem) (reads : List (List UInt8)) (t : Transmission) :
    Option (Bool × Transmission) :=
  match t.refusal t.readUsed (lit "Transmission instance already used for reading.") with
  | some message => some (false, t.transErr message)
  | none =>
    let t := { t with readUsed := 1 }
    match receiveLoop t.chunkSize fresh reads 0 (window (fresh 0) 0 t.chunkSize.toNat) with
    | none => none
    | some (i, more, buffer) =>
      if i = 1 ∧ more = false then some (false, t)
      else
        match trimPadding buffer (t.chunkSize * (if more then i else i - 1)).toNat with
        | none => none
        | some newSize => some (true,
            { t with data := some (buffer.take newSize), bytes := UInt64.ofNat newSize })

/-! ### The chunks on the wire -/

section Wire

variable (heap : SendHeap) (t : Transmission) (data : List UInt8)

/-- The memory behind a chunk buffer is not filled. -/
theorem fillBuffer_of_le (buffer src : Mem) (off : UInt32) {bufferSize dataSize : UInt32} {i : ℕ}
    (hi : bufferSize.toNat ≤ i) : fillBuffer buffer src off bufferSize dataSize i = buffer i := by
  rw [fillBuffer]
  by_cases hlt : bufferSize < dataSize
  · rw [if_pos hlt]
  · rw [if_neg hlt]
    have hle : dataSize ≤ bufferSize := UInt32.not_lt.mp hlt
    refine overlay_of_le buffer ?_
    rw [List.length_append, length_window, List.length_replicate, UInt32.toNat_sub_of_le _ _ hle,
      Nat.add_sub_cancel' (UInt32.le_iff_toNat_le.mp hle)]
    exact hi

/-- Every chunk has the chunk size, and its last byte lies behind the chunk buffer. -/
theorem getElem?_of_mem_transmitChunks (hsize : serializedSizeWithoutData < t.chunkSize)
    {w : List UInt8} (hw : w ∈ transmitChunks heap t data) : w.length = t.chunkSize.toNat ∧
      ∃ i, w[t.chunkSize.toNat - 1]? = some (heap.chunk i (t.chunkSize.toNat - 1)) := by
  have hlt : (72 : ℕ) < t.chunkSize.toNat := UInt32.lt_iff_toNat_lt.mp hsize
  have hsub : (t.chunkSize - serializedSizeWithoutData).toNat = t.chunkSize.toNat - 72 :=
    UInt32.toNat_sub_of_le _ _ (UInt32.le_of_lt hsize)
  have hchunk : ∀ i off size, (connWrite (fillBuffer (heap.chunk i) (overlay data heap.behindData)
      off (t.chunkSize - serializedSizeWithoutData) size)
      t.chunkSize.toNat)[t.chunkSize.toNat - 1]? =
        some (heap.chunk i (t.chunkSize.toNat - 1)) := fun i off size => by
    rw [connWrite, getElem?_window (by omega), Nat.zero_add, fillBuffer_of_le _ _ _ (by omega)]
  simp only [transmitChunks, List.mem_append, List.mem_map, List.mem_singleton] at hw
  rcases hw with ⟨i, -, rfl⟩ | rfl
  · exact ⟨length_window _ _ _, _, hchunk _ _ _⟩
  · exact ⟨length_window _ _ _, _, hchunk _ _ _⟩

theorem length_transmitChunks : (transmitChunks heap t data).length =
    t.bytes.toNat / (t.chunkSize - serializedSizeWithoutData).toNat % 2 ^ 32 + 1 := by
  simp [transmitChunks]

end Wire

/-! ### Buffers -/

theorem toNat_ofNat_mul (i : ℕ) (c : UInt32) :
    (UInt32.ofNat i * c).toNat = i * c.toNat % 2 ^ 32 := by
  rw [UInt32.toNat_mul, UInt32.toNat_ofNat', Nat.mod_mul_mod]

@[simp] theorem length_realloc (fresh : Mem) (block : List UInt8) (size : ℕ) :
    (realloc fresh block size).length = size := by
  simp only [realloc, List.length_append, List.length_take, length_window]
  omega

end PekarDrive
