import PekarDrive.Packet.Codec

/-!
# What a client sends

The functions of `lib/interface.c`, as far as they send, and what `file_delete` and `file_write`
make of the reply. Each makes one packet and hands the block of `p_encode` to one `conn_write`. The
length that is passed is computed from `sizeof(packet)`, which is 18 more than the header takes on
the wire, so every packet is followed by bytes that lie behind its block.

## Main definitions

* `PekarDrive.Outgoing`: a packet and the length passed to `conn_write`.
* `PekarDrive.genWriteArg`.
* `PekarDrive.Interface.ls`, `PekarDrive.Interface.fileRead`, `PekarDrive.Interface.fileWrite`,
  `PekarDrive.Interface.fileDelete`.
* `PekarDrive.Interface.deleted`, `PekarDrive.Interface.written`: what `file_delete` and
  `file_write` make of the reply.

## Main results

* `PekarDrive.Outgoing.wire_eq`: the bytes on the wire start with the encoded packet.
-/

namespace PekarDrive

open CMemory CText

/-- A packet that is sent with `conn_write(c, p_encode(p), len)`. -/
structure Outgoing where
  /-- The packet. -/
  packet : Packet
  /-- The length passed to `conn_write`. -/
  len : ℕ
  deriving DecidableEq

namespace Outgoing

/-- The bytes on the wire, when `behind` lies behind the block of `p_encode`. -/
def wire (o : Outgoing) (behind : Mem) : List UInt8 :=
  connWrite (overlay (pEncode o.packet) behind) o.len

/-- When the length covers the encoded packet, it is sent whole, and what lies behind it. -/
theorem wire_eq {o : Outgoing} (hlen : (pEncode o.packet).length ≤ o.len) (behind : Mem) :
    ∃ extra, o.wire behind = pEncode o.packet ++ extra := by
  rw [wire, connWrite, window_overlay_zero, List.take_of_length_le hlen]
  exact ⟨_, rfl⟩

end Outgoing

/-- `gen_write_arg`: the two parts of the argument of a WRITE or an APPEND. The data is a pointer
that is printed with `%s`, so it ends at its first zero byte. -/
def genWriteArg (file data : CString) : CString := (file.append (lit ";")).append data

theorem strlen_genWriteArg (file data : CString) :
    (genWriteArg file data).strlen = file.strlen + 1 + data.strlen := by
  rw [genWriteArg, CString.strlen, CString.bytes_append, CString.bytes_append, List.length_append,
    List.length_append]
  rfl

namespace Interface

/-- The packet of `ls`. -/
def ls : Outgoing where
  packet := pInit 0 (lit "") MsgType.ls.code
  len := sizeofPacket + 3

/-- The packet of `file_read`. -/
def fileRead (fileName : CString) : Outgoing where
  packet := pInit 0 fileName MsgType.read.code
  len := sizeofPacket + fileName.strlen

/-- The packet of `file_write`. Its argument `len` is not used. -/
def fileWrite (fileName buffer : CString) (append : Bool) : Outgoing where
  packet := pInit 0 (genWriteArg fileName buffer)
    (if append then MsgType.append.code else MsgType.write.code)
  len := sizeofPacket + (genWriteArg fileName buffer).strlen + 1

/-- The packet of `file_delete`. -/
def fileDelete (fileName : CString) : Outgoing where
  packet := pInit 0 fileName MsgType.delete.code
  len := sizeofPacket + fileName.strlen + 1

/-- What `file_delete` returns, from the memory at `buffer_received`: an `int` that is returned as a
`short`. -/
def deleted (bufferReceived : List UInt8) : ℤ :=
  (atoi (CString.ofMemory bufferReceived)).bmod (2 ^ 16)

/-- What `file_write` returns, from the memory at `buffer_received`: an `int` that is returned as a
`size_t`. -/
def written (bufferReceived : List UInt8) : ℤ := atoi (CString.ofMemory bufferReceived) % 2 ^ 64

end Interface

end PekarDrive
