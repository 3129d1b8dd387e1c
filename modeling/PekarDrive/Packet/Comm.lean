import PekarDrive.Foundation.Memory
import PekarDrive.Foundation.Text

/-!
# Connections

The part of `lib/comm.c` that moves bytes: what `conn_write` hands to `send`, and what a
`conn_read` leaves behind.

`conn_write(c, buffer, len)` sends the `len` bytes that lie at `buffer`, whether or not the block
is that long. `conn_read(c, buffer, len)` does one `read`: it returns the number of bytes
delivered, which lie at the start of the buffer, and leaves the rest of the buffer as it was; it
returns zero at the end of the stream and `-1` on an error.

## Main definitions

* `PekarDrive.Conn`: the struct `conn`; `PekarDrive.errConn`: a connection that was not made.
* `PekarDrive.connWrite`: the bytes that are sent.
* `PekarDrive.ReadResult`, `PekarDrive.ReadResult.delivered`: the outcome of a read.
-/

namespace PekarDrive

open CMemory CText

/-- The struct `conn`. -/
structure Conn where
  /-- Nonzero when the connection could not be made or has been closed. -/
  error : Int16
  /-- The message that belongs to the error; `NULL` in a connection taken from `conn_listen`. -/
  errorMsg : Option CString
  /-- The descriptor. -/
  fd : Int32
  /-- Set by no function of `comm.c`. -/
  maxBytes : UInt64
  deriving DecidableEq

/-- `ERR_CONN`. -/
def errConn (message : CString) : Conn := ⟨1, some message, 0, 0⟩

/-- The bytes that `conn_write` sends from a buffer. -/
def connWrite (buffer : Mem) (len : ℕ) : List UInt8 := window buffer 0 len

/-- The outcome of `conn_read`: its return value and the contents of the buffer afterwards. -/
structure ReadResult where
  /-- The return value. -/
  bytes : ℤ
  /-- The memory at the buffer. -/
  buffer : Mem

/-- A read that delivers the bytes `bs` into a buffer that held `stale`. -/
def ReadResult.delivered (bs : List UInt8) (stale : Mem) : ReadResult where
  bytes := bs.length
  buffer := overlay bs stale

/-- A read that fails or finds the stream closed, and leaves the buffer as it was. -/
def ReadResult.failed (result : ℤ) (stale : Mem) : ReadResult where
  bytes := result
  buffer := stale

end PekarDrive
