import PekarDrive.Foundation.Descriptors
import PekarDrive.Packet.Comm

/-!
# Connections and descriptors

What `client_init` and `conn_close` of `lib/comm.c` do to the descriptors of the process. When
`client_init` fails after `socket`, the descriptor stays open and the connection returned is the
value of `ERR_CONN`, which has descriptor zero; closing that connection closes descriptor zero.

## Main definitions

* `PekarDrive.InitOutcome`: how `client_init` goes.
* `PekarDrive.HeldConn`: a `conn` in a variable, with the opening that its descriptor comes from.
* `PekarDrive.clientInit`, `PekarDrive.connClose`.
-/

namespace PekarDrive

open CText Descriptors

/-- How the calls of `client_init` go: the first one that fails, if any. -/
inductive InitOutcome
  | socketFails | setsockoptFails | invalidAddress | connectFails | connected
  deriving DecidableEq

/-- A `conn` in a variable, with the opening that its descriptor comes from. -/
structure HeldConn where
  /-- Nonzero when the connection could not be made or has been closed. -/
  error : Int16
  /-- The message that belongs to the error. -/
  errorMsg : Option CString
  /-- The descriptor. -/
  fd : ℤ
  /-- The opening that the descriptor comes from, if it comes from one. -/
  opening : Option ℕ
  deriving DecidableEq

namespace HeldConn

/-- The descriptor in the variable. -/
def handle (c : HeldConn) : Handle := ⟨c.fd, c.opening⟩

/-- The value of `ERR_CONN` in a variable. -/
def failed (message : CString) : HeldConn where
  error := (errConn message).error
  errorMsg := (errConn message).errorMsg
  fd := (errConn message).fd.toInt
  opening := none

/-- A connection on a descriptor that is opened for it. -/
def made (t : Table) (errorMsg : Option CString) : HeldConn :=
  ⟨0, errorMsg, t.lowestFree, some t.opens⟩

end HeldConn

/-- `client_init`: the connection, and the descriptors afterwards. -/
def clientInit (t : Table) : InitOutcome → HeldConn × Table
  | .socketFails => (.failed (lit "Failed initialising socket."), t)
  | .setsockoptFails => (.failed (lit "Failed setting socket option."), t.opened)
  | .invalidAddress => (.failed (lit "Invalid address or address not supported."), t.opened)
  | .connectFails => (.failed (lit "Connection failed."), t.opened)
  | .connected => (.made t (some (lit "")), t.opened)

/-- `conn_close`: the connection left in the variable, and the descriptors afterwards. -/
def connClose (t : Table) (c : HeldConn) : HeldConn × Table :=
  (.failed (lit "Connection closed."), t.close c.fd)

/-- `client_init` opens a descriptor unless `socket` fails. -/
theorem table_clientInit (t : Table) (o : InitOutcome) :
    (clientInit t o).2 = if o = .socketFails then t else t.opened := by
  cases o <;> rfl

/-- The connection has a descriptor of its own exactly when `connect` succeeded. -/
theorem conn_clientInit (t : Table) (o : InitOutcome) :
    (clientInit t o).1 = .made t (some (lit "")) ∧ o = .connected ∨
      (∃ message, (clientInit t o).1 = .failed message) ∧ o ≠ .connected := by
  cases o with
  | connected => exact .inl ⟨rfl, rfl⟩
  | _ => exact .inr ⟨⟨_, rfl⟩, by decide⟩

/-- The process at its start: three descriptors are open. -/
def standardTable : Table where
  slots := [some 0, some 1, some 2]
  opens := 3
  lt_opens k hk := by
    simp only [List.mem_cons, Option.some.injEq, List.not_mem_nil, or_false] at hk
    omega

end PekarDrive
