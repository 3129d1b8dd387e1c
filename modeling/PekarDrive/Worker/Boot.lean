import PekarDrive.Packet.Codec

/-!
# Booting a worker

`register_worker` of `src/server/boot.c`: the message is the address of the worker, a semicolon
and its port; the packet is sent with one `conn_write` of 40 bytes, whatever the length of the
message. Sending is repeated only while `conn_write` returns zero.

## Main definitions

* `PekarDrive.Octet`, `PekarDrive.DottedQuad`: the addresses that `get_ip` returns.
* `PekarDrive.getPort`.
* `PekarDrive.registerMsg`, `PekarDrive.registerPacket`, `PekarDrive.registerWire`.
-/

namespace PekarDrive

open CMemory CText

/-- One to three decimal digits. -/
structure Octet where
  /-- The digits. -/
  digits : List UInt8
  /-- They are digits. -/
  isDigit_of_mem : ∀ b ∈ digits, isDigit b = true
  /-- There is a digit. -/
  length_pos : 1 ≤ digits.length
  /-- There are at most three. -/
  length_le : digits.length ≤ 3

/-- An address in dotted notation. -/
structure DottedQuad where
  /-- The first number. -/
  a : Octet
  /-- The second number. -/
  b : Octet
  /-- The third number. -/
  c : Octet
  /-- The fourth number. -/
  d : Octet

namespace DottedQuad

/-- The bytes of the text. -/
def bytes (q : DottedQuad) : List UInt8 :=
  q.a.digits ++ 46 :: (q.b.digits ++ 46 :: (q.c.digits ++ 46 :: q.d.digits))

theorem isDigit_or_dot (q : DottedQuad) : ∀ b ∈ q.bytes, isDigit b = true ∨ b = 46 := by
  intro b hb
  simp only [bytes, List.mem_append, List.mem_cons] at hb
  rcases hb with h | rfl | h | rfl | h | rfl | h
  · exact .inl (q.a.isDigit_of_mem b h)
  · exact .inr rfl
  · exact .inl (q.b.isDigit_of_mem b h)
  · exact .inr rfl
  · exact .inl (q.c.isDigit_of_mem b h)
  · exact .inr rfl
  · exact .inl (q.d.isDigit_of_mem b h)

/-- The text as a C string. -/
def text (q : DottedQuad) : CString where
  bytes := q.bytes
  nulFree h := by
    rcases q.isDigit_or_dot 0 h with h | h
    · exact absurd h (by decide)
    · exact absurd h (by decide)

@[simp] theorem bytes_text (q : DottedQuad) : q.text.bytes = q.bytes := rfl

/-- A text has 7 to 15 characters. -/
theorem strlen_text (q : DottedQuad) : 7 ≤ q.text.strlen ∧ q.text.strlen ≤ 15 := by
  have ha := q.a.length_pos
  have hb := q.b.length_pos
  have hc := q.c.length_pos
  have hd := q.d.length_pos
  have ha' := q.a.length_le
  have hb' := q.b.length_le
  have hc' := q.c.length_le
  have hd' := q.d.length_le
  simp only [CString.strlen, bytes_text, bytes, List.length_append, List.length_cons]
  omega

end DottedQuad

/-- `get_port`. -/
def getPort : UInt16 := 55443

/-- The decimal digits of the port. -/
def portText : CString := lit "55443"

theorem bytes_portText : portText.bytes = decimal getPort.toNat := by decide

/-- The message `"%s;%d"` of `register_worker`. -/
def registerMsg (ip : CString) : CString := (ip.append (lit ";")).append portText

/-- The packet of `register_worker`. -/
def registerPacket (tokens : Tokens) (ip : CString) : Packet :=
  attachToken tokens.workerTkn (pInit 0 (registerMsg ip) MsgType.register.code)

/-- The number of bytes that `register_worker` sends. -/
def registerLen : ℕ := 40

/-- The bytes that are sent, when `behind` lies behind the encoded packet. -/
def registerWire (tokens : Tokens) (ip : CString) (behind : Mem) : List UInt8 :=
  connWrite (overlay (pEncode (registerPacket tokens ip)) behind) registerLen

@[simp] theorem length_registerWire (tokens : Tokens) (ip : CString) (behind : Mem) :
    (registerWire tokens ip behind).length = registerLen :=
  length_window _ _ _

theorem bytes_registerMsg (ip : CString) :
    (registerMsg ip).bytes = ip.bytes ++ 59 :: portText.bytes := by
  have hsep : (lit ";").bytes = [59] := by decide
  rw [registerMsg, CString.bytes_append, CString.bytes_append, hsep, List.append_assoc]
  rfl

theorem length_registerMsg (ip : CString) : (registerMsg ip).bytes.length = ip.strlen + 6 := by
  rw [bytes_registerMsg, List.length_append, List.length_cons]
  rfl

end PekarDrive
