import PekarDrive.Master.Strings
import PekarDrive.Worker.Boot

/-!
# Formatted texts

Seven texts are printed with `sprintf` into blocks whose sizes are numbers: four messages of the
master for its log, the message of `register_worker`, and the two renderings of a number of bytes.
A text stays inside its block when the block has room for it and for its terminator.

## Main definitions

* `PekarDrive.FormatSite`: the places, with `text` and `allocated`.
* `PekarDrive.FormatSite.Fits`: where the text stays inside the block.

## Main results

* `PekarDrive.FormatSite.inAllocation_iff`.
-/

namespace PekarDrive

open CText

/-! ### The places -/

/-- The places that print into a block, with the values that are printed. -/
inductive FormatSite
  /-- `ping_server` of the master. -/
  | pingServer (id : UInt64) (ip : DottedQuad) (port : UInt16)
  /-- `handle_ping_response` of the master, when there is no response. -/
  | pingFailed (fd : Int32)
  /-- `handle_ping_response`, when the response is of another type. -/
  | pingMismatch (fd : Int32)
  /-- `handle_ping_response`, when the response is of the right type. -/
  | pingSuccess (fd : Int32)
  /-- `register_worker` of a worker. -/
  | registerWorker (ip : DottedQuad) (port : UInt16)
  /-- `write_file` of a worker. -/
  | writeFile (bytes : Int64)
  /-- `long2str` of the master. -/
  | longToStr (val : Int64)

/-- A message of `handle_ping_response`, with the descriptor between two texts. -/
def fdMessage (pre post : String) (fd : Int32) : List UInt8 :=
  ascii pre ++ decimalInt fd.toInt ++ ascii post

namespace FormatSite

/-- The number of bytes passed to `malloc`. -/
def allocated : FormatSite → ℕ
  | pingServer .. => 50
  | pingFailed _ => 50
  | pingMismatch _ => 100
  | pingSuccess _ => 50
  | registerWorker .. => 21
  | writeFile _ => 10
  | longToStr _ => 10

/-- The text that is printed. -/
def text : FormatSite → List UInt8
  | pingServer id ip port =>
    -- `%d` takes the low 32 bits of the identifier
    ascii "Ping to " ++ decimalInt ((id.toNat : ℤ).bmod (2 ^ 32)) ++ ascii " (" ++ ip.bytes ++
      ascii ":" ++ decimal port.toNat ++ ascii ")."
  | pingFailed fd => fdMessage "Worker (file descriptor: " ") has failed." fd
  | pingMismatch fd =>
    fdMessage "Received response from worker (file descriptor: " "), but not from ping." fd
  | pingSuccess fd => fdMessage "Successful response from worker (file descriptor: " ")." fd
  | registerWorker ip port => ip.bytes ++ ascii ";" ++ decimal port.toNat
  | writeFile bytes => decimalInt bytes.toInt
  | longToStr val => decimalInt val.toInt

/-- The text and its terminator are inside the block. -/
def InAllocation (s : FormatSite) : Prop := s.text.length + 1 ≤ s.allocated

instance (s : FormatSite) : Decidable s.InAllocation := inferInstanceAs (Decidable (_ ≤ _))

/-- Where the text stays inside the block. The message about a successful response never does. -/
def Fits : FormatSite → Prop
  | pingServer .. => True
  | pingFailed _ => True
  | pingMismatch _ => True
  | pingSuccess _ => False
  | registerWorker ip port => ip.bytes.length ≤ 14 ∨ port.toNat < 10000
  | writeFile bytes => -99999999 ≤ bytes.toInt ∧ bytes.toInt ≤ 999999999
  | longToStr val => -99999999 ≤ val.toInt ∧ val.toInt ≤ 999999999

/-! ### The texts of the two programs -/

theorem text_registerWorker (ip : DottedQuad) :
    (registerWorker ip getPort).text = (registerMsg ip.text).bytes := by
  rw [bytes_registerMsg, bytes_portText, text, List.append_assoc]
  rfl

theorem text_longToStr (val : Int64) : (longToStr val).text = (long2str val.toInt).bytes :=
  (bytes_long2str val.toInt).symm

/-! ### Lengths -/

/-- A number of 32 bits takes up to eleven places. -/
theorem length_decimalInt_le_eleven {v : ℤ} (hlow : -2 ^ 31 ≤ v) (hhigh : v < 2 ^ 31) :
    (decimalInt v).length ≤ 11 :=
  (length_decimalInt_le_iff (by decide)).mpr ⟨by omega, by omega⟩

theorem length_decimal_port_le (port : UInt16) : (decimal port.toNat).length ≤ 5 :=
  (length_decimal_le_iff (by decide)).mpr (port.toNat_lt.trans (by decide))

theorem length_fd_le (fd : Int32) : (decimalInt fd.toInt).length ≤ 11 :=
  length_decimalInt_le_eleven fd.le_toInt fd.toInt_lt

theorem length_decimalInt_le_nine_iff (v : ℤ) :
    (decimalInt v).length + 1 ≤ 10 ↔ -99999999 ≤ v ∧ v ≤ 999999999 := by
  have hiff := @length_decimalInt_le_iff v 8 (by decide)
  omega

/-- The low 32 bits of a number. -/
theorem length_bmod_le (n : ℤ) : (decimalInt (n.bmod (2 ^ 32))).length ≤ 11 := by
  have hlow : -((2 ^ 32 : ℕ) / 2 : ℤ) ≤ n.bmod (2 ^ 32) := Int.le_bmod (by decide)
  have hhigh : n.bmod (2 ^ 32) < ((2 ^ 32 : ℕ) + 1) / 2 := Int.bmod_lt (by decide)
  exact length_decimalInt_le_eleven (by omega) (by omega)

theorem length_text_pingServer (id : UInt64) (ip : DottedQuad) (port : UInt16) :
    (pingServer id ip port).text.length = 13 +
      ((decimalInt ((id.toNat : ℤ).bmod (2 ^ 32))).length + ip.bytes.length +
        (decimal port.toNat).length) := by
  have hto : (ascii "Ping to ").length = 8 := by decide
  have hopen : (ascii " (").length = 2 := by decide
  have hcolon : (ascii ":").length = 1 := by decide
  have hclose : (ascii ").").length = 2 := by decide
  simp only [text, List.length_append, hto, hopen, hcolon, hclose]
  omega

theorem length_fdMessage (pre post : String) (fd : Int32) : (fdMessage pre post fd).length =
    (ascii pre).length + (ascii post).length + (decimalInt fd.toInt).length := by
  rw [fdMessage, List.length_append, List.length_append]
  omega

/-- Without the descriptor, the message about a successful response takes 52 places. -/
theorem length_text_pingSuccess (fd : Int32) :
    (pingSuccess fd).text.length = 52 + (decimalInt fd.toInt).length := length_fdMessage _ _ fd

theorem length_text_registerWorker (ip : DottedQuad) (port : UInt16) :
    (registerWorker ip port).text.length = ip.bytes.length + 1 + (decimal port.toNat).length := by
  rw [text, List.length_append, List.length_append]
  rfl

end FormatSite

/-- **Formatted texts.** For every place and all values that it may print: the text stays inside its
block, with its terminator, exactly where `FormatSite.Fits` says so. -/
theorem FormatSite.inAllocation_iff (s : FormatSite) : s.InAllocation ↔ s.Fits := by
  cases s with
  | pingServer id ip port =>
    have hid := length_bmod_le id.toNat
    have hip : ip.bytes.length ≤ 15 := ip.strlen_text.2
    have hport := length_decimal_port_le port
    refine iff_of_true ?_ trivial
    rw [InAllocation, length_text_pingServer, allocated]
    omega
  | pingFailed fd =>
    have hfd := length_fd_le fd
    refine iff_of_true ?_ trivial
    have htext : (pingFailed fd).text.length = 38 + _ := length_fdMessage _ _ fd
    rw [InAllocation, htext, allocated]
    omega
  | pingMismatch fd =>
    have hfd := length_fd_le fd
    refine iff_of_true ?_ trivial
    have htext : (pingMismatch fd).text.length = 69 + _ := length_fdMessage _ _ fd
    rw [InAllocation, htext, allocated]
    omega
  | pingSuccess fd =>
    refine iff_of_false ?_ id
    rw [InAllocation, length_text_pingSuccess, allocated]
    omega
  | registerWorker ip port =>
    have hip : ip.bytes.length ≤ 15 := ip.strlen_text.2
    have hport := length_decimal_port_le port
    have hpos := List.length_pos_iff.mpr (decimal_ne_nil port.toNat)
    -- an address of 15 characters leaves room for four digits
    have hfour := @length_decimal_le_iff port.toNat 4 (by decide)
    rw [InAllocation, length_text_registerWorker, allocated, Fits]
    omega
  | writeFile bytes => exact length_decimalInt_le_nine_iff bytes.toInt
  | longToStr val => exact length_decimalInt_le_nine_iff val.toInt

/-- The message about a successful response does not fit, whatever the descriptor is. -/
theorem FormatSite.not_forall_inAllocation : ¬ ∀ s : FormatSite, s.InAllocation := by
  intro h
  have hfits : (pingSuccess 5).text.length + 1 ≤ 50 := h (pingSuccess 5)
  rw [length_text_pingSuccess] at hfits
  omega

end PekarDrive
