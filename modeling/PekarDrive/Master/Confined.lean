import PekarDrive.Foundation.Blocks
import PekarDrive.Master.Dispatch
import PekarDrive.WorkerAdmin.LongAnswers

/-!
# Serving a client in bounded memory

`handle_client` of the master, stopped where the process would leave its memory: in `p_decode`, when
the packet of the client or the answer of a worker announces more than the buffer has room for; in
`long2str`, whose block has 10 bytes; and, for a REGISTER, in `parse_ip` and at the copy of the
address into a block of 16 bytes. The other blocks are allocated with the sizes that are stored.

## Main definitions

* `PekarDrive.Fits`: the answers of workers that the master survives.
* `PekarDrive.handleClientConfined`.

## Main results

* `PekarDrive.handleClientConfined_of_inside`, `PekarDrive.eval_handleClientConfined_of_keeps`.
-/

namespace PekarDrive

open CMemory CText LockedThreads

/-! ### Answers and packets that fit -/

section Fits

variable (a : Allocator)

/-- The answer is decoded inside its buffer, and the number in the answer to a WRITE has room in the
block of `long2str`. -/
def Fits (q : Request) (r : Reply) : Prop :=
  Decodes q r ∧ (q.site = some .writtenBytes → (long2str (writtenBytes r)).strlen + 1 ≤ a.usable 10)

instance : DecidableRel (Fits a) := fun _ _ => inferInstanceAs (Decidable (_ ∧ _))

/-- The packet is a REGISTER with the token of the workers. -/
def Registers (tokens : Tokens) (r : ReadResult) : Prop :=
  0 < r.bytes ∧ (pDecode r.buffer).val.msgType = MsgType.register.code ∧
    (pDecode r.buffer).val.token = tokens.workerTkn

instance (tokens : Tokens) (r : ReadResult) : Decidable (Registers tokens r) :=
  inferInstanceAs (Decidable (_ ∧ _ ∧ _))

/-- The address in an argument has room in the block of `parse_ip`, and in that of the entry. -/
def AddressFits (heap : Heap) (arg : List UInt8) : Prop :=
  ∀ ip ∈ parseIp arg, ip.length ≤ a.usable (CString.ofMemory arg).strlen ∧
    (CString.ofMemory (ip ++ heap.behindIp)).strlen + 1 ≤ a.usable 16

instance (heap : Heap) (arg : List UInt8) : Decidable (AddressFits a heap arg) :=
  inferInstanceAs (Decidable (∀ ip ∈ parseIp arg, _ ∧ _))

/-- `handle_client`, in the memory that an allocator gives. -/
def handleClientConfined (tokens : Tokens) (heap : Heap) (workerId : UInt32) (r : ReadResult) :
    TableProg Request Reply Served := do
  Prog.require (DecodeSite.masterClient.Inside r)
  Prog.require (Registers tokens r → AddressFits a heap (argMemory r heap))
  (handleClient tokens heap workerId r).confined fun _ => Fits a

variable (tokens : Tokens) {file data : CString} (w : FileServer) (r : Reply)

theorem fits_lsRequest_iff : Fits a (lsRequest tokens w) r ↔ Decodes (lsRequest tokens w) r := by
  simp [Fits, site_lsRequest]

theorem fits_deleteRequest : Fits a (deleteRequest tokens file w) r :=
  ⟨decodes_deleteRequest tokens w r, by simp [site_deleteRequest]⟩

theorem fits_writeRequest_iff : Fits a (writeRequest tokens file data w) r ↔
    DecodeSite.writtenBytes.Inside r.read ∧
      (long2str (writtenBytes r)).strlen + 1 ≤ a.usable 10 := by
  rw [Fits, decodes_writeRequest_iff, site_writeRequest, forall_prop_of_true rfl]

/-- A search sees the same listings. -/
theorem listing_replaced_fits (env : List Request → Request → Reply) (h : List Request)
    (t : ServerTable) : listing tokens (replaced (Fits a) (fun _ => silentReply) env) h t =
      listing tokens (decoded env) h t := by
  funext i
  rw [listing, listing]
  cases t.serverTable[i]? with
  | none => rfl
  | some w => simp only [decoded, replaced, fits_lsRequest_iff]

theorem searchStop_replaced_fits (env : List Request → Request → Reply) (h : List Request)
    (t : ServerTable) : searchStop tokens (replaced (Fits a) (fun _ => silentReply) env) h t file =
      searchStop tokens (decoded env) h t file := by
  rw [searchStop, listing_replaced_fits, searchStop]

end Fits

/-! ### By the type of the packet -/

section Client

variable (a : Allocator) (tokens : Tokens) (heap : Heap) (workerId : UInt32) {r : ReadResult}
  (env : List Request → Request → Reply) (h : List Request) {t : ServerTable}

/-- A packet that is too long stops the master. -/
theorem handleClientConfined_of_not_inside (hr : ¬ DecodeSite.masterClient.Inside r) :
    handleClientConfined a tokens heap workerId r = Prog.fault :=
  Prog.require_bind_of_neg _ hr

/-- A packet that is not too long, and is no REGISTER or has an address with room. -/
theorem handleClientConfined_of_inside (hr : DecodeSite.masterClient.Inside r)
    (haddress : Registers tokens r → AddressFits a heap (argMemory r heap)) :
    handleClientConfined a tokens heap workerId r =
      (handleClient tokens heap workerId r).confined fun _ => Fits a := by
  rw [handleClientConfined, Prog.require_bind_of_pos _ hr, Prog.require_bind_of_pos _ haddress]

/-- When all answers fit, nothing stops the master that does not stop it anyway. -/
theorem eval_handleClientConfined_of_keeps (hr : DecodeSite.masterClient.Inside r)
    (haddress : Registers tokens r → AddressFits a heap (argMemory r heap))
    (hkeeps : (handleClient tokens heap workerId r).Keeps (fun _ => Fits a) env h t) :
    (handleClientConfined a tokens heap workerId r).eval env h t =
      (handleClient tokens heap workerId r).eval env h t := by
  rw [handleClientConfined_of_inside a tokens heap workerId hr haddress,
    Prog.eval_confined_of_keeps hkeeps]

/-- With a registered worker, a packet that is no REGISTER is handed to `handle_request`. -/
theorem handleClient_of_request (hr : 0 < r.bytes)
    (htype : (pDecode r.buffer).val.msgType ≠ MsgType.register.code) :
    handleClient tokens heap workerId r = serviceAvailable >>= fun available =>
      if available then
        handleRequest tokens heap (pDecode r.buffer).val.msgType (argMemory r heap) >>=
          sendBack workerId
      else .ret ⟨some (ascii "Service unavailable." ++ [0]), workerId⟩ := by
  rw [handleClient, DecodeSite.masterClient.decode_of_pos hr]
  simp only
  rw [if_pos htype]
  rfl

variable {heap env h} {ok : ServerTable → Request → Reply → Prop}

/-- The answers that such a packet meets are those that the request meets. -/
theorem keeps_handleClient_of_request (hr : 0 < r.bytes) (hcount : t.serverCount ≠ 0)
    (htype : (pDecode r.buffer).val.msgType ≠ MsgType.register.code) :
    (handleClient tokens heap workerId r).Keeps ok env h t ↔
      (handleRequest tokens heap (pDecode r.buffer).val.msgType (argMemory r heap)).Keeps
        ok env h t := by
  have hback : ∀ retVal io t', (sendBack workerId retVal).Keeps ok env io t' := by
    intro retVal io t'
    cases retVal <;> exact trivial
  rw [handleClient_of_request tokens heap workerId hr htype,
    Prog.keeps_bind_of_eq (eval_serviceAvailable env h t), if_pos (by simpa using hcount),
    Prog.keeps_bind, and_iff_left fun io retVal t' _ => hback retVal io t']
  exact and_iff_right trivial

end Client

end PekarDrive
