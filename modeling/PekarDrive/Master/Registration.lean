import PekarDrive.Master.Client
import PekarDrive.Worker.Boot

/-!
# Registering a worker

What `handle_client` makes of the packet that `register_worker` sends.

The 40 bytes sent hold a header and 18 bytes of the message, and the message is six characters
longer than the address: from 13 characters on the port is cut. The master then splits an
argument that carries no terminator, and copies the address out of a block that carries none, so
what it registers depends on the memory behind these blocks for every address.

## Main definitions

* `PekarDrive.RegisterMemory`: the memory that takes part beyond the bytes sent and received.
* `PekarDrive.RegistersExactly`: the table gains the one entry that the worker means.

## Main results

* `PekarDrive.not_forall_registersExactly`: no address is registered exactly over every memory;
  when all that memory is blank, the addresses of at most 12 characters are.
-/

namespace PekarDrive

open CMemory CText LockedThreads

/-- The memory beyond the bytes that are sent and received. -/
structure RegisterMemory where
  /-- Behind the block of `p_encode` in the worker. -/
  sender : Mem
  /-- In the receive buffer of the master. -/
  stale : Mem
  /-- Around the blocks that the master allocates. -/
  heap : Heap

/-- What `handle_client` of the master does with a registration. -/
def registration (tokens : Tokens) (workerId : UInt32) (ip : CString) (m : RegisterMemory) :
    TableProg Request Reply Served :=
  handleClient tokens m.heap workerId (.delivered (registerWire tokens ip m.sender) m.stale)

/-- The table gains exactly one entry, with the address and the port of the worker, and keeps its
other entries. -/
def RegistersExactly (tokens : Tokens) (workerId : UInt32)
    (env : List Request → Request → Reply) (t : ServerTable) (ip : CString)
    (m : RegisterMemory) : Prop :=
  ∃ io out t' w, (registration tokens workerId ip m).eval env [] t = (io, some (out, t')) ∧
    t'.serverTable = t.serverTable ++ [w] ∧ w.location = ⟨ip, getPort⟩

/-- A memory in which nothing but zeros lies beyond the bytes received, apart from what lies
behind the block of `parse_ip`. -/
def blankMemory (sender : Mem) (behindIp : List UInt8) : RegisterMemory where
  sender := sender
  stale := fun _ => 0
  heap := { zeroHeap with behindIp := behindIp }

/-! ### The argument that arrives -/

section Argument

variable (tokens : Tokens) (ip : CString) (sender : Mem) (behindIp : List UInt8)

theorem length_arg_registerPacket (hip : ip.strlen ≤ 15) :
    (registerPacket tokens ip).arg.length = (registerPacket tokens ip).msgLen.toNat := by
  change (registerMsg ip).bytes.length = (UInt32.ofNat (registerMsg ip).bytes.length).toNat
  rw [UInt32.toNat_ofNat', length_registerMsg, Nat.mod_eq_of_lt (by omega)]

/-- The 40 bytes are the header, what fits of the message, and what fits of the memory behind. -/
theorem registerWire_eq (hip : ip.strlen ≤ 15) :
    registerWire tokens ip sender = encodeHeader (registerPacket tokens ip) ++
      ((registerMsg ip).bytes.take 18 ++ window sender (ip.strlen + 28) (12 - ip.strlen)) := by
  have henc : pEncode (registerPacket tokens ip) =
      encodeHeader (registerPacket tokens ip) ++ (registerMsg ip).bytes := by
    rw [pEncode, ← length_arg_registerPacket tokens ip hip, List.take_length]
    rfl
  rw [registerWire, connWrite, window_overlay_zero, henc, registerLen, List.take_append,
    length_encodeHeader, List.take_of_length_le (by simp [headerSize]), List.length_append,
    length_encodeHeader, length_registerMsg, List.append_assoc]
  simp only [headerSize]
  rw [show 22 + (ip.strlen + 6) = ip.strlen + 28 by omega,
    show 40 - (ip.strlen + 28) = 12 - ip.strlen by omega]

/-- The master finds the header of the packet in its buffer. -/
theorem pDecode_registerWire (hip : ip.strlen ≤ 15) (stale : Mem) :
    (pDecode (overlay (registerWire tokens ip sender) stale)).val.msgLen.toNat = ip.strlen + 6 ∧
      (pDecode (overlay (registerWire tokens ip sender) stale)).val.msgType =
        MsgType.register.code ∧
      (pDecode (overlay (registerWire tokens ip sender) stale)).val.token = tokens.workerTkn := by
  obtain ⟨-, hlen, htype, -, htoken⟩ := pDecode_header (registerPacket tokens ip)
    ((registerMsg ip).bytes.take 18 ++ window sender (ip.strlen + 28) (12 - ip.strlen)) stale
  rw [← registerWire_eq tokens ip sender hip] at hlen htype htoken
  refine ⟨?_, htype, htoken⟩
  rw [hlen, ← length_arg_registerPacket tokens ip hip]
  exact length_registerMsg ip

/-- In a blank memory the argument is followed by a terminator, and is cut at 18 characters. -/
theorem exists_argMemory_eq (hip : ip.strlen ≤ 15) : ∃ zs,
    argMemory (.delivered (registerWire tokens ip sender) fun _ => 0)
      (blankMemory sender behindIp).heap = (registerMsg ip).bytes.take 18 ++ 0 :: zs := by
  have hmsg := length_registerMsg ip
  have harg := arg_pDecode (overlay (registerWire tokens ip sender) fun _ => 0)
  rw [(pDecode_registerWire tokens ip sender hip fun _ => 0).1] at harg
  change ∃ zs, (pDecode (overlay (registerWire tokens ip sender) fun _ => 0)).val.arg ++ [0] = _
  rw [harg]
  rcases Nat.le_total (ip.strlen + 6) 18 with hle | hle
  · -- the whole message has arrived
    rw [registerWire_eq tokens ip sender hip, List.take_of_length_le (by omega),
      ← List.append_assoc, window_overlay_append _ _ _ _ (by simp [headerSize]) hmsg.symm]
    exact ⟨[], rfl⟩
  · obtain ⟨k, hk⟩ := Nat.exists_eq_add_of_le hle
    have hwire : (registerWire tokens ip sender).length ≤ 22 + 18 := by
      rw [length_registerWire, registerLen]
    have hbehind : window (overlay (registerWire tokens ip sender) fun _ => 0) (22 + 18) k =
        List.replicate k 0 := by
      have hzero : window (overlay (registerWire tokens ip sender) fun _ => 0) (22 + 18) k =
          window (fun _ => 0) (22 + 18) k :=
        window_congr fun i hi _ => overlay_of_le _ (le_trans hwire hi)
      rw [hzero]
      simp [window]
    have hfit : window (overlay (registerWire tokens ip sender) fun _ => 0) 22 18 =
        (registerMsg ip).bytes.take 18 := by
      rw [registerWire_eq tokens ip sender hip, ← List.append_assoc]
      exact window_overlay_append _ _ _ _ (by simp [headerSize]) (by simp; omega)
    rw [hk, window_add, hfit, hbehind, List.append_assoc]
    cases k with
    | zero => exact ⟨[], rfl⟩
    | succ k => exact ⟨List.replicate k 0 ++ [0], rfl⟩

end Argument

/-! ### What is registered -/

/-- The digits of the port that arrive behind an address of length `n`. -/
def portPrefix (n : ℕ) : CString where
  bytes := portText.bytes.take (17 - n)
  nulFree h := portText.nulFree (List.mem_of_mem_take h)

/-- The port that the master reads behind an address of length `n`. -/
def portRead (n : ℕ) : UInt16 := UInt16.ofNat (atoi (portPrefix n) % 2 ^ 16).toNat

/-- An address of at most 12 characters leaves room for all digits of the port. -/
theorem portRead_of_le {n : ℕ} (h : n ≤ 12) : portRead n = getPort := by
  have hfit : portText.bytes.length ≤ 17 - n := le_trans (show 5 ≤ 17 - 12 from le_rfl) (by omega)
  have hdigits : (portPrefix n).bytes = decimal getPort.toNat ++ [] := by
    rw [List.append_nil, ← bytes_portText]
    exact List.take_of_length_le hfit
  rw [portRead, atoi_decimal_append (by decide) hdigits (by simp)]
  rfl

/-- Of 13 to 15 characters, the address leaves no room for the port. -/
theorem portRead_eq_getPort_iff {n : ℕ} (h : 7 ≤ n ∧ n ≤ 15) : portRead n = getPort ↔ n ≤ 12 := by
  refine ⟨fun heq => ?_, portRead_of_le⟩
  by_contra hlt
  obtain ⟨-, hle⟩ := h
  have hlo : 13 ≤ n := not_le.mp hlt
  interval_cases n <;> exact absurd heq (by decide)

theorem take_registerMsg (ip : CString) (hip : ip.strlen ≤ 15) :
    (registerMsg ip).bytes.take 18 = ip.bytes ++ 59 :: (portPrefix ip.strlen).bytes := by
  have hfit : ip.bytes.length ≤ 18 := le_trans hip (by decide)
  rw [bytes_registerMsg, List.take_append, List.take_of_length_le hfit]
  change ip.bytes ++ List.take (18 - ip.strlen) _ = _
  rw [show 18 - ip.strlen = 17 - ip.strlen + 1 by omega, List.take_succ_cons]
  rfl

section Registration

variable (tokens : Tokens) (workerId : UInt32) (q : DottedQuad) (sender : Mem)
  (behindIp : List UInt8)

theorem parse_registration {arg zs : List UInt8}
    (harg : arg = (registerMsg q.text).bytes.take 18 ++ 0 :: zs) :
    parseIp arg = some q.bytes ∧ parsePort arg = some (portRead q.text.strlen) := by
  have hip := q.strlen_text
  have hform : arg = q.bytes ++ 59 :: ((portPrefix q.text.strlen).bytes ++ 0 :: zs) := by
    rw [harg, take_registerMsg q.text hip.2, List.append_assoc]
    rfl
  have hsep : (59 : UInt8) ∉ q.bytes := fun h => by
    rcases q.isDigit_or_dot 59 h with h | h
    · exact absurd h (by decide)
    · exact absurd h (by decide)
  have hport := CString.ofMemory_append_zero (portPrefix q.text.strlen) zs
  have hstrlen : (portPrefix q.text.strlen).strlen ≤ 5 :=
    le_trans (List.length_take_le' _ _) (by decide)
  have hchar : charAt arg semicolon = some (q.text.strlen : ℤ) := by
    rw [hform]
    refine charAt_append hsep q.text.nulFree (by decide) ?_
    rw [hport]
    change q.text.strlen + 1 + _ ≤ _
    omega
  have hdrop : arg.drop ((q.text.strlen : ℤ) + 1).toNat =
      (portPrefix q.text.strlen).bytes ++ 0 :: zs := by
    rw [hform, show ((q.text.strlen : ℤ) + 1).toNat = q.bytes.length + 1 by
      simp [CString.strlen]]
    simp
  constructor
  · simp only [parseIp, hchar]
    rw [if_neg (by omega), Int.toNat_natCast, hform]
    exact congrArg some (strncpy_append q.text.nulFree _)
  · simp only [parsePort, hchar, hdrop, hport]
    rfl

/-- In a blank memory the master adds one entry: the address runs on into the memory behind the
block of `parse_ip`, and the port is what has arrived of it. -/
theorem registration_eq : registration tokens workerId q.text (blankMemory sender behindIp) = do
    addServer {
      id := workerId.toUInt64
      size := 0
      location := ⟨CString.ofMemory (q.bytes ++ behindIp), portRead q.text.strlen⟩ }
    return ⟨none, workerId + 1⟩ := by
  have hip := q.strlen_text.2
  obtain ⟨-, htype, htoken⟩ := pDecode_registerWire tokens q.text sender hip fun _ => 0
  obtain ⟨zs, harg⟩ := exists_argMemory_eq tokens q.text sender behindIp hip
  obtain ⟨hparseIp, hparsePort⟩ := parse_registration q harg
  have hpos : 0 < (ReadResult.delivered (registerWire tokens q.text sender) fun _ => 0).bytes := by
    simp [ReadResult.delivered, registerLen]
  rw [registration]
  change handleClient tokens _ workerId (.delivered (registerWire tokens q.text sender)
    fun _ => 0) = _
  rw [handleClient_of_register tokens _ workerId hpos htype htoken, hparseIp, hparsePort]
  rfl

end Registration

section Exact

variable {tokens : Tokens} {workerId : UInt32} {env : List Request → Request → Reply}
  {t : ServerTable} {q : DottedQuad} {sender : Mem} {behindIp : List UInt8}

theorem ofMemory_bytes_append_eq_text_iff :
    CString.ofMemory (q.bytes ++ behindIp) = q.text ↔ (CString.ofMemory behindIp).bytes = [] := by
  have hbytes : (CString.ofMemory (q.bytes ++ behindIp)).bytes =
      q.bytes ++ (CString.ofMemory behindIp).bytes :=
    CString.bytes_ofMemory_append q.text.nulFree behindIp
  rw [CString.ext_iff, hbytes, DottedQuad.bytes_text, List.append_right_eq_self]

/-- In a blank memory, an exact registration needs a terminator behind the address, and room for
the port. -/
theorem RegistersExactly.blankMemory
    (h : RegistersExactly tokens workerId env t q.text (blankMemory sender behindIp)) :
    (CString.ofMemory behindIp).bytes = [] ∧ q.text.strlen ≤ 12 := by
  obtain ⟨io, out, t', w, heval, htab, hw⟩ := h
  rw [registration_eq] at heval
  cases hadd : t.add ⟨workerId.toUInt64, 0, CString.ofMemory (q.bytes ++ behindIp),
      portRead q.text.strlen⟩ with
  | none =>
    simp only [addServer, Prog.acquire_bind, Prog.read_bind, Prog.lock_bind, Prog.get_bind,
      Prog.eval_lock, Prog.eval_get, hadd] at heval
    exact absurd (congrArg Prod.snd heval) (by simp)
  | some t'' =>
    rw [Prog.eval_bind_of_eq (eval_addServer env [] t hadd)] at heval
    obtain rfl : t'' = t' := by
      have := congrArg Prod.snd heval
      simp only [Prog.pure_eq_ret, Prog.eval_ret, Option.some.injEq, Prod.mk.injEq] at this
      exact this.2
    rw [ServerTable.serverTable_add hadd, List.append_cancel_left_eq, List.cons.injEq] at htab
    rw [← htab.1] at hw
    obtain ⟨hip, hport⟩ := Location.mk.injEq .. ▸ hw
    exact ⟨ofMemory_bytes_append_eq_text_iff.1 hip,
      (portRead_eq_getPort_iff q.strlen_text).1 hport⟩

theorem registersExactly_blankMemory (ht : t.serverCount.toNat < 65535)
    (hip : (CString.ofMemory behindIp).bytes = []) (hlen : q.text.strlen ≤ 12) :
    RegistersExactly tokens workerId env t q.text (blankMemory sender behindIp) := by
  obtain ⟨t', hadd⟩ := ServerTable.add_isSome ⟨workerId.toUInt64, 0,
    CString.ofMemory (q.bytes ++ behindIp), portRead q.text.strlen⟩ ht
  refine ⟨[], ⟨none, workerId + 1⟩, t', _, ?_, ServerTable.serverTable_add hadd, ?_⟩
  · rw [registration_eq, Prog.eval_bind_of_eq (eval_addServer env [] t hadd)]
    rfl
  · rw [ofMemory_bytes_append_eq_text_iff.2 hip, (portRead_eq_getPort_iff q.strlen_text).2 hlen]

end Exact

/-- **Registering a worker.** No address is registered exactly over every memory: the copy of the
address runs on into whatever lies behind it. In a memory that is blank beyond the bytes sent and
received, the addresses of at most 12 characters are registered exactly, and no others. -/
theorem not_forall_registersExactly (tokens : Tokens) (workerId : UInt32)
    (env : List Request → Request → Reply) (t : ServerTable) (q : DottedQuad) :
    (¬ ∀ m, RegistersExactly tokens workerId env t q.text m) ∧
      (t.serverCount.toNat < 65535 → ∀ sender,
        (RegistersExactly tokens workerId env t q.text (blankMemory sender [0]) ↔
          q.text.strlen ≤ 12)) := by
  refine ⟨fun h => ?_, fun ht sender => ⟨fun h => h.blankMemory.2, fun hlen => ?_⟩⟩
  · exact absurd (h (blankMemory (fun _ => 0) [49, 0])).blankMemory.1 (by decide)
  · exact registersExactly_blankMemory ht (by decide) hlen

/-- The address `192.168.100.100`. -/
def exampleAddress : DottedQuad where
  a := ⟨ascii "192", List.all_eq_true.mp (by decide), by decide, by decide⟩
  b := ⟨ascii "168", List.all_eq_true.mp (by decide), by decide, by decide⟩
  c := ⟨ascii "100", List.all_eq_true.mp (by decide), by decide, by decide⟩
  d := ⟨ascii "100", List.all_eq_true.mp (by decide), by decide, by decide⟩

/-- Of 15 characters, an address leaves room for two digits of the port even in a blank
memory. -/
theorem not_registersExactly_exampleAddress :
    ¬ ∀ (tokens : Tokens) (workerId : UInt32) (env : List Request → Request → Reply)
      (t : ServerTable) (q : DottedQuad) (m : RegisterMemory), t.serverCount.toNat < 65535 →
      RegistersExactly tokens workerId env t q.text m := by
  intro h
  have hexact := h exampleTokens 1 (fun _ _ => silentReply) .empty exampleAddress
    (blankMemory (fun _ => 0) [0]) (by decide)
  exact absurd hexact.blankMemory.2 (by decide)

end PekarDrive
