import PekarDrive.Master.Registration
import PekarDrive.Packet.Receive

/-!
# The argument of a registration

`handle_client` of the master splits the argument of a REGISTER packet with `parse_ip` and
`parse_port` and adds an entry without a test. For an argument that is no address with a port it
adds an entry all the same, or does not come back: without a separator `strncpy` gets the length
`-1`, on the empty string `char_at` runs on behind the terminator, an address of more than 15
characters does not fit its block, and a port is what `atoi` makes of the text, cut to 16 bits.

## Main definitions

* `PekarDrive.AddressAndPort`: an argument that names an address and a port.
* `PekarDrive.Contained`: what is computed from an argument stays inside it.
* `PekarDrive.RegistersAsNamed`.

## Main results

* `PekarDrive.contained_of_ne_nil`, `PekarDrive.not_contained_of_nil`: where `char_at` looks.
* `PekarDrive.registersAsNamed_iff`.
-/

namespace PekarDrive

open CMemory CText LockedThreads

/-- The string is an address of at most 15 characters, the separator and a decimal number, behind
which no digit follows. -/
structure AddressAndPort (s : CString) where
  /-- The address. -/
  ip : List UInt8
  /-- The digits of the number. -/
  digits : List UInt8
  /-- What follows the number. -/
  rest : List UInt8
  /-- They make up the string. -/
  bytes_eq : s.bytes = ip ++ semicolon :: (digits ++ rest)
  /-- The separator is the first one. -/
  notMem_ip : semicolon ∉ ip
  /-- The address fits the block of 16 bytes. -/
  length_ip_le : ip.length ≤ 15
  /-- There is a number. -/
  digits_ne_nil : digits ≠ []
  /-- It is written with digits. -/
  isDigit_of_mem : ∀ b ∈ digits, isDigit b = true
  /-- It ends there. -/
  isDigit_head_rest : ∀ b ∈ rest.head?, isDigit b = false

/-- The length that `strncpy` gets from an index, a `size_t`. -/
def copyLength (separator : ℤ) : ℕ := (separator % 2 ^ 64).toNat

/-- `char_at` finds an index, the same whatever lies behind the string, and neither the length that
`parse_ip` copies nor the offset at which `parse_port` reads is beyond the end of the string. -/
structure Contained (str : List UInt8) : Prop where
  /-- The search of `char_at` comes to an end. -/
  isSome : (charAt str semicolon).isSome
  /-- It does not look behind the terminator. -/
  charAt_eq : ∀ behind, charAt ((CString.ofMemory str).bytes ++ 0 :: behind) semicolon =
    charAt str semicolon
  /-- `parse_ip`. -/
  copied : ∀ separator ∈ charAt str semicolon,
    copyLength separator ≤ (CString.ofMemory str).strlen
  /-- `parse_port`. -/
  offset : ∀ separator ∈ charAt str semicolon,
    0 ≤ separator + 1 ∧ separator + 1 ≤ (CString.ofMemory str).strlen

/-- What is computed stays inside the argument, and `handle_client` leaves the table as it is or
adds one entry, with the address and the port that the argument names. -/
def RegistersAsNamed (tokens : Tokens) (heap : Heap) (workerId : UInt32) (r : ReadResult)
    (env : List Request → Request → Reply) (h : List Request) (t : ServerTable) : Prop :=
  Contained (argMemory r heap) ∧
  ∃ io out t', (handleClient tokens heap workerId r).eval env h t = (io, some (out, t')) ∧
    (t' = t ∨ ∃ w, t'.serverTable = t.serverTable ++ [w] ∧
      ∃ a : AddressAndPort (CString.ofMemory (argMemory r heap)),
        w.location.ip.bytes = a.ip ∧ w.location.port.toNat = digitsValue a.digits)

/-! ### Where `char_at` looks -/

section Search

variable {str : List UInt8}

/-- The memory behind a string starts with its terminator, or ends there. -/
theorem exists_eq_append (str : List UInt8) :
    ∃ tail, str = (CString.ofMemory str).bytes ++ tail ∧ (CString.ofMemory tail).bytes = [] := by
  induction str with
  | nil => exact ⟨[], rfl, rfl⟩
  | cons b bs ih =>
    by_cases hb : b = 0
    · refine ⟨b :: bs, ?_, ?_⟩ <;> simp [hb]
    · obtain ⟨tail, htail, hnil⟩ := ih
      refine ⟨tail, ?_, hnil⟩
      rw [CString.bytes_ofMemory, List.takeWhile_cons_of_pos (by simpa using hb),
        List.cons_append]
      exact congrArg (b :: ·) htail

theorem searchLength_congr {str' : List UInt8}
    (h : CString.ofMemory str = CString.ofMemory str') : searchLength str = searchLength str' := by
  rw [searchLength, searchLength, h]

/-- In a nonempty string `char_at` does not look behind the terminator. -/
theorem charAt_congr {str' : List UInt8} (h : CString.ofMemory str = CString.ofMemory str')
    (hne : (CString.ofMemory str).bytes ≠ []) (c : UInt8) : charAt str c = charAt str' c := by
  have htake : ∀ m : List UInt8, (CString.ofMemory m).bytes ≠ [] →
      m.take (searchLength m) = (CString.ofMemory m).bytes.take (searchLength m) := by
    intro m hm
    obtain ⟨tail, htail, -⟩ := exists_eq_append m
    have happend := @List.take_append_of_le_length _ _ tail _ (searchLength_le hm)
    rwa [← htail] at happend
  have hlen : ∀ m : List UInt8, (CString.ofMemory m).bytes ≠ [] → searchLength m ≤ m.length :=
    fun m hm => (searchLength_le hm).trans (strlen_ofMemory_le m)
  rw [charAt_eq, charAt_eq, htake str hne, htake str' (h ▸ hne), searchLength_congr h, h,
    if_pos (searchLength_congr h ▸ hlen str hne), if_pos (hlen str' (h ▸ hne))]

/-- On the empty string it does. -/
theorem not_contained_of_nil (hnil : (CString.ofMemory str).bytes = []) : ¬ Contained str := by
  intro h
  have hsep := h.charAt_eq []
  have hnone : charAt [0] semicolon = none := rfl
  rw [hnil, List.nil_append, hnone] at hsep
  exact absurd h.isSome (by simp [← hsep])

end Search

/-! ### Arguments that name an address -/

namespace AddressAndPort

variable {str : List UInt8} (a : AddressAndPort (CString.ofMemory str))

include a

/-- The memory at the argument. -/
theorem exists_str_eq : ∃ tail, str = a.ip ++ semicolon :: (a.digits ++ a.rest ++ tail) ∧
    (CString.ofMemory (a.digits ++ a.rest ++ tail)).bytes = a.digits ++ a.rest := by
  obtain ⟨tail, htail, hnil⟩ := exists_eq_append str
  have hnul := (CString.ofMemory str).nulFree
  rw [a.bytes_eq] at htail hnul
  refine ⟨tail, htail.trans (by rw [List.append_assoc, List.cons_append]), ?_⟩
  have hrest : 0 ∉ a.digits ++ a.rest := fun h =>
    hnul (List.mem_append_right _ (List.mem_cons_of_mem _ h))
  rw [CString.bytes_ofMemory_append hrest, hnil, List.append_nil]

theorem nul_notMem_ip : 0 ∉ a.ip := fun h =>
  (CString.ofMemory str).nulFree (a.bytes_eq ▸ List.mem_append_left _ h)

/-- An index that is found is that of the separator. -/
theorem eq_of_charAt {separator : ℤ} (h : charAt str semicolon = some separator)
    (hnonneg : 0 ≤ separator) : a.ip.length < searchLength str ∧ separator = a.ip.length := by
  obtain ⟨tail, hstr, -⟩ := a.exists_str_eq
  rw [charAt_eq] at h
  by_cases hlt : a.ip.length < searchLength str
  · have hfind : (str.take (searchLength str)).findIdx? (fun b => b == semicolon) =
        some a.ip.length := by
      have happend := findIdx?_take_append a.notMem_ip (a.digits ++ a.rest ++ tail) hlt
      rwa [← hstr] at happend
    rw [hfind] at h
    exact ⟨hlt, (Option.some.inj h).symm⟩
  · -- the counter has met the length before
    have hfind : (str.take (searchLength str)).findIdx? (fun b => b == semicolon) = none := by
      rw [List.findIdx?_eq_none_iff]
      intro b hb
      have happend := @List.take_append_of_le_length _ a.ip
        (semicolon :: (a.digits ++ a.rest ++ tail)) _ (not_lt.mp hlt)
      rw [← hstr] at happend
      rw [happend] at hb
      exact beq_eq_false_iff_ne.mpr (ne_of_mem_of_not_mem (List.mem_of_mem_take hb) a.notMem_ip)
    simp only [hfind] at h
    split_ifs at h
    rw [← Option.some.inj h] at hnonneg
    exact absurd hnonneg (by decide)

/-- It is found, if the counter gets as far. -/
theorem charAt_eq (hlt : a.ip.length < searchLength str) :
    charAt str semicolon = some (a.ip.length : ℤ) := by
  obtain ⟨tail, hstr, -⟩ := a.exists_str_eq
  have happend := findIdx?_take_append a.notMem_ip (a.digits ++ a.rest ++ tail) hlt
  rw [← hstr] at happend
  rw [PekarDrive.charAt_eq, happend]

theorem ne_nil : (CString.ofMemory str).bytes ≠ [] := by
  rw [a.bytes_eq]
  simp

theorem length_ip_lt_strlen : a.ip.length < (CString.ofMemory str).strlen := by
  rw [CString.strlen, a.bytes_eq, List.length_append, List.length_cons]
  omega

theorem contained (hlt : a.ip.length < searchLength str) : Contained str := by
  have hsep := a.charAt_eq hlt
  have hstrlen := a.length_ip_lt_strlen
  have hip := a.length_ip_le
  refine ⟨by rw [hsep]; rfl, fun behind => ?_, ?_, ?_⟩
  · have hsame := CString.ofMemory_append_zero (CString.ofMemory str) behind
    exact charAt_congr hsame (by rw [hsame]; exact a.ne_nil) semicolon
  · rintro separator hmem
    obtain rfl := Option.some.inj (hsep.symm.trans hmem)
    rw [copyLength]
    omega
  · rintro separator hmem
    obtain rfl := Option.some.inj (hsep.symm.trans hmem)
    omega

theorem parseIp_eq (hsep : charAt str semicolon = some (a.ip.length : ℤ)) :
    parseIp str = some a.ip := by
  obtain ⟨tail, hstr, -⟩ := a.exists_str_eq
  have hcopy := strncpy_append a.nul_notMem_ip (semicolon :: (a.digits ++ a.rest ++ tail))
  rw [← hstr] at hcopy
  simp only [parseIp, hsep, Int.toNat_natCast, hcopy]
  rw [if_neg (by omega)]

/-- The port is what `atoi` reads, cut to 16 bits. -/
theorem parsePort_eq (hsep : charAt str semicolon = some (a.ip.length : ℤ)) : ∃ s : CString,
    s.bytes = a.digits ++ a.rest ∧
      parsePort str = some (UInt16.ofNat (atoi s % 2 ^ 16).toNat) := by
  obtain ⟨tail, hstr, hbytes⟩ := a.exists_str_eq
  refine ⟨_, hbytes, ?_⟩
  have hone : ((a.ip.length : ℤ) + 1).toNat = a.ip.length + 1 := by omega
  have hdrop : (a.ip ++ semicolon :: (a.digits ++ a.rest ++ tail)).drop (a.ip.length + 1) =
      a.digits ++ a.rest ++ tail := by
    rw [← List.drop_drop, List.drop_left, List.drop_one, List.tail_cons]
  rw [← hstr] at hdrop
  simp only [parsePort, hsep, hone, hdrop]

end AddressAndPort

/-! ### What is registered -/

section Register

variable {tokens : Tokens} {heap : Heap} {workerId : UInt32} {r : ReadResult}
  {env : List Request → Request → Reply} {h : List Request} {t : ServerTable}
  (hr : 0 < r.bytes) (htype : (pDecode r.buffer).val.msgType = MsgType.register.code)
  (htoken : (pDecode r.buffer).val.token = tokens.workerTkn)

/-- An entry is added when the count does not go round. -/
theorem toNat_serverCount_lt {t' : ServerTable} {w : FileServer} (hadd : t.add w = some t') :
    t.serverCount.toNat < 65535 := by
  have hround : ¬ t.serverCount + 1 = 0 := by
    intro hzero
    rw [ServerTable.add, dif_pos hzero] at hadd
    exact absurd hadd (by simp)
  by_contra hge
  refine hround (UInt16.toNat_inj.mp ?_)
  have hlt := t.serverCount.toNat_lt
  rw [UInt16.toNat_add]
  simp only [UInt16.reduceToNat]
  omega

include hr htype htoken

/-- When `handle_client` returns, an entry has been added, with what `parse_ip` and `parse_port`
make of the argument. -/
theorem exists_entry_of_eval {io : List Request} {out : Served} {t' : ServerTable}
    (heval : (handleClient tokens heap workerId r).eval env h t = (io, some (out, t'))) :
    ∃ ip port, parseIp (argMemory r heap) = some ip ∧ parsePort (argMemory r heap) = some port ∧
      t.add ⟨workerId.toUInt64, 0, CString.ofMemory (ip ++ heap.behindIp), port⟩ = some t' := by
  rw [handleClient_of_register tokens heap workerId hr htype htoken] at heval
  cases hport : parsePort (argMemory r heap) with
  | none =>
    simp only [hport] at heval
    exact absurd (congrArg Prod.snd heval) (by simp)
  | some port =>
    cases hip : parseIp (argMemory r heap) with
    | none =>
      simp only [hport, hip] at heval
      exact absurd (congrArg Prod.snd heval) (by simp)
    | some ip =>
      simp only [hport, hip] at heval
      refine ⟨ip, port, rfl, rfl, ?_⟩
      cases hadd : t.add ⟨workerId.toUInt64, 0, CString.ofMemory (ip ++ heap.behindIp), port⟩ with
      | none =>
        simp only [addServer, Prog.acquire_bind, Prog.read_bind, Prog.lock_bind, Prog.get_bind,
          Prog.eval_lock, Prog.eval_get, hadd] at heval
        exact absurd (congrArg Prod.snd heval) (by simp)
      | some t'' =>
        rw [Prog.eval_bind_of_eq (eval_addServer env h t hadd)] at heval
        exact congrArg some (Prod.mk.inj (Option.some.inj (congrArg Prod.snd heval))).2

theorem eval_of_entry {ip : List UInt8} {port : UInt16} {t' : ServerTable}
    (hip : parseIp (argMemory r heap) = some ip) (hport : parsePort (argMemory r heap) = some port)
    (hadd : t.add ⟨workerId.toUInt64, 0, CString.ofMemory (ip ++ heap.behindIp), port⟩ = some t') :
    (handleClient tokens heap workerId r).eval env h t =
      (h, some (⟨none, workerId + 1⟩, t')) := by
  rw [handleClient_of_register tokens heap workerId hr htype htoken]
  simp only [hport, hip]
  rw [Prog.eval_bind_of_eq (eval_addServer env h t hadd)]
  rfl

/-- What is registered as it is named. -/
theorem RegistersAsNamed.exists_addressAndPort
    (hnamed : RegistersAsNamed tokens heap workerId r env h t) :
    (∃ a : AddressAndPort (CString.ofMemory (argMemory r heap)),
      a.ip.length < searchLength (argMemory r heap) ∧ digitsValue a.digits ≤ 65535) ∧
    (CString.ofMemory heap.behindIp).bytes = [] ∧ t.serverCount.toNat < 65535 := by
  obtain ⟨-, io, out, t', heval, hentry⟩ := hnamed
  obtain ⟨ip, port, hip, hport, hadd⟩ := exists_entry_of_eval hr htype htoken heval
  have htab := ServerTable.serverTable_add hadd
  rcases hentry with rfl | ⟨w, hw, a, hwip, hwport⟩
  · exact absurd (congrArg List.length htab) (by simp)
  · rw [hw, List.append_cancel_left_eq, List.cons.injEq] at htab
    obtain ⟨rfl, -⟩ := htab
    -- the index that `parse_ip` has found
    obtain ⟨separator, hsep, hnonneg⟩ : ∃ separator,
        charAt (argMemory r heap) semicolon = some separator ∧ 0 ≤ separator := by
      rw [parseIp] at hip
      split at hip
      · exact absurd hip (by simp)
      · rename_i separator hsep
        split_ifs at hip with hneg
        exact ⟨separator, hsep, not_lt.mp hneg⟩
    obtain ⟨hlt, rfl⟩ := a.eq_of_charAt hsep hnonneg
    obtain rfl := Option.some.inj ((a.parseIp_eq hsep).symm.trans hip)
    refine ⟨⟨a, hlt, ?_⟩, ?_, toNat_serverCount_lt hadd⟩
    · rw [← hwport]
      exact Nat.lt_succ_iff.mp port.toNat_lt
    · rwa [CString.bytes_ofMemory_append a.nul_notMem_ip, List.append_right_eq_self] at hwip

/-- A number of 16 bits is the port that is read. -/
theorem registersAsNamed (a : AddressAndPort (CString.ofMemory (argMemory r heap)))
    (hlt : a.ip.length < searchLength (argMemory r heap)) (hvalue : digitsValue a.digits ≤ 65535)
    (hbehind : (CString.ofMemory heap.behindIp).bytes = [])
    (hcount : t.serverCount.toNat < 65535) :
    RegistersAsNamed tokens heap workerId r env h t := by
  have hsep := a.charAt_eq hlt
  obtain ⟨s, hs, hport⟩ := a.parsePort_eq hsep
  have hatoi : atoi s = digitsValue a.digits := by
    refine atoi_of_leadingInt (by omega) ?_
    rw [hs]
    exact leadingInt_digits_append a.digits_ne_nil a.isDigit_of_mem a.isDigit_head_rest
  have hmod : ((digitsValue a.digits : ℤ) % 2 ^ 16).toNat = digitsValue a.digits := by omega
  rw [hatoi, hmod] at hport
  obtain ⟨t', hadd⟩ := ServerTable.add_isSome ⟨workerId.toUInt64, 0,
    CString.ofMemory (a.ip ++ heap.behindIp), UInt16.ofNat (digitsValue a.digits)⟩ hcount
  refine ⟨a.contained hlt, _, _, t',
    eval_of_entry hr htype htoken (a.parseIp_eq hsep) hport hadd, .inr ⟨_,
      ServerTable.serverTable_add hadd, a, ?_, ?_⟩⟩
  · rw [CString.bytes_ofMemory_append a.nul_notMem_ip, hbehind, List.append_nil]
  · rw [UInt16.toNat_ofNat', Nat.mod_eq_of_lt (by omega)]

/-- **The argument of a registration.** For every REGISTER packet with the token of the workers,
everything stays inside the argument and the table is left as it is or gains what the argument
names, if and only if the argument is an address of at most 15 characters with a number of 16 bits
behind the separator, the counter of `char_at` gets to the separator, the byte behind the copied
address happens to be zero, and the table has room. -/
theorem registersAsNamed_iff : RegistersAsNamed tokens heap workerId r env h t ↔
    (∃ a : AddressAndPort (CString.ofMemory (argMemory r heap)),
      a.ip.length < searchLength (argMemory r heap) ∧ digitsValue a.digits ≤ 65535) ∧
    (CString.ofMemory heap.behindIp).bytes = [] ∧ t.serverCount.toNat < 65535 := by
  constructor
  · exact RegistersAsNamed.exists_addressAndPort hr htype htoken
  · rintro ⟨⟨a, hlt, hvalue⟩, hbehind, hcount⟩
    exact registersAsNamed hr htype htoken a hlt hvalue hbehind hcount

end Register

/-! ### Two packets -/

section Examples

/-- A delivered REGISTER packet, in a buffer of zeros. -/
def registerResult (arg : CString) : ReadResult :=
  .delivered
    (pEncode (attachToken exampleTokens.workerTkn (pInit 0 arg MsgType.register.code)) ++ [])
    fun _ => 0

variable {arg : CString} (harg : arg.strlen < 2 ^ 32)

include harg

theorem pDecode_registerResult : (pDecode (registerResult arg).buffer).val =
    attachToken exampleTokens.workerTkn (pInit 0 arg MsgType.register.code) := by
  refine pDecode_overlay_pEncode ?_ [] fun _ => 0
  change arg.bytes.length = (UInt32.ofNat arg.strlen).toNat
  rw [toNat_counter harg]
  rfl

theorem argMemory_registerResult : argMemory (registerResult arg) zeroHeap = arg.bytes ++ [0] := by
  rw [argMemory, pDecode_registerResult harg]
  rfl

theorem registerResult_facts : 0 < (registerResult arg).bytes ∧
    (pDecode (registerResult arg).buffer).val.msgType = MsgType.register.code ∧
    (pDecode (registerResult arg).buffer).val.token = exampleTokens.workerTkn := by
  rw [pDecode_registerResult harg]
  refine ⟨?_, rfl, rfl⟩
  simp [registerResult, ReadResult.delivered, pEncode, headerSize]
  omega

end Examples

/-- The argument `1.2.3.4;80`. -/
def exampleArgument : AddressAndPort (lit "1.2.3.4;80") where
  ip := ascii "1.2.3.4"
  digits := ascii "80"
  rest := []
  bytes_eq := by decide
  notMem_ip := by decide
  length_ip_le := by decide
  digits_ne_nil := by decide
  isDigit_of_mem := List.all_eq_true.mp (by decide)
  isDigit_head_rest := by simp

/-- It is registered as it is named. -/
theorem registersAsNamed_test : RegistersAsNamed exampleTokens zeroHeap 1
    (registerResult (lit "1.2.3.4;80")) (fun _ _ => silentReply) [] .empty := by
  have hlen : (lit "1.2.3.4;80").strlen < 2 ^ 32 := by decide
  obtain ⟨hr, htype, htoken⟩ := registerResult_facts hlen
  refine (registersAsNamed_iff hr htype htoken).mpr ⟨?_, rfl, by decide⟩
  rw [argMemory_registerResult hlen, CString.ofMemory_append_zero]
  exact ⟨exampleArgument, by decide, by decide⟩

/-- On the empty argument `char_at` looks behind the terminator. -/
theorem not_forall_registersAsNamed : ¬ ∀ (tokens : Tokens) (heap : Heap) (workerId : UInt32)
    (r : ReadResult) (env : List Request → Request → Reply) (h : List Request) (t : ServerTable),
    0 < r.bytes → (pDecode r.buffer).val.msgType = MsgType.register.code →
    (pDecode r.buffer).val.token = tokens.workerTkn →
      RegistersAsNamed tokens heap workerId r env h t := by
  intro h
  have hlen : (lit "").strlen < 2 ^ 32 := by decide
  obtain ⟨hr, htype, htoken⟩ := registerResult_facts hlen
  refine not_contained_of_nil ?_ (h exampleTokens zeroHeap 1 (registerResult (lit ""))
    (fun _ _ => silentReply) [] .empty hr htype htoken).1
  rw [argMemory_registerResult hlen]
  decide

end PekarDrive
