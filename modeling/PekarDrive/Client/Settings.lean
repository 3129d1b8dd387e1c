import PekarDrive.Foundation.Text

/-!
# The settings of a client

`src/client/settings.c`: the address of the master in a file of two lines. Each setter reads the
other value from the file and writes both. A host that is not set is written as `unknown`, which
the pattern of `get_master_port` takes for a host and that of `get_master_host` does not: then
`get_master_host` returns the block that it has allocated, as it was.

The settings are to be a host, if one has been set, and a port (`PekarDrive.Settings`). The file
refines them from the first host on (`PekarDrive.Settings.Recorded`).

A host that does not fit the block of 16 bytes that it is read into is the outcome `none`.

## Main definitions

* `PekarDrive.getMasterHost`, `PekarDrive.getMasterPort`, `PekarDrive.setMasterHost`,
  `PekarDrive.setMasterPort`.
* `PekarDrive.HostText`, `PekarDrive.SettingsOp`, `PekarDrive.Settings`.
* `PekarDrive.SettingsAgree`, `PekarDrive.HostFirst`.

## Main results

* `PekarDrive.settingsAgree_iff`.
-/

namespace PekarDrive

open CText

/-! ### Reading the file -/

/-- The characters of `[0-9.]`. -/
def isHostByte (b : UInt8) : Bool := isDigit b || b == 46

/-- The characters of `[0-9.A-Za-z]`. -/
def isAddressByte (b : UInt8) : Bool :=
  isHostByte b || (decide (65 ≤ b.toNat) && decide (b.toNat ≤ 90)) ||
    (decide (97 ≤ b.toNat) && decide (b.toNat ≤ 122))

/-- A conversion `%[...]` into a block of 16 bytes that holds `ip`: the block afterwards, and what
is not read. Without a character that matches, the conversion fails and stores nothing. -/
def scanSet (matching : UInt8 → Bool) (content ip : List UInt8) :
    Option (List UInt8 × Option (List UInt8)) :=
  let run := content.takeWhile matching
  if run = [] then some (ip, none)
  else if run.length < 16 then
    some (run ++ 0 :: ip.drop (run.length + 1), some (content.drop run.length))
  else none

/-- What follows a sign. -/
def unsignedPart : List UInt8 → List UInt8
  | 45 :: ds => ds
  | 43 :: ds => ds
  | ds => ds

/-- A conversion `%d`: the integer behind blanks and a sign, if there is a digit. -/
def scanInt (s : List UInt8) : Option ℤ :=
  if (unsignedPart (s.dropWhile isSpace)).takeWhile isDigit = [] then none
  else some (max (-2 ^ 63) (min (2 ^ 63 - 1) (leadingInt s)))

/-- What a call finds in fresh memory. -/
structure CallMemory where
  /-- From the block `ip` on. -/
  ip : List UInt8
  /-- The local variable `port`. -/
  port : UInt32

/-- `get_master_host`: `NULL` when there is no file. -/
def getMasterHost (memory : CallMemory) (file : Option (List UInt8)) : Option (Option CString) :=
  match file with
  | none => some none
  | some content => (scanSet isHostByte content memory.ip).map fun r =>
      some (CString.ofMemory r.1)

/-- `get_master_port`. -/
def getMasterPort (memory : CallMemory) (file : Option (List UInt8)) : Option UInt16 :=
  match file with
  | none => some 0
  | some content => (scanSet isAddressByte content memory.ip).map fun r =>
      match r.2.bind scanInt with
      | none => memory.port.toUInt16
      | some port => (UInt32.ofInt port).toUInt16

theorem isSome_scanSet_iff {matching : UInt8 → Bool} {content ip : List UInt8} :
    (scanSet matching content ip).isSome ↔ (content.takeWhile matching).length < 16 := by
  rw [scanSet]
  split_ifs with hnil hlt
  · exact iff_of_true rfl (by rw [hnil]; decide)
  · exact iff_of_true rfl hlt
  · exact iff_of_false (by simp) hlt

/-- `get_master_host` returns if what it stores has room in its block. -/
theorem isSome_getMasterHost_iff {memory : CallMemory} {file : Option (List UInt8)} :
    (getMasterHost memory file).isSome ↔
      ∀ content ∈ file, (content.takeWhile isHostByte).length < 16 := by
  cases file with
  | none => exact iff_of_true rfl (by simp)
  | some content => simp [getMasterHost, isSome_scanSet_iff]

/-- So does `get_master_port`. -/
theorem isSome_getMasterPort_iff {memory : CallMemory} {file : Option (List UInt8)} :
    (getMasterPort memory file).isSome ↔
      ∀ content ∈ file, (content.takeWhile isAddressByte).length < 16 := by
  cases file with
  | none => exact iff_of_true rfl (by simp)
  | some content => simp [getMasterPort, isSome_scanSet_iff]

/-! ### Writing the file -/

/-- What `set_master_address` prints. -/
def addressText (ip : Option CString) (port : UInt16) : List UInt8 :=
  (ip.getD (lit "unknown")).bytes ++ 10 :: (decimal port.toNat ++ [10])

/-- `set_master_address`; `writable` tells whether the file can be opened for writing. -/
def setMasterAddress (writable : Bool) (ip : Option CString) (port : UInt16)
    (file : Option (List UInt8)) : Option (List UInt8) :=
  if writable then some (addressText ip port) else file

/-- `set_master_host`. -/
def setMasterHost (writable : Bool) (memory : CallMemory) (host : CString)
    (file : Option (List UInt8)) : Option (Option (List UInt8)) :=
  (getMasterPort memory file).map fun port => setMasterAddress writable (some host) port file

/-- `set_master_port`. -/
def setMasterPort (writable : Bool) (memory : CallMemory) (port : UInt16)
    (file : Option (List UInt8)) : Option (Option (List UInt8)) :=
  (getMasterHost memory file).map fun host => setMasterAddress writable host port file

/-! ### Sequences of calls -/

/-- A text of at most 15 digits and dots, as a dotted quad is. -/
structure HostText where
  /-- The text. -/
  text : CString
  /-- It is not empty. -/
  ne_nil : text.bytes ≠ []
  /-- Its characters. -/
  isHostByte : ∀ b ∈ text.bytes, isHostByte b = true
  /-- It fits the block. -/
  strlen_lt : text.strlen < 16

/-- A call of one of the setters. -/
inductive SettingsOp
  | setHost (host : HostText)
  | setPort (port : UInt16)

/-- The call, with the file before and after it. -/
def SettingsOp.run (writable : Bool) (memory : CallMemory) :
    SettingsOp → Option (List UInt8) → Option (Option (List UInt8))
  | setHost host => setMasterHost writable memory host.text
  | setPort port => setMasterPort writable memory port

/-- Calls one after the other. -/
def runSettings (writable : Bool) :
    List (SettingsOp × CallMemory) → Option (List UInt8) → Option (Option (List UInt8))
  | [], file => some file
  | (op, memory) :: calls, file => (op.run writable memory file).bind (runSettings writable calls)

/-- The settings: what has been set last. -/
structure Settings where
  /-- The host, if one has been set. -/
  host : Option HostText
  /-- The port. -/
  port : UInt16

namespace Settings

/-- Setting one of the two. -/
def set (s : Settings) : SettingsOp → Settings
  | .setHost host => { s with host := some host }
  | .setPort port => { s with port := port }

/-- The settings after some calls. -/
def after (ops : List SettingsOp) : Settings := ops.foldl set ⟨none, 0⟩

/-- The file that records settings with a host. -/
def Recorded (s : Settings) (file : Option (List UInt8)) : Prop :=
  ∃ host, s.host = some host ∧ file = some (addressText (some host.text) s.port)

end Settings

/-- Whatever the calls find in fresh memory, the two getters return what has been set last. -/
def SettingsAgree (writable : Bool) (ops : List SettingsOp) : Prop :=
  ∀ calls : List (SettingsOp × CallMemory), calls.map Prod.fst = ops → ∀ memory : CallMemory,
    ∃ file, runSettings writable calls none = some file ∧
      getMasterHost memory file = some ((Settings.after ops).host.map HostText.text) ∧
      getMasterPort memory file = some (Settings.after ops).port

/-- The host is set before the port is set a second time, or nothing is set. -/
def HostFirst : List SettingsOp → Prop
  | [] => True
  | .setHost _ :: _ => True
  | .setPort _ :: .setHost _ :: _ => True
  | _ => False

/-! ### A recorded address -/

section Text

variable {ip : CString} {port : UInt16}

theorem isAddressByte_of_isHostByte {b : UInt8} (hb : isHostByte b = true) :
    isAddressByte b = true := by
  rw [isAddressByte, hb, Bool.true_or, Bool.true_or]

/-- A first line of characters that match is read whole. -/
theorem scanSet_addressText {matching : UInt8 → Bool} (hnewline : matching 10 = false)
    (hne : ip.bytes ≠ []) (hip : ∀ b ∈ ip.bytes, matching b = true) (hlen : ip.strlen < 16)
    (block : List UInt8) : scanSet matching (addressText (some ip) port) block =
      some (ip.bytes ++ 0 :: block.drop (ip.strlen + 1),
        some (10 :: (decimal port.toNat ++ [10]))) := by
  have hrun : (addressText (some ip) port).takeWhile matching = ip.bytes := by
    rw [addressText, Option.getD_some, List.takeWhile_append_of_pos hip,
      List.takeWhile_cons_of_neg (by simp [hnewline]), List.append_nil]
  have hlen' : ip.bytes.length < 16 := hlen
  rw [scanSet, hrun, if_neg hne, if_pos hlen', addressText, Option.getD_some, List.drop_left]
  rfl

theorem unsignedPart_of_isDigit {b : UInt8} (hb : isDigit b = true) (bs : List UInt8) :
    unsignedPart (b :: bs) = b :: bs := by
  obtain ⟨-, hminus, hplus, -⟩ := isDigit_facts hb
  unfold unsignedPart
  split
  · rename_i heq
    exact absurd (List.cons.inj heq).1 hminus
  · rename_i heq
    exact absurd (List.cons.inj heq).1 hplus
  · rfl

theorem leadingInt_cons_of_isSpace {b : UInt8} (hb : isSpace b = true) (s : List UInt8) :
    leadingInt (b :: s) = leadingInt s := by
  rw [leadingInt, List.dropWhile_cons_of_pos hb, leadingInt]

/-- A number on a line of its own is read. -/
theorem scanInt_line {n : ℕ} (hn : n < 2 ^ 63) :
    scanInt (10 :: (decimal n ++ [10])) = some (n : ℤ) := by
  obtain ⟨b, bs, hcons⟩ := List.exists_cons_of_ne_nil (decimal_ne_nil n)
  have hdigit : isDigit b = true := isDigit_of_mem_decimal n b (hcons ▸ List.mem_cons_self)
  have hdrop : (10 :: (decimal n ++ [10])).dropWhile isSpace = b :: (bs ++ [10]) := by
    rw [List.dropWhile_cons_of_pos (by decide), hcons, List.cons_append,
      List.dropWhile_cons_of_neg (by simp [(isDigit_facts hdigit).1])]
  rw [scanInt, hdrop, unsignedPart_of_isDigit hdigit, List.takeWhile_cons_of_pos hdigit,
    if_neg (List.cons_ne_nil _ _), leadingInt_cons_of_isSpace (by decide),
    leadingInt_decimal_append n (by simp [isDigit])]
  congr 1
  omega

theorem toUInt16_ofInt_toNat (port : UInt16) : (UInt32.ofInt (port.toNat : ℤ)).toUInt16 = port := by
  have hlt : port.toNat < 2 ^ 16 := port.toNat_lt
  have hmod : ((port.toNat : ℤ) % 2 ^ 32).toNat = port.toNat := by omega
  rw [UInt32.ofInt, hmod, UInt32.toUInt16_ofNat', UInt16.ofNat_toNat]

/-- The host of a recorded address is read, and is all that lies before the terminator. -/
theorem getMasterHost_addressText (host : HostText) (memory : CallMemory) :
    getMasterHost memory (some (addressText (some host.text) port)) = some (some host.text) := by
  rw [getMasterHost, scanSet_addressText (by decide) host.ne_nil host.isHostByte host.strlen_lt,
    Option.map_some, CString.ofMemory_append_zero]

theorem getMasterPort_addressText (hne : ip.bytes ≠ [])
    (hip : ∀ b ∈ ip.bytes, isAddressByte b = true) (hlen : ip.strlen < 16) (memory : CallMemory) :
    getMasterPort memory (some (addressText (some ip) port)) = some port := by
  have hport : port.toNat < 2 ^ 63 := lt_trans port.toNat_lt (by decide)
  simp only [getMasterPort, scanSet_addressText (by decide) hne hip hlen, Option.map_some,
    Option.bind_some, scanInt_line hport, toUInt16_ofInt_toNat]

end Text

/-! ### One call -/

section Step

variable {writable : Bool} {s : Settings} {file : Option (List UInt8)} {host : HostText}
  {port : UInt16} (memory : CallMemory)

namespace Settings.Recorded

theorem getMasterHost_eq (h : s.Recorded file) :
    getMasterHost memory file = some (s.host.map HostText.text) := by
  obtain ⟨host, hhost, rfl⟩ := h
  rw [getMasterHost_addressText, hhost, Option.map_some]

theorem getMasterPort_eq (h : s.Recorded file) : getMasterPort memory file = some s.port := by
  obtain ⟨host, -, rfl⟩ := h
  exact getMasterPort_addressText host.ne_nil
    (fun b hb => isAddressByte_of_isHostByte (host.isHostByte b hb)) host.strlen_lt memory

/-- **One call.** A call on a recorded address records the new one. -/
theorem run_set (h : s.Recorded file) (op : SettingsOp) :
    ∃ file', op.run true memory file = some file' ∧ (s.set op).Recorded file' := by
  obtain ⟨old, hold, -⟩ := id h
  cases op with
  | setHost host =>
    refine ⟨some (addressText (some host.text) s.port), ?_, host, rfl, rfl⟩
    rw [SettingsOp.run, setMasterHost, h.getMasterPort_eq]
    rfl
  | setPort port =>
    refine ⟨some (addressText (some old.text) port), ?_, old, hold, rfl⟩
    rw [SettingsOp.run, setMasterPort, h.getMasterHost_eq, hold]
    rfl

/-- **A run.** From a recorded address on, the file records the settings. -/
theorem runSettings_eq (h : s.Recorded file) (calls : List (SettingsOp × CallMemory)) :
    ∃ file', runSettings true calls file = some file' ∧
      ((calls.map Prod.fst).foldl Settings.set s).Recorded file' := by
  induction calls generalizing s file with
  | nil => exact ⟨file, rfl, h⟩
  | cons call calls ih =>
    obtain ⟨op, memory⟩ := call
    obtain ⟨file₁, hrun, hset⟩ := h.run_set memory op
    obtain ⟨file', hcalls, hafter⟩ := ih hset
    refine ⟨file', ?_, hafter⟩
    rw [runSettings, hrun, Option.bind_some, hcalls]

end Settings.Recorded

/-- The first call sets the host. -/
theorem recorded_setHost (host : HostText) :
    ∃ file', SettingsOp.run true memory (.setHost host) none = some file' ∧
      (Settings.mk (some host) 0).Recorded file' :=
  ⟨_, rfl, host, rfl, rfl⟩

/-- The first call sets the port: the host is written as unknown. -/
theorem run_setPort_none : SettingsOp.run true memory (.setPort port) none =
    some (some (addressText none port)) := rfl

/-- A port that has been set before the host is kept. -/
theorem recorded_setHost_of_unknown (host : HostText) (port : UInt16) :
    ∃ file', SettingsOp.run true memory (.setHost host) (some (addressText none port)) =
      some file' ∧ (Settings.mk (some host) port).Recorded file' := by
  have hport : getMasterPort memory (some (addressText none port)) = some port :=
    getMasterPort_addressText (show (lit "unknown").bytes ≠ [] by decide)
      (List.all_eq_true.mp (by decide)) (by decide) memory
  refine ⟨some (addressText (some host.text) port), ?_, host, rfl, rfl⟩
  rw [SettingsOp.run, setMasterHost, hport]
  rfl

end Step

/-! ### Sequences -/

section Runs

variable {ops : List SettingsOp}

/-- From a recorded address on, the getters agree with the settings. -/
theorem Settings.Recorded.agree {s : Settings} {file : Option (List UInt8)} (h : s.Recorded file)
    (calls : List (SettingsOp × CallMemory)) (memory : CallMemory) :
    ∃ file', runSettings true calls file = some file' ∧
      getMasterHost memory file' =
        some (((calls.map Prod.fst).foldl Settings.set s).host.map HostText.text) ∧
      getMasterPort memory file' = some ((calls.map Prod.fst).foldl Settings.set s).port := by
  obtain ⟨file', hrun, hafter⟩ := h.runSettings_eq calls
  exact ⟨file', hrun, hafter.getMasterHost_eq memory, hafter.getMasterPort_eq memory⟩

theorem settingsAgree_of_hostFirst (h : HostFirst ops) : SettingsAgree true ops := by
  rintro calls rfl memory
  match calls, h with
  | [], _ => exact ⟨none, rfl, rfl, rfl⟩
  | (.setHost host, m) :: calls, _ =>
    obtain ⟨file, hrun, hfile⟩ := recorded_setHost m host
    simp only [runSettings, hrun, Option.bind_some]
    exact hfile.agree calls memory
  | (.setPort port, m) :: (.setHost host, m') :: calls, _ =>
    obtain ⟨file, hrun, hfile⟩ := recorded_setHost_of_unknown m' host port
    simp only [runSettings, run_setPort_none, hrun, Option.bind_some]
    exact hfile.agree calls memory

/-- Fresh memory that holds 16 letters. -/
def lettersMemory : CallMemory := ⟨List.replicate 16 97, 0⟩

/-- The file that is written after a read of such memory. -/
def lettersText (port : UInt16) : List UInt8 :=
  addressText (some (CString.ofMemory (List.replicate 16 97))) port

/-- A first character that is no part of a host leaves the block as it was. -/
theorem getMasterHost_of_head {b : UInt8} (hb : isHostByte b = false) (content : List UInt8)
    (memory : CallMemory) :
    getMasterHost memory (some (b :: content)) = some (some (CString.ofMemory memory.ip)) := by
  rw [getMasterHost, scanSet, List.takeWhile_cons_of_neg (by simp [hb]), if_pos rfl]
  rfl

theorem getMasterHost_lettersText (port : UInt16) (memory : CallMemory) :
    getMasterHost memory (some (lettersText port)) = some (some (CString.ofMemory memory.ip)) :=
  getMasterHost_of_head (b := 97) (by decide) _ memory

/-- The letters do not fit the block. -/
theorem getMasterPort_lettersText (port : UInt16) (memory : CallMemory) :
    getMasterPort memory (some (lettersText port)) = none := by
  have hrun : (lettersText port).takeWhile isAddressByte = List.replicate 16 97 := by
    rw [lettersText, addressText, Option.getD_some, List.takeWhile_append_of_pos
      (List.all_eq_true.mp (by decide)), List.takeWhile_cons_of_neg (by decide), List.append_nil]
    decide
  rw [getMasterPort, scanSet, hrun]
  rfl

/-- Without a host, letters stay in the first line of the file, and setting the host faults. -/
theorem runSettings_lettersText {s : Settings} (hs : s.host = none) (port : UInt16) :
    runSettings true (ops.map fun op => (op, lettersMemory)) (some (lettersText port)) = none ∨
      (∃ port', runSettings true (ops.map fun op => (op, lettersMemory)) (some (lettersText port)) =
        some (some (lettersText port'))) ∧ (ops.foldl Settings.set s).host = none := by
  induction ops generalizing s port with
  | nil => exact .inr ⟨⟨port, rfl⟩, hs⟩
  | cons op ops ih =>
    rw [List.map_cons, runSettings, List.foldl_cons]
    cases op with
    | setHost host =>
      left
      rw [SettingsOp.run, setMasterHost, getMasterPort_lettersText]
      rfl
    | setPort port' =>
      rw [SettingsOp.run, setMasterPort, getMasterHost_lettersText, Option.map_some,
        Option.bind_some]
      exact ih (s := s.set (.setPort port')) hs port'

theorem hostFirst_of_settingsAgree (h : SettingsAgree true ops) : HostFirst ops := by
  match ops with
  | [] => trivial
  | .setHost _ :: _ => trivial
  | .setPort _ :: .setHost _ :: _ => trivial
  | [.setPort port] =>
    obtain ⟨file, hrun, hhost, -⟩ := h [(.setPort port, lettersMemory)] rfl lettersMemory
    obtain rfl := Option.some.inj hrun
    have hgarbage := getMasterHost_of_head (b := 117) (by decide)
      (ascii "nknown" ++ 10 :: (decimal port.toNat ++ [10])) lettersMemory
    have hnone : (Settings.after [.setPort port]).host = none := rfl
    rw [hnone] at hhost
    exact absurd (Option.some.inj (hgarbage.symm.trans hhost)) (by simp)
  | .setPort port :: .setPort port' :: ops =>
    obtain ⟨file, hrun, hhost, -⟩ := h ((.setPort port, lettersMemory) ::
      (.setPort port', lettersMemory) :: ops.map fun op => (op, lettersMemory))
      (by simp [Function.comp_def]) lettersMemory
    have hstart : runSettings true ((.setPort port, lettersMemory) ::
        (.setPort port', lettersMemory) :: ops.map fun op => (op, lettersMemory)) none =
        runSettings true (ops.map fun op => (op, lettersMemory)) (some (lettersText port')) := rfl
    rw [hstart] at hrun
    rcases @runSettings_lettersText ops ⟨none, port'⟩ rfl port' with
      hnone | ⟨⟨port'', hsome⟩, hafter⟩
    · exact absurd (hrun.symm.trans hnone) (by simp)
    · obtain rfl := Option.some.inj (hrun.symm.trans hsome)
      have hnone : (Settings.after (.setPort port :: .setPort port' :: ops)).host = none := hafter
      rw [getMasterHost_lettersText, hnone] at hhost
      exact absurd (Option.some.inj hhost) (by simp)

/-- A file that cannot be written does not come into being. -/
theorem runSettings_of_not_writable (calls : List (SettingsOp × CallMemory)) :
    runSettings false calls none = some none := by
  induction calls with
  | nil => rfl
  | cons call calls ih =>
    obtain ⟨op, memory⟩ := call
    have hop : op.run false memory none = some none := by
      cases op <;> rfl
    rw [runSettings, hop, Option.bind_some, ih]

end Runs

/-- **The settings.** The getters return what has been set last, whatever fresh memory holds, if and
only if the host is set before the port is set a second time, or nothing is set; when the file
cannot be written, if and only if no host is set, and no port other than 0 last. -/
theorem settingsAgree_iff (writable : Bool) (ops : List SettingsOp) : SettingsAgree writable ops ↔
    if writable then HostFirst ops
    else (Settings.after ops).host = none ∧ (Settings.after ops).port = 0 := by
  cases writable with
  | true => exact ⟨hostFirst_of_settingsAgree, settingsAgree_of_hostFirst⟩
  | false =>
    simp only [Bool.false_eq_true, if_false]
    constructor
    · intro h
      obtain ⟨file, hrun, hhost, hport⟩ :=
        h (ops.map fun op => (op, lettersMemory)) (by simp [Function.comp_def]) lettersMemory
      rw [runSettings_of_not_writable] at hrun
      obtain rfl := Option.some.inj hrun
      exact ⟨Option.map_eq_none_iff.mp (Option.some.inj hhost).symm, (Option.some.inj hport).symm⟩
    · rintro ⟨hhost, hport⟩ calls - memory
      refine ⟨none, runSettings_of_not_writable calls, ?_, ?_⟩
      · rw [hhost]
        rfl
      · rw [hport]
        rfl

/-- When only the port has been set, `get_master_host` returns a block that has not been filled. -/
theorem not_forall_settingsAgree : ¬ ∀ ops, SettingsAgree true ops := fun h =>
  hostFirst_of_settingsAgree (h [.setPort 80])

end PekarDrive
