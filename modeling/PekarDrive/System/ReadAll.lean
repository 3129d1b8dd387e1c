import PekarDrive.Master.Client
import PekarDrive.System.Delivery
import PekarDrive.Transmission.Received

/-!
# Reading a response

`read_all` of `lib/interface.c` reads blocks of 1000 bytes until a read delivers fewer, and takes
that read for the end of the stream. The stream may be delivered in any pieces
(`PekarDrive.Segmentation`), so a short read before the end leaves the rest of the response behind;
the caller sees what lies in the fresh block instead. The counter has 32 bits: for a response of
4294967000 bytes the size that is passed to `realloc` goes round.

## Main definitions

* `PekarDrive.readAll`: `read_all`, from the results of the reads.
* `PekarDrive.readBytes`: what it takes from the stream.
* `PekarDrive.ReadsResponse`.

## Main results

* `PekarDrive.exists_response_eq`: a response of the master is a string with its terminator.
* `PekarDrive.readsResponse_iff`.
-/

namespace PekarDrive

open CMemory CText LockedThreads

/-! ### The function -/

/-- `read_size`. -/
def readSize : UInt32 := 1000

/-- The loop of `read_all` with the counter at `i`, when the reads deliver the given pieces and then
nothing. -/
def readAllLoop (fresh : ℕ → Mem) :
    List (List UInt8) → UInt32 → List UInt8 → Option (List UInt8)
  | [], _, buffer => some buffer
  | piece :: reads, i, buffer =>
    match store buffer (i * readSize).toNat piece with
    | none => none
    | some buffer =>
      if piece.length = readSize.toNat then
        readAllLoop fresh reads (i + 1)
          (realloc (fresh (i + 1).toNat) buffer ((i + 1 + 1) * readSize).toNat)
      else some buffer

/-- `read_all`: the block that is returned. -/
def readAll (fresh : ℕ → Mem) (reads : List (List UInt8)) : Option (List UInt8) :=
  readAllLoop fresh reads 0 (window (fresh 0) 0 readSize.toNat)

/-- The pieces that fill a block, from the first one on. -/
def fullReads (reads : List (List UInt8)) : List (List UInt8) :=
  reads.takeWhile fun p => p.length == readSize.toNat

/-- The reads from the first one on that does not fill its block. -/
def shortReads (reads : List (List UInt8)) : List (List UInt8) :=
  reads.dropWhile fun p => p.length == readSize.toNat

/-- The bytes that are taken from the stream: the blocks that are filled, and the read behind
them. -/
def readBytes (reads : List (List UInt8)) : List UInt8 :=
  (fullReads reads).flatten ++ (shortReads reads).headD []

/-- Whatever is in fresh memory, the block contains the response and a terminator. -/
def ReadsResponse (bytes : List UInt8) (reads : List (List UInt8)) : Prop :=
  ∀ fresh, ∃ block ∈ readAll fresh reads, bytes <+: block ∧
    (bytes.getLast? = some 0 ∨ block[bytes.length]? = some 0)

/-! ### The responses -/

/-- A REGISTER packet is not answered. -/
theorem response_of_register {tokens : Tokens} {heap : Heap} {workerId : UInt32} {r : ReadResult}
    {env : List Request → Request → Reply} {h h' : List Request} {t t' : ServerTable}
    {served : Served} (hr : 0 < r.bytes)
    (htype : (pDecode r.buffer).val.msgType = MsgType.register.code)
    (heval : (handleClient tokens heap workerId r).eval env h t = (h', some (served, t'))) :
    served.response = none := by
  by_cases htoken : (pDecode r.buffer).val.token = tokens.workerTkn
  · rw [handleClient_of_register tokens heap workerId hr htype htoken] at heval
    split at heval
    · rw [Prog.eval_bind] at heval
      split at heval
      · exact absurd (congrArg Prod.snd heval) (by simp)
      · obtain ⟨rfl, -⟩ := Prod.mk.inj (Option.some.inj (Prod.mk.inj heval).2)
        rfl
    · exact absurd (congrArg Prod.snd heval) (by simp)
  · rw [handleClient, DecodeSite.masterClient.decode_of_pos hr] at heval
    simp only at heval
    rw [if_neg (not_not.mpr htype), if_pos htoken] at heval
    obtain ⟨rfl, -⟩ := Prod.mk.inj (Option.some.inj (Prod.mk.inj heval).2)
    rfl

/-- A response of the master is a string with its terminator. -/
theorem exists_response_eq {tokens : Tokens} {heap : Heap} {workerId : UInt32} {r : ReadResult}
    {env : List Request → Request → Reply} {h h' : List Request} {t t' : ServerTable}
    {served : Served} {bytes : List UInt8}
    (heval : (handleClient tokens heap workerId r).eval env h t = (h', some (served, t')))
    (hresponse : served.response = some bytes) : ∃ s : CString, bytes = s.bytes ++ [0] := by
  by_cases hr : 0 < r.bytes
  · by_cases htype : (pDecode r.buffer).val.msgType = MsgType.register.code
    · exact absurd hresponse (by rw [response_of_register hr htype heval]; simp)
    · by_cases hcount : t.serverCount = 0
      · rw [eval_handleClient_of_unavailable tokens heap workerId env h hr hcount htype] at heval
        obtain ⟨rfl, -⟩ := Prod.mk.inj (Option.some.inj (Prod.mk.inj heval).2)
        exact ⟨lit "Service unavailable.", (Option.some.inj hresponse).symm⟩
      · rw [eval_handleClient_of_request tokens heap workerId env h hr hcount htype,
          Prog.eval_bind] at heval
        split at heval
        · exact absurd (congrArg Prod.snd heval) (by simp)
        · rename_i h₁ retVal t₁ _
          cases retVal with
          | none => exact absurd (congrArg Prod.snd heval) (by simp)
          | some s =>
            obtain ⟨rfl, -⟩ := Prod.mk.inj (Option.some.inj (Prod.mk.inj heval).2)
            exact ⟨s, (Option.some.inj hresponse).symm⟩
  · rw [handleClient_of_not_pos tokens heap workerId hr] at heval
    obtain ⟨rfl, -⟩ := Prod.mk.inj (Option.some.inj (Prod.mk.inj heval).2)
    exact absurd hresponse (by simp)

/-! ### The loop -/

/-- The number of blocks whose size has 32 bits. -/
def maxBlocks : ℕ := 4294967

theorem mul_lt_of_le_maxBlocks {i : ℕ} (hi : i ≤ maxBlocks) : i * 1000 < 2 ^ 32 :=
  (Nat.mul_le_mul_right 1000 hi).trans_lt (by decide)

section Loop

variable (fresh : ℕ → Mem)

/-- A piece is stored in the last slot of the buffer. -/
theorem store_slot {i : ℕ} {bs p : List UInt8} (hbs : bs.length = i * 1000) (hi : i ≤ maxBlocks)
    (hp : p.length ≤ 1000) :
    store (bs ++ window (fresh i) (i * 1000) 1000) (UInt32.ofNat i * readSize).toNat p =
      some (bs ++ slot 1000 (fresh i) i p) := by
  have hoff : (UInt32.ofNat i * readSize).toNat = i * 1000 := by
    rw [toNat_ofNat_mul]
    exact Nat.mod_eq_of_lt (mul_lt_of_le_maxBlocks hi)
  rw [hoff, store_append hbs (by rwa [length_window]), append_drop_window hp]

/-- One iteration that fills its slot. -/
theorem readAllLoop_cons {i : ℕ} {bs p : List UInt8} (ps : List (List UInt8))
    (hbs : bs.length = i * 1000) (hi : i < maxBlocks) (hp : p.length = 1000) :
    readAllLoop fresh (p :: ps) (UInt32.ofNat i) (bs ++ window (fresh i) (i * 1000) 1000) =
      readAllLoop fresh ps (UInt32.ofNat (i + 1))
        (realloc (fresh (i + 1)) (bs ++ p) ((i + 1 + 1) * 1000 % 2 ^ 32)) := by
  have hindex : (UInt32.ofNat (i + 1)).toNat = i + 1 :=
    toNat_counter (lt_of_le_of_lt hi (by decide))
  rw [readAllLoop, store_slot fresh hbs hi.le hp.le, slot_of_length_eq hp]
  simp only [hp, counter_add_one, hindex, toNat_ofNat_mul]
  rfl

/-- Blocks that are filled, as long as the size does not go round. -/
theorem readAllLoop_append {ps : List (List UInt8)} (hps : ∀ p ∈ ps, p.length = 1000)
    (rest : List (List UInt8)) {i : ℕ} {bs : List UInt8} (hbs : bs.length = i * 1000)
    (hi : i + ps.length < maxBlocks) :
    readAllLoop fresh (ps ++ rest) (UInt32.ofNat i) (bs ++ window (fresh i) (i * 1000) 1000) =
      readAllLoop fresh rest (UInt32.ofNat (i + ps.length)) ((bs ++ ps.flatten) ++
        window (fresh (i + ps.length)) ((i + ps.length) * 1000) 1000) := by
  induction ps generalizing i bs with
  | nil => simp
  | cons p ps ih =>
    obtain ⟨hp, hps⟩ := List.forall_mem_cons.mp hps
    have hnext : i + (p :: ps).length = i + 1 + ps.length := by
      rw [List.length_cons]
      omega
    rw [hnext] at hi ⊢
    have hbs' : (bs ++ p).length = (i + 1) * 1000 := by
      rw [List.length_append, hbs, hp, Nat.succ_mul]
    have hsize : (i + 1 + 1) * 1000 < 2 ^ 32 := mul_lt_of_le_maxBlocks (by omega)
    rw [List.cons_append, readAllLoop_cons fresh _ hbs (by omega) hp, Nat.mod_eq_of_lt hsize,
      realloc_slot (fresh (i + 1)) hbs', ih hps hbs' hi, List.flatten_cons, List.append_assoc bs]

/-- The read that does not fill its slot, or finds the end of the stream. -/
theorem readAllLoop_of_short {rest : List (List UInt8)} {i : ℕ} {bs : List UInt8}
    (hbs : bs.length = i * 1000) (hi : i ≤ maxBlocks) (hshort : (rest.headD []).length < 1000) :
    readAllLoop fresh rest (UInt32.ofNat i) (bs ++ window (fresh i) (i * 1000) 1000) =
      some (bs ++ slot 1000 (fresh i) i (rest.headD [])) := by
  cases rest with
  | nil =>
    rw [readAllLoop, List.headD_nil, slot, List.nil_append, List.length_nil, Nat.add_zero,
      Nat.sub_zero]
  | cons p rest =>
    rw [List.headD_cons] at hshort ⊢
    rw [readAllLoop, store_slot fresh hbs hi hshort.le]
    exact if_neg hshort.ne

/-- A buffer that ends before the slot of the next read. -/
theorem readAllLoop_of_length_lt {ps : List (List UInt8)} {i : UInt32} {buffer : List UInt8}
    (hlt : buffer.length < (i * readSize).toNat) {block : List UInt8}
    (hblock : block ∈ readAllLoop fresh ps i buffer) : block = buffer := by
  cases ps with
  | nil => exact (Option.some.inj hblock).symm
  | cons p ps =>
    have hnone : store buffer (i * readSize).toNat p = none := if_neg (by omega)
    rw [readAllLoop, hnone] at hblock
    exact absurd hblock (by simp)

/-- The loop from the first block on. -/
theorem readAll_append {ps : List (List UInt8)} (hps : ∀ p ∈ ps, p.length = 1000)
    (rest : List (List UInt8)) (hlen : ps.length < maxBlocks) :
    readAll fresh (ps ++ rest) = readAllLoop fresh rest (UInt32.ofNat ps.length)
      (ps.flatten ++ window (fresh ps.length) (ps.length * 1000) 1000) := by
  have hstart := @readAllLoop_append fresh ps hps rest 0 [] rfl (by rwa [Nat.zero_add])
  rwa [Nat.zero_add, Nat.zero_mul, List.nil_append, List.nil_append] at hstart

/-- A response that is read at once, or not at all. -/
theorem readAll_of_short {reads : List (List UInt8)} (hshort : (reads.headD []).length < 1000) :
    readAll fresh reads = some (slot 1000 (fresh 0) 0 (reads.headD [])) := by
  have hstart := readAll_append fresh (List.forall_mem_nil _) reads (by decide)
  rw [List.nil_append] at hstart
  rw [hstart]
  exact readAllLoop_of_short fresh rfl (by decide) hshort

end Loop

/-! ### What is taken from the stream -/

section Reads

variable {reads : List (List UInt8)} (fresh : ℕ → Mem)

theorem length_of_mem_fullReads : ∀ p ∈ fullReads reads, p.length = 1000 := by
  intro p hp
  have hfull : (p.length == readSize.toNat) = true :=
    List.mem_takeWhile_imp (p := fun q : List UInt8 => q.length == readSize.toNat) hp
  exact beq_iff_eq.mp hfull

theorem length_ne_of_shortReads {p : List UInt8} {rest : List (List UInt8)}
    (hshort : shortReads reads = p :: rest) : p.length ≠ 1000 := by
  have hhead := List.head?_dropWhile_not (fun q : List UInt8 => q.length == readSize.toNat) reads
  rw [show List.dropWhile _ reads = p :: rest from hshort] at hhead
  exact beq_eq_false_iff_ne.mp hhead

theorem fullReads_append_shortReads (reads : List (List UInt8)) :
    fullReads reads ++ shortReads reads = reads :=
  List.takeWhile_append_dropWhile

theorem length_flatten_fullReads (reads : List (List UInt8)) :
    (fullReads reads).flatten.length = (fullReads reads).length * 1000 :=
  length_flatten_of_length_eq length_of_mem_fullReads

/-- Where the loop ends, the block is not filled. -/
theorem length_headD_shortReads_lt (hreads : ∀ p ∈ reads, p.length ≤ 1000) :
    ((shortReads reads).headD []).length < 1000 := by
  cases hshort : shortReads reads with
  | nil => exact Nat.zero_lt_succ 999
  | cons p rest =>
    have hmem : p ∈ reads := by
      rw [← fullReads_append_shortReads reads, hshort]
      exact List.mem_append_right _ List.mem_cons_self
    exact lt_of_le_of_ne (hreads p hmem) (length_ne_of_shortReads hshort)

theorem length_readBytes (reads : List (List UInt8)) : (readBytes reads).length =
    (fullReads reads).length * 1000 + ((shortReads reads).headD []).length := by
  rw [readBytes, List.length_append, length_flatten_fullReads]

/-- What is left behind. -/
theorem readBytes_append (reads : List (List UInt8)) :
    readBytes reads ++ (shortReads reads).tail.flatten = reads.flatten := by
  conv_rhs => rw [← fullReads_append_shortReads reads, List.flatten_append]
  rw [readBytes, List.append_assoc]
  cases shortReads reads <;> rfl

/-- The block that is returned: what is taken from the stream, and fresh memory. -/
theorem readAll_eq (hreads : ∀ p ∈ reads, p.length ≤ 1000)
    (hlen : (fullReads reads).length < maxBlocks) :
    readAll fresh reads = some (readBytes reads ++
      window (fresh (fullReads reads).length) (readBytes reads).length
        (1000 - ((shortReads reads).headD []).length)) := by
  have happend := readAll_append fresh length_of_mem_fullReads (shortReads reads) hlen
  rw [fullReads_append_shortReads] at happend
  rw [happend, readAllLoop_of_short fresh (length_flatten_fullReads reads) hlen.le
    (length_headD_shortReads_lt hreads), slot, length_readBytes, readBytes, List.append_assoc]

/-- When the size goes round, the block ends before the response. -/
theorem length_lt_of_mem_readAll (hlen : maxBlocks ≤ (fullReads reads).length) {block : List UInt8}
    (hblock : block ∈ readAll fresh reads) : block.length < reads.flatten.length := by
  -- the last block that is made whole, and the one behind it
  obtain ⟨q, rest, hdrop⟩ : ∃ q rest, (fullReads reads).drop 4294966 = q :: rest :=
    List.exists_cons_of_ne_nil (List.drop_eq_nil_iff.not.mpr (by rw [maxBlocks] at hlen; omega))
  have hsplit : (fullReads reads).take 4294966 ++ q :: (rest ++ shortReads reads) = reads := by
    rw [← List.cons_append, ← hdrop, ← List.append_assoc, List.take_append_drop,
      fullReads_append_shortReads]
  have htake : ((fullReads reads).take 4294966).length = 4294966 :=
    List.length_take_of_le (by rw [maxBlocks] at hlen; omega)
  have hfull : ∀ p ∈ (fullReads reads).take 4294966, p.length = 1000 :=
    fun p hp => length_of_mem_fullReads p (List.mem_of_mem_take hp)
  have hmem : q ∈ (fullReads reads).drop 4294966 := by
    rw [hdrop]
    exact List.mem_cons_self
  have hq : q.length = 1000 := length_of_mem_fullReads q (List.mem_of_mem_drop hmem)
  have hflat := length_flatten_of_length_eq hfull
  rw [← hsplit, readAll_append fresh hfull _ (by rw [htake]; decide),
    readAllLoop_cons fresh _ hflat (by rw [htake]; decide) hq, htake] at hblock
  obtain rfl := readAllLoop_of_length_lt fresh (by rw [length_realloc]; decide) hblock
  rw [length_realloc, ← hsplit, List.flatten_append, List.length_append, hflat, htake]
  exact lt_of_lt_of_le (by decide) (Nat.le_add_right _ _)

/-- Everything is taken when no read but the last one is short. -/
theorem readBytes_eq_iff (hnil : ∀ p ∈ reads, p ≠ []) :
    readBytes reads = reads.flatten ↔ ∀ p ∈ reads.dropLast, p.length = 1000 := by
  have hleft : readBytes reads = reads.flatten ↔ (shortReads reads).tail.flatten = [] := by
    rw [← readBytes_append reads, List.self_eq_append_right]
  have hsplit := fullReads_append_shortReads reads
  rw [hleft]
  cases hshort : shortReads reads with
  | nil =>
    rw [hshort, List.append_nil] at hsplit
    refine iff_of_true rfl fun p hp => ?_
    rw [← hsplit] at hp
    exact length_of_mem_fullReads p (List.dropLast_subset _ hp)
  | cons p rest =>
    rw [hshort] at hsplit
    cases rest with
    | nil =>
      refine iff_of_true rfl fun q hq => ?_
      rw [← hsplit, List.dropLast_concat] at hq
      exact length_of_mem_fullReads q hq
    | cons q rest =>
      -- something follows the short read
      refine iff_of_false (fun hflat => ?_) fun hall => ?_
      · have hq : q = [] := List.flatten_eq_nil_iff.mp hflat q List.mem_cons_self
        refine hnil q ?_ hq
        rw [← hsplit]
        exact List.mem_append_right _ (List.mem_cons_of_mem _ List.mem_cons_self)
      · refine length_ne_of_shortReads hshort (hall p ?_)
        rw [← hsplit, List.dropLast_append_cons]
        exact List.mem_append_right _ List.mem_cons_self

/-- Fresh memory completes no response. -/
theorem readsResponse_iff_readBytes (hreads : ∀ p ∈ reads, p.length ≤ 1000)
    (hlen : (fullReads reads).length < maxBlocks) :
    ReadsResponse reads.flatten reads ↔
      reads.flatten.getLast? = some 0 ∧ readBytes reads = reads.flatten := by
  have hroom := length_headD_shortReads_lt hreads
  obtain ⟨k, hk⟩ : ∃ k, 1000 - ((shortReads reads).headD []).length = k + 1 :=
    ⟨999 - ((shortReads reads).headD []).length, by omega⟩
  have hblock (b : UInt8) : readAll (fun _ _ => b) reads =
      some (readBytes reads ++ b :: window (fun _ => b) ((readBytes reads).length + 1) k) := by
    rw [readAll_eq _ hreads hlen, hk, window_succ]
  constructor
  · intro hresponse
    have hbytes : readBytes reads = reads.flatten := by
      have hleft := readBytes_append reads
      cases htail : (shortReads reads).tail.flatten with
      | nil => rwa [htail, List.append_nil] at hleft
      | cons b rest =>
        rw [htail] at hleft
        obtain ⟨block, hmem, hprefix, -⟩ := hresponse fun _ _ => b + 1
        rw [hblock, Option.mem_some_iff] at hmem
        rw [← hleft, ← hmem, List.prefix_append_right_inj, List.cons_prefix_cons] at hprefix
        exact absurd hprefix.1 (by simp)
    refine ⟨?_, hbytes⟩
    obtain ⟨block, hmem, -, hlast⟩ := hresponse fun _ _ => 1
    rw [hblock, Option.mem_some_iff, hbytes] at hmem
    refine hlast.resolve_right fun hzero => ?_
    rw [← hmem, List.getElem?_append_right le_rfl, Nat.sub_self, List.getElem?_cons_zero] at hzero
    exact absurd hzero (by decide)
  · rintro ⟨hlast, hbytes⟩ fresh
    refine ⟨_, readAll_eq fresh hreads hlen, ?_, .inl hlast⟩
    rw [hbytes]
    exact List.prefix_append _ _

/-- What `read_all` makes of the results of the reads. -/
theorem readsResponse_flatten_iff (hnil : ∀ p ∈ reads, p ≠ [])
    (hreads : ∀ p ∈ reads, p.length ≤ 1000) : ReadsResponse reads.flatten reads ↔
      reads.flatten.getLast? = some 0 ∧ (∀ p ∈ reads.dropLast, p.length = 1000) ∧
        reads.flatten.length < 4294967000 := by
  have htaken := length_readBytes reads
  have hroom := length_headD_shortReads_lt hreads
  rcases Nat.lt_or_ge (fullReads reads).length maxBlocks with hlen | hlen
  · rw [readsResponse_iff_readBytes hreads hlen, readBytes_eq_iff hnil]
    refine and_congr_right fun _ => (and_iff_left_of_imp fun hall => ?_).symm
    rw [← (readBytes_eq_iff hnil).mpr hall, htaken]
    rw [maxBlocks] at hlen
    omega
  · refine iff_of_false (fun hresponse => ?_) fun hcond => ?_
    · obtain ⟨block, hblock, hprefix, -⟩ := hresponse fun _ _ => 0
      exact absurd hprefix.length_le (not_le.mpr (length_lt_of_mem_readAll _ hlen hblock))
    · have hle : (readBytes reads).length ≤ reads.flatten.length := by
        rw [← readBytes_append reads, List.length_append]
        exact Nat.le_add_right _ _
      rw [maxBlocks] at hlen
      omega

end Reads

/-- **Reading a response.** For every stream and every way to deliver it: `read_all` returns a
block that contains the response and a terminator, whatever fresh memory contains, if and only if
the stream ends in a terminator, every read but the last one fills its block, and the stream is
shorter than 4294967000 bytes. -/
theorem readsResponse_iff {bytes : List UInt8} (seg : Segmentation 1000 bytes) :
    ReadsResponse bytes seg.pieces ↔ bytes.getLast? = some 0 ∧
      (∀ p ∈ seg.pieces.dropLast, p.length = 1000) ∧ bytes.length < 4294967000 := by
  have hreads := readsResponse_flatten_iff seg.ne_nil seg.length_le
  rwa [seg.flatten_eq] at hreads

/-- The response `"ab"`, of which the first read delivers one byte. -/
def splitResponse : Segmentation 1000 [97, 98, 0] where
  pieces := [[97], [98, 0]]
  flatten_eq := rfl
  ne_nil := by simp
  length_le := by simp

/-- A response of three bytes that is delivered in two reads is cut. -/
theorem not_forall_readsResponse : ¬ ∀ (s : CString) (seg : Segmentation 1000 (s.bytes ++ [0])),
    ReadsResponse (s.bytes ++ [0]) seg.pieces := by
  intro h
  have hfull := ((readsResponse_flatten_iff splitResponse.ne_nil splitResponse.length_le).mp
    (h (lit "ab") splitResponse)).2.1
  exact absurd (hfull [97] (by decide)) (by decide)

end PekarDrive
