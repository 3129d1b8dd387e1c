import PekarDrive.Foundation.Blocks
import PekarDrive.Transmission.Chunks
import PekarDrive.WorkerAdmin.Listings

/-!
# The blocks of a listing

`file_list` copies the names of a directory to blocks of their own, and `file_list_to_str` joins
them in a block that it resizes in every iteration. The blocks of the names have no room for a
terminator. The size in `file_list_to_str` counts one byte beside the two strings; a newline behind
the name takes it, and the terminator is stored behind the block. The first string is whatever lies
in a block of one byte in which nothing has been stored.

When nothing is stored outside the block, the result is that of `PekarDrive.fileListToStr`.

## Main definitions

* `PekarDrive.storeNames`: the blocks of `file_list`.
* `PekarDrive.joinNames`: `file_list_to_str`, with what its calls of `strcat` store.
* `PekarDrive.StoresNames`, `PekarDrive.JoinsNames`.

## Main results

* `PekarDrive.bytes_text_joinLoop`, `PekarDrive.text_joinNames`: what is returned when nothing is
  stored outside the block.
* `PekarDrive.listing_inside_iff`.
-/

namespace PekarDrive

open CMemory CText

/-! ### The names -/

/-- The names that `file_list` stores from the one with the number `count` on: `strcpy` into a block
of `strlen` bytes. -/
def storeNames (fresh : ℕ → Mem) : List CString → ℕ → Option (List (List UInt8))
  | [], _ => some []
  | name :: names, count =>
    match store (window (fresh count) 0 name.strlen) 0 (name.bytes ++ [0]) with
    | none => none
    | some block => (storeNames fresh names (count + 1)).map (block :: ·)

/-- Every name is stored inside its block, with its terminator. -/
def StoresNames (fresh : ℕ → Mem) (names : List CString) : Prop :=
  ∃ blocks, storeNames fresh names 0 = some blocks

/-! ### The joined names -/

/-- The memory that an allocation finds. -/
structure FreshBlock where
  /-- The contents of the block. -/
  contents : Mem
  /-- The memory behind the block. -/
  behind : List UInt8

/-- The memory from `files` on, of which the first bytes are its block. -/
structure Files where
  /-- The memory. -/
  memory : List UInt8
  /-- The size of the block. -/
  size : ℕ

/-- The block. -/
def Files.block (f : Files) : List UInt8 := f.memory.take f.size

/-- What `strcat` leaves of the memory at its destination. -/
def strcat (memory : List UInt8) (s : CString) : List UInt8 :=
  (CString.ofMemory memory).bytes ++ s.bytes ++
    0 :: memory.drop ((CString.ofMemory memory).strlen + s.strlen + 1)

/-- A call of `strcat`. -/
structure StrcatCall where
  /-- The bytes from the start of the destination up to the terminator that is stored. -/
  stored : ℕ
  /-- The size of the block. -/
  size : ℕ

/-- The call on a block of `size` bytes. -/
def strcatCall (memory : List UInt8) (s : CString) (size : ℕ) : StrcatCall where
  stored := (CString.ofMemory memory).strlen + s.strlen + 1
  size := size

/-- What a run of `file_list_to_str` returns and does. -/
structure Joined where
  /-- The string that is returned. -/
  text : CString
  /-- The calls of `strcat`. -/
  calls : List StrcatCall

/-- The separator behind a name, before the names that are left. -/
def separator (names : List CString) : CString := if names = [] then lit "" else lit "\n"

/-- The size in an iteration. -/
def Files.resized (f : Files) (name : CString) : ℕ :=
  (CString.ofMemory f.memory).strlen + 1 + name.strlen

/-- The memory after the `realloc` of an iteration. -/
def Files.realloc (f : Files) (name : CString) (fresh : FreshBlock) : List UInt8 :=
  PekarDrive.realloc fresh.contents f.block (f.resized name) ++ fresh.behind

/-- What an iteration leaves, before the names that are left. -/
def Files.append (f : Files) (name : CString) (names : List CString) (fresh : FreshBlock) :
    Files where
  memory := strcat (strcat (f.realloc name fresh) name) (separator names)
  size := f.resized name

/-- The calls of `strcat` in an iteration. -/
def Files.calls (f : Files) (name : CString) (names : List CString) (fresh : FreshBlock) :
    List StrcatCall :=
  [strcatCall (f.realloc name fresh) name (f.resized name),
    strcatCall (strcat (f.realloc name fresh) name) (separator names) (f.resized name)]

/-- The loop of `file_list_to_str` with the counter at `i`. -/
def joinLoop (fresh : ℕ → FreshBlock) : List CString → ℕ → Files → Joined
  | [], _, f => ⟨CString.ofMemory f.memory, []⟩
  | name :: names, i, f =>
    let joined := joinLoop fresh names (i + 1) (f.append name names (fresh (i + 1)))
    ⟨joined.text, f.calls name names (fresh (i + 1)) ++ joined.calls⟩

/-- The block of `malloc(1)`. -/
def Files.start (fresh : FreshBlock) : Files where
  memory := window fresh.contents 0 1 ++ fresh.behind
  size := 1

/-- `file_list_to_str`. -/
def joinNames (fresh : ℕ → FreshBlock) (names : List CString) : Joined :=
  if names.length = 0 then ⟨lit "", []⟩
  else joinLoop fresh names 0 (Files.start (fresh 0))

/-- The names separated by newlines. -/
def joinedNames (names : List CString) : List UInt8 := [10].intercalate (names.map CString.bytes)

/-- No call of `strcat` stores outside the block. -/
def Joined.Inside (j : Joined) : Prop := ∀ call ∈ j.calls, call.stored ≤ call.size

/-- The names are joined, inside the block. -/
def JoinsNames (fresh : ℕ → FreshBlock) (names : List CString) : Prop :=
  (joinNames fresh names).text.bytes = joinedNames names ∧ (joinNames fresh names).Inside

/-! ### One iteration -/

theorem ofMemory_strcat (memory : List UInt8) (s : CString) :
    CString.ofMemory (strcat memory s) = (CString.ofMemory memory).append s :=
  CString.ofMemory_append_zero ((CString.ofMemory memory).append s) _

theorem strcat_isPrefix (memory : List UInt8) (s : CString) :
    (CString.ofMemory (strcat memory s)).bytes ++ [0] <+: strcat memory s := by
  rw [ofMemory_strcat]
  exact ⟨memory.drop ((CString.ofMemory memory).strlen + s.strlen + 1), by simp [strcat]⟩

/-- The string after an iteration. -/
theorem ofMemory_append (f : Files) (name : CString) (names : List CString) (fresh : FreshBlock) :
    CString.ofMemory (f.append name names fresh).memory =
      ((CString.ofMemory (f.realloc name fresh)).append name).append (separator names) := by
  rw [Files.append, ofMemory_strcat, ofMemory_strcat]

/-- When the calls store nothing outside the block, it holds the string after the iteration. -/
theorem holdsString_append {f : Files} {name : CString} {names : List CString} {fresh : FreshBlock}
    (hinside : ∀ call ∈ f.calls name names fresh, call.stored ≤ call.size) :
    HoldsString (f.append name names fresh).block
      (CString.ofMemory (f.append name names fresh).memory).bytes := by
  have hsep := hinside _ (List.mem_cons_of_mem _ (List.mem_singleton_self _))
  refine ⟨(CString.ofMemory _).nulFree, List.prefix_take_iff.mpr ⟨strcat_isPrefix _ _, ?_⟩⟩
  rw [ofMemory_append, ← ofMemory_strcat, CString.bytes_append, List.length_append,
    List.length_append, List.length_singleton]
  exact hsep

/-- A string in the block is read from the resized block. -/
theorem ofMemory_realloc {f : Files} {s : CString} (hholds : HoldsString f.block s.bytes)
    (name : CString) (fresh : FreshBlock) : CString.ofMemory (f.realloc name fresh) = s := by
  have htext : CString.ofMemory f.memory = s := by
    have hread := holdsString_iff_forall.mp hholds (f.memory.drop f.size)
    rwa [Files.block, List.take_append_drop] at hread
  have hresized : HoldsString (PekarDrive.realloc fresh.contents f.block (f.resized name))
      s.bytes := by
    refine ⟨s.nulFree, List.IsPrefix.trans (List.prefix_take_iff.mpr ⟨hholds.2, ?_⟩)
      (List.prefix_append _ _)⟩
    rw [List.length_append, List.length_singleton, Files.resized, htext, CString.strlen]
    omega
  exact holdsString_iff_forall.mp hresized fresh.behind

theorem joinedNames_singleton (name : CString) : joinedNames [name] = name.bytes :=
  List.intercalate_singleton

theorem joinedNames_cons {names : List CString} (hne : names ≠ []) (name : CString) :
    joinedNames (name :: names) = name.bytes ++ [10] ++ joinedNames names := by
  obtain ⟨name', names, rfl⟩ := List.exists_cons_of_ne_nil hne
  rw [joinedNames, List.map_cons, List.map_cons, List.intercalate_cons_cons]
  rfl

/-- **The joined names.** When nothing is stored outside the block, the names are appended to what
the block has held before. -/
theorem bytes_text_joinLoop (fresh : ℕ → FreshBlock) (name : CString) (names : List CString)
    (i : ℕ) (f : Files) (hinside : (joinLoop fresh (name :: names) i f).Inside) :
    (joinLoop fresh (name :: names) i f).text.bytes =
      (CString.ofMemory (f.realloc name (fresh (i + 1)))).bytes ++ joinedNames (name :: names) := by
  induction names generalizing name i f with
  | nil =>
    have hsep : (separator []).bytes = [] := by decide
    rw [joinLoop, joinLoop, joinedNames_singleton, ofMemory_append]
    simp only [CString.bytes_append, hsep, List.append_nil]
  | cons name' names ih =>
    have hsep : (separator (name' :: names)).bytes = [10] := by
      rw [separator, if_neg (List.cons_ne_nil _ _)]
      decide
    obtain ⟨hcalls, hrest⟩ := List.forall_mem_append.mp hinside
    rw [joinLoop, ih name' (i + 1) _ hrest, ofMemory_realloc (holdsString_append hcalls),
      ofMemory_append, joinedNames_cons (List.cons_ne_nil _ _)]
    simp only [CString.bytes_append, hsep, List.append_assoc]

/-- The string that is returned then is that of `fileListToStr`. -/
theorem text_joinNames (fresh : ℕ → FreshBlock) (name : CString) (names : List CString)
    (hinside : (joinNames fresh (name :: names)).Inside) :
    (joinNames fresh (name :: names)).text =
      fileListToStr (name :: names) ((Files.start (fresh 0)).realloc name (fresh 1)) := by
  ext1
  rw [fileListToStr, if_neg (by simp : ¬ (name :: names).length = 0), bytes_fileListLoop]
  exact bytes_text_joinLoop fresh name names 0 (Files.start (fresh 0)) hinside

/-! ### The first iteration -/

section Start

variable {fresh : FreshBlock}

theorem block_start (fresh : FreshBlock) : (Files.start fresh).block = [fresh.contents 0] := rfl

/-- The block of `malloc(1)` holds the empty string when its byte is zero. -/
theorem holdsString_start (hzero : fresh.contents 0 = 0) :
    HoldsString (Files.start fresh).block (lit "").bytes := by
  rw [block_start, hzero]
  decide

theorem strlen_start (hzero : fresh.contents 0 = 0) :
    (CString.ofMemory (Files.start fresh).memory).strlen = 0 := by
  have hread := holdsString_iff_forall.mp (holdsString_start hzero) fresh.behind
  exact congrArg CString.strlen hread

/-- The byte of `malloc(1)` is the first byte of the resized block. -/
theorem exists_realloc_start (fresh : FreshBlock) (name : CString) (fresh' : FreshBlock) :
    ∃ rest, (Files.start fresh).realloc name fresh' = fresh.contents 0 :: rest := by
  obtain ⟨n, hn⟩ : ∃ n, (Files.start fresh).resized name = n + 1 :=
    ⟨(CString.ofMemory (Files.start fresh).memory).strlen + name.strlen, by
      rw [Files.resized]
      omega⟩
  rw [Files.realloc, block_start, hn]
  exact ⟨_, rfl⟩

/-- The string in the resized block is empty only if the byte is zero. -/
theorem contents_eq_zero {name : CString} {fresh' : FreshBlock}
    (hnil : (CString.ofMemory ((Files.start fresh).realloc name fresh')).bytes = []) :
    fresh.contents 0 = 0 := by
  obtain ⟨rest, hrest⟩ := exists_realloc_start fresh name fresh'
  rw [hrest, CString.bytes_ofMemory, List.takeWhile_cons] at hnil
  by_contra hne
  rw [if_pos (bne_iff_ne.mpr hne)] at hnil
  exact absurd hnil (List.cons_ne_nil _ _)

theorem strlen_separator_eq_zero_iff {names : List CString} :
    (separator names).strlen = 0 ↔ names = [] := by
  have hnewline : (lit "\n").strlen = 1 := by decide
  rw [separator]
  split_ifs with hnil
  · exact iff_of_true rfl hnil
  · rw [hnewline]
    exact iff_of_false one_ne_zero hnil

/-- Behind the first name there is no room for a newline. -/
theorem calls_start_inside_iff (hzero : fresh.contents 0 = 0) (name : CString)
    (names : List CString) (fresh' : FreshBlock) :
    (∀ call ∈ (Files.start fresh).calls name names fresh', call.stored ≤ call.size) ↔
      names = [] := by
  have hempty := ofMemory_realloc (holdsString_start hzero) name fresh'
  have hzero' : (lit "").strlen = 0 := rfl
  have hname : ((lit "").append name).strlen = name.strlen := rfl
  rw [Files.calls, List.forall_mem_cons, List.forall_mem_singleton,
    ← strlen_separator_eq_zero_iff]
  simp only [strcatCall, ofMemory_strcat, hempty, Files.resized, strlen_start hzero, hzero', hname]
  omega

end Start

/-- The joined names are inside the block for one name behind a zero byte only. -/
theorem joinsNames_iff (fresh : ℕ → FreshBlock) (name : CString) (names : List CString) :
    JoinsNames fresh (name :: names) ↔ names = [] ∧ (fresh 0).contents 0 = 0 := by
  constructor
  · rintro ⟨htext, hinside⟩
    have hjoined := bytes_text_joinLoop fresh name names 0 (Files.start (fresh 0)) hinside
    have hnil := List.append_left_eq_self.mp (hjoined.symm.trans htext)
    have hzero := contents_eq_zero hnil
    have hcalls := (List.forall_mem_append.mp hinside).1
    exact ⟨(calls_start_inside_iff hzero name names (fresh 1)).mp hcalls, hzero⟩
  · rintro ⟨rfl, hzero⟩
    have hinside : (joinNames fresh [name]).Inside := by
      have hcalls := (calls_start_inside_iff hzero name [] (fresh 1)).mpr rfl
      exact List.forall_mem_append.mpr ⟨hcalls, fun call hcall => absurd hcall List.not_mem_nil⟩
    refine ⟨?_, hinside⟩
    have hjoined := bytes_text_joinLoop fresh name [] 0 (Files.start (fresh 0)) hinside
    rw [ofMemory_realloc (holdsString_start hzero)] at hjoined
    exact hjoined

/-- The block of a name has no room for its terminator. -/
theorem not_storesNames (fresh : ℕ → Mem) (name : CString) (names : List CString) :
    ¬ StoresNames fresh (name :: names) := by
  have hstore : store (window (fresh 0) 0 name.strlen) 0 (name.bytes ++ [0]) = none := by
    refine if_neg ?_
    rw [length_window, List.length_append, List.length_singleton, CString.strlen]
    omega
  rintro ⟨blocks, hblocks⟩
  rw [storeNames, hstore] at hblocks
  exact absurd hblocks (by simp)

/-- **The blocks of a listing.** For every directory that is not empty, and whatever is in fresh
memory: `file_list` stores its names outside their blocks; `file_list_to_str` returns the names
joined by newlines and stores inside its block if and only if there is one name and the byte of
`malloc(1)` is zero. -/
theorem listing_inside_iff (fresh : ℕ → Mem) (fresh' : ℕ → FreshBlock) (name : CString)
    (names : List CString) : ¬ StoresNames fresh (name :: names) ∧
      (JoinsNames fresh' (name :: names) ↔ names = [] ∧ (fresh' 0).contents 0 = 0) :=
  ⟨not_storesNames fresh name names, joinsNames_iff fresh' name names⟩

/-- The name `"a"` is stored outside its block. -/
theorem not_forall_storesNames : ¬ ∀ (fresh : ℕ → Mem) (fresh' : ℕ → FreshBlock)
    (names : List CString), names ≠ [] → StoresNames fresh names ∧ JoinsNames fresh' names := by
  intro h
  exact not_storesNames _ _ [] (h (fun _ _ => 0) (fun _ => ⟨fun _ => 0, []⟩) [lit "a"]
    (List.cons_ne_nil _ _)).1

end PekarDrive
