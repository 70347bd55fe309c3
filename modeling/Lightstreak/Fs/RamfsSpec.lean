import Lightstreak.Fs.Ramfs
import Lightstreak.Lib.Run

/-!
# What the ramfs operations do

One specification for each function of `ramfs.c`, in terms of the string a slot is named by
(`cstr`) and the bytes it holds (`RamfsFile.content`), and the invariant of the slot array:

* `strEq_eq`, `findFile_eq`: comparison and search compare strings;
* `memCopyIn_eq`, `memCopyIn_eq_none`, `memCopyOut_eq`: a copy succeeds exactly when it stays
  inside the buffer;
* `ramfsOpen_eq`: what is looked up when a path is opened;
* `ramfsRead_eq`, `ramfsWrite_eq`: reads at a position inside the file, writes at one inside the
  buffer;
* `RamfsInv`: sizes are at most 32 KB and names are terminated, after `ramfs_init` and any
  calls that create, fill or load files (`ramfsInv_of_run`).
-/

namespace Lightstreak

open SysLib

variable {files files' : Ramfs} {name : List UInt8} {i n first offset len : ℕ}

/-! ## Strings -/

/-- On a terminated string and one that is terminated or longer, `str_eq` returns and decides
equality. -/
theorem strEq_eq {a b : List UInt8} (ha : 0 ∈ a) (hb : 0 ∈ b ∨ (cstr a).length < b.length) :
    strEq a b = some (decide (cstr a = cstr b)) := by
  induction a generalizing b with
  | nil => cases ha
  | cons x a ih =>
    cases b with
    | nil => simp at hb
    | cons y b =>
      rw [strEq]
      -- The loop ends at the first terminator of either string.
      by_cases hx : x = 0
      · by_cases hy : y = 0
        · simp [hx, hy]
        · simp [hx, cstr_cons_of_ne hy, Ne.symm hy]
      by_cases hy : y = 0
      · simp [hx, hy, cstr_cons_of_ne hx]
      rw [if_pos ⟨hx, hy⟩, cstr_cons_of_ne hx, cstr_cons_of_ne hy]
      by_cases hxy : x = y
      · have ha' : 0 ∈ a := (List.mem_cons.mp ha).resolve_left (Ne.symm hx)
        rw [cstr_cons_of_ne hx] at hb
        have hb' : 0 ∈ b ∨ (cstr a).length < b.length :=
          hb.imp (fun h => (List.mem_cons.mp h).resolve_left (Ne.symm hy)) Nat.lt_of_succ_lt_succ
        simp [hxy, ih ha' hb']
      · simp [hxy]

/-- The copied name is terminated. -/
theorem zero_mem_copyName {dst src nm : List UInt8} (h : copyName n dst src = some nm) :
    0 ∈ nm := by
  induction n generalizing dst src nm with
  | zero => simp [← Option.some.inj h]
  | succ n ih =>
    cases src with
    | nil => cases h
    | cons c src =>
      rw [copyName] at h
      split at h
      · simp [← Option.some.inj h]
      · obtain ⟨rest, hrest, rfl⟩ := Option.map_eq_some_iff.mp h
        exact List.mem_cons_of_mem _ (ih hrest)

/-! ## Copies -/

/-- Bytes are copied one by one into the field `data`. -/
theorem memCopyIn_eq {data b : ℕ → UInt8} {src : ReadMem} (hn : first + n ≤ ramfsMaxFileSize)
    (hsrc : ∀ k < n, src k = some (b k)) :
    memCopyIn data first src n =
      some fun k => if first ≤ k ∧ k < first + n then b (k - first) else data k := by
  induction n with
  | zero =>
    have hempty : ∀ k, ¬(first ≤ k ∧ k < first + 0) := by omega
    simp only [memCopyIn, hempty, ↓reduceIte]
  | succ n ih =>
    rw [memCopyIn, ih (by omega) fun k hk => hsrc k (by omega), hsrc n (by omega)]
    have hlt : first + n < ramfsMaxFileSize := by omega
    simp only [Option.bind_eq_bind, Option.bind_some, if_pos hlt, Option.some.injEq]
    funext k
    -- The last byte copied is the one that the prefix of the copy does not cover.
    by_cases hk : k = first + n
    · have hin : first ≤ k ∧ k < first + (n + 1) := by omega
      rw [if_pos hin, hk, Function.update_self, Nat.add_sub_cancel_left]
    · have hiff : (first ≤ k ∧ k < first + (n + 1)) ↔ first ≤ k ∧ k < first + n := by omega
      rw [Function.update_of_ne hk]
      simp only [hiff]

/-- A copy of at least one byte that ends outside the buffer fails. -/
theorem memCopyIn_eq_none {data : ℕ → UInt8} {src : ReadMem} (h0 : 0 < n)
    (hn : ramfsMaxFileSize < first + n) : memCopyIn data first src n = none := by
  obtain ⟨m, rfl⟩ : ∃ m, n = m + 1 := ⟨n - 1, by omega⟩
  have hout : ¬first + m < ramfsMaxFileSize := by omega
  simp [memCopyIn, hout]

/-- Bytes are copied one by one out of the field `data`. -/
theorem memCopyOut_eq {data : ℕ → UInt8} (hn : first + n ≤ ramfsMaxFileSize) :
    memCopyOut data first n = some ((List.range n).map fun k => data (first + k)) := by
  induction n with
  | zero => rfl
  | succ n ih =>
    rw [memCopyOut, ih (by omega)]
    have hlt : first + n < ramfsMaxFileSize := by omega
    simp [hlt, List.range_succ]

/-! ## Search -/

/-- The slot that `find_file` looks for: the first used one with that name. -/
def slotOf (files : Ramfs) (s : List UInt8) : Option ℕ :=
  (List.range ramfsMaxFiles).find? fun i => (files i).used && decide (cstr (files i).name = s)

/-- How the C functions return an index that may be missing. -/
def idxOrNeg : Option ℕ → ℤ
  | some i => i
  | none => -1

theorem idxOrNeg_neg_iff {o : Option ℕ} : idxOrNeg o < 0 ↔ o = none := by
  cases o with
  | none => simp [idxOrNeg]
  | some i => simp [idxOrNeg]

theorem idxOrNeg_eq_natCast_iff {o : Option ℕ} : idxOrNeg o = (i : ℤ) ↔ o = some i := by
  cases o with
  | none => simp [idxOrNeg]
  | some k => simp [idxOrNeg]

/-- The search from slot `i` on returns the first slot in use with the name, while no comparison
runs out of its field. -/
theorem findFileFrom_eq (hfiles : ∀ k, i ≤ k → k < i + n → (files k).used →
      0 ∈ (files k).name ∧ (0 ∈ name ∨ (cstr (files k).name).length < name.length)) :
    findFileFrom files name i n = some (idxOrNeg ((List.range' i n).find? fun k =>
      (files k).used && decide (cstr (files k).name = cstr name))) := by
  induction n generalizing i with
  | zero => rfl
  | succ n ih =>
    -- An unused slot is passed over without a look at its name.
    have ih' := ih (i := i + 1) fun k h1 h2 => hfiles k (by omega) (by omega)
    rw [findFileFrom, List.range'_succ, List.find?_cons, ih']
    cases hused : (files i).used with
    | false => simp
    | true =>
      obtain ⟨hterm, hname⟩ := hfiles i (by omega) (by omega) hused
      rw [strEq_eq hterm hname]
      by_cases heq : cstr (files i).name = cstr name
      · simp [heq, idxOrNeg]
      · simp [heq]

/-! ## The invariant of the slot array -/

/-- Sizes fit the buffer, and the names of used slots are terminated. -/
structure RamfsInv (files : Ramfs) : Prop where
  /-- No file is larger than its slot. -/
  size_le : ∀ i < ramfsMaxFiles, (files i).size ≤ ramfsMaxFileSize
  /-- The name of a slot in use ends within its field. -/
  terminated : ∀ i < ramfsMaxFiles, (files i).used → 0 ∈ (files i).name

/-- The search returns the first slot in use with the name. -/
theorem findFile_eq (hi : RamfsInv files) (hname : 0 ∈ name) :
    findFile files name = some (idxOrNeg (slotOf files (cstr name))) := by
  rw [findFile, findFileFrom_eq fun k _ hk hused => ⟨hi.terminated k (by omega) hused, .inl hname⟩,
    slotOf, List.range_eq_range']

/-- The slot of a name is the first one in use that has it. -/
theorem slotOf_eq_some_iff {s : List UInt8} : slotOf files s = some i ↔
    i < ramfsMaxFiles ∧ ((files i).used ∧ cstr (files i).name = s) ∧
      ∀ j < i, (files j).used → cstr (files j).name ≠ s := by
  rw [slotOf, List.find?_range_eq_some]
  simp only [Bool.and_eq_true, decide_eq_true_eq, List.mem_range, Bool.not_eq_true',
    Bool.and_eq_false_imp, decide_eq_false_iff_not, ne_eq]
  exact and_left_comm

theorem slotOf_eq_some {s : List UInt8} (h : slotOf files s = some i) :
    i < ramfsMaxFiles ∧ (files i).used ∧ cstr (files i).name = s := by
  obtain ⟨hlt, ⟨hused, hname⟩, -⟩ := slotOf_eq_some_iff.mp h
  exact ⟨hlt, hused, hname⟩

/-- A name has no slot if no slot in use has it. -/
theorem slotOf_eq_none_iff {s : List UInt8} : slotOf files s = none ↔
    ∀ i < ramfsMaxFiles, (files i).used → cstr (files i).name ≠ s := by
  rw [slotOf, List.find?_range_eq_none]
  simp only [Bool.not_eq_true', Bool.and_eq_false_imp, decide_eq_false_iff_not, ne_eq]

/-- The slot that `find_free_slot` looks for: the first one that is not in use. -/
theorem findFreeSlot_eq_idxOrNeg (files : Ramfs) : findFreeSlot files =
    idxOrNeg ((List.range ramfsMaxFiles).find? fun i => !(files i).used) := by
  unfold findFreeSlot
  split
  next hfind => rw [hfind, idxOrNeg]
  next hfind => rw [hfind, idxOrNeg]

/-- The free slot is the first one that is not in use. -/
theorem findFreeSlot_eq_iff : findFreeSlot files = i ↔
    i < ramfsMaxFiles ∧ (files i).used = false ∧ ∀ j < i, (files j).used := by
  rw [findFreeSlot_eq_idxOrNeg, idxOrNeg_eq_natCast_iff, List.find?_range_eq_some]
  simp only [Bool.not_eq_true', List.mem_range, Bool.not_eq_false']
  exact and_left_comm

/-- `find_free_slot` fails if and only if every slot is in use. -/
theorem findFreeSlot_neg_iff :
    findFreeSlot files < 0 ↔ ∀ j < ramfsMaxFiles, (files j).used := by
  rw [findFreeSlot_eq_idxOrNeg, idxOrNeg_neg_iff, List.find?_range_eq_none]
  simp only [Bool.not_eq_true', Bool.not_eq_false']

/-- `find_free_slot` returns a slot that is not in use, or `-1`. -/
theorem findFreeSlot_spec (files : Ramfs) : findFreeSlot files = -1 ∨
    ∃ i < ramfsMaxFiles, findFreeSlot files = i ∧ (files i).used = false := by
  have heq := findFreeSlot_eq_idxOrNeg files
  cases hfind : (List.range ramfsMaxFiles).find? fun i => !(files i).used with
  | none => exact .inl (by rw [heq, hfind, idxOrNeg])
  | some i =>
    have hslot : findFreeSlot files = i := by rw [heq, hfind, idxOrNeg]
    obtain ⟨hlt, hfree, -⟩ := findFreeSlot_eq_iff.mp hslot
    exact .inr ⟨i, hlt, hslot, hfree⟩

/-- A path without one leading slash. -/
def dropSlash : List UInt8 → List UInt8
  | [] => []
  | c :: path => if c = '/'.toUInt8 then path else c :: path

/-- A path and its string lose the same slash. -/
theorem ramfsOpen_eq {path : List UInt8} (hi : RamfsInv files) (hpath : 0 ∈ path) :
    ramfsOpen files path = some (idxOrNeg (slotOf files (dropSlash (cstr path)))) := by
  cases path with
  | nil => cases hpath
  | cons c path =>
    have hslash : '/'.toUInt8 ≠ 0 := by decide
    rw [ramfsOpen]
    by_cases hc : c = '/'.toUInt8
    · -- The slash is not the terminator, which is therefore still ahead.
      have hmem : 0 ∈ path := by
        rcases List.mem_cons.mp hpath with h | h
        · exact absurd (h.trans hc).symm hslash
        · exact h
      rw [if_pos hc, findFile_eq hi hmem, cstr_cons_of_ne (hc ▸ hslash), dropSlash, if_pos hc]
    · rw [if_neg hc, findFile_eq hi hpath]
      by_cases h0 : c = 0
      · rw [h0, cstr_cons_zero, dropSlash]
      · rw [cstr_cons_of_ne h0, dropSlash, if_neg hc]

/-! ## Reading and writing inside a file -/

/-- The bytes of a file. -/
def RamfsFile.content (f : RamfsFile) : List UInt8 := (List.range f.size).map f.data

/-- The file after `n` bytes of `buf` were written at `offset`. -/
def RamfsFile.splice (f : RamfsFile) (offset n : ℕ) (buf : ℕ → UInt8) : RamfsFile :=
  { f with
    data := fun k => if offset ≤ k ∧ k < offset + n then buf (k - offset) else f.data k
    size := max f.size (offset + n) }

@[simp]
theorem RamfsFile.length_content (f : RamfsFile) : f.content.length = f.size := by
  simp [content]

/-- Reading at an offset is cutting the contents. -/
theorem RamfsFile.take_drop_content (f : RamfsFile) (offset len : ℕ) :
    (f.content.drop offset).take len =
      (List.range (min len (f.size - offset))).map fun k => f.data (offset + k) := by
  refine List.ext_getElem (by simp) fun k h1 h2 => ?_
  simp [content]

/-- Writing at an offset replaces a part of the contents. -/
theorem RamfsFile.content_splice (f : RamfsFile) (h : offset ≤ f.size) (n : ℕ)
    (buf : ℕ → UInt8) : (f.splice offset n buf).content =
      f.content.take offset ++ (List.range n).map buf ++ f.content.drop (offset + n) := by
  refine List.ext_getElem ?_ fun k h1 h2 => ?_
  · simp [splice]
    omega
  · simp only [content, splice, List.getElem_map, List.getElem_range, List.getElem_append,
      List.length_append, List.length_take, List.length_map, List.length_range,
      List.getElem_take, List.getElem_drop, Nat.min_eq_left h]
    -- The three parts are the bytes before, inside and after the written range.
    by_cases hlow : k < offset
    · simp [hlow, show k < offset + n by omega]
    by_cases hmid : k < offset + n
    · simp [hlow, hmid, show offset ≤ k by omega]
    · simp [hmid, show offset + n + (k - (offset + n)) = k by omega]

/-- `ramfs_read` at a position inside the file: the bytes from there on, at most `len`. -/
theorem ramfsRead_eq (hi : i < ramfsMaxFiles) (hused : (files i).used)
    (hsize : (files i).size ≤ ramfsMaxFileSize) (hoff : offset ≤ (files i).size) :
    ramfsRead files i offset len =
      some (((((files i).content.drop offset).take len).length : ℤ),
        ((files i).content.drop offset).take len) := by
  have hidx : ¬((i : ℤ) < 0 ∨ (ramfsMaxFiles : ℤ) ≤ i) := by omega
  have hmax : ramfsMaxFileSize = 32768 := rfl
  simp only [ramfsRead, if_neg hidx, Int.toNat_natCast, hused, Bool.not_true,
    Bool.false_eq_true, ↓reduceIte, RamfsFile.take_drop_content]
  by_cases heof : (files i).size ≤ offset
  · -- At the end of the file the source returns before it computes what is available.
    simp [heof]
  · have hav : sub32 (files i).size offset = (files i).size - offset :=
      sub32_eq (by omega) (by omega)
    have hlen : (if (files i).size - offset < len then (files i).size - offset else len) =
        min len ((files i).size - offset) := by
      split <;> omega
    rw [if_neg heof, hav, hlen, memCopyOut_eq (by omega), Option.map_some,
      toInt32_of_lt (by omega)]
    simp

/-- `ramfs_write` at a position inside the buffer, when the end of the request does not wrap:
as many bytes as the buffer has room for. -/
theorem ramfsWrite_eq (hi : i < ramfsMaxFiles) (hused : (files i).used)
    (hoff : offset ≤ ramfsMaxFileSize) (hlen : offset + len < 2 ^ 32) (buf : ℕ → UInt8) :
    ramfsWrite files i buf offset len =
      some (((min len (ramfsMaxFileSize - offset) : ℕ) : ℤ), Function.update files i
        ((files i).splice offset (min len (ramfsMaxFileSize - offset)) buf)) := by
  have hidx : ¬((i : ℤ) < 0 ∨ (ramfsMaxFiles : ℤ) ≤ i) := by omega
  have hmax : ramfsMaxFileSize = 32768 := rfl
  -- Neither the sum nor the difference of the clamp wraps.
  have hclamp : (if ramfsMaxFileSize < add32 offset len then sub32 ramfsMaxFileSize offset
      else len) = min len (ramfsMaxFileSize - offset) := by
    rw [add32_eq hlen, sub32_eq (by omega) (by omega)]
    split <;> omega
  simp only [ramfsWrite, if_neg hidx, Int.toNat_natCast, hused, Bool.not_true,
    Bool.false_eq_true, ↓reduceIte, hclamp]
  generalize hn : min len (ramfsMaxFileSize - offset) = n
  rw [memCopyIn_eq (by omega) fun _ _ => rfl, add32_eq (by omega), toInt32_of_lt (by omega)]
  have hmaxs : (if (files i).size < offset + n then offset + n else (files i).size) =
      max (files i).size (offset + n) := by
    split <;> omega
  simp [RamfsFile.splice, hmaxs, hused]

/-- `ramfs_write` to a used slot stays in the buffer if and only if the request starts in it and
its end does not wrap: the clamp computes with the wrapped end, and with the wrapped room of a
request that starts behind the buffer. -/
theorem ramfsWrite_eq_none_iff (hi : i < ramfsMaxFiles) (hused : (files i).used)
    (hoff : offset < 2 ^ 32) (hlen : len < 2 ^ 32) (buf : ℕ → UInt8) :
    ramfsWrite files i buf offset len = none ↔
      ¬(offset ≤ ramfsMaxFileSize ∧ offset + len < 2 ^ 32) := by
  have hidx : ¬((i : ℤ) < 0 ∨ (ramfsMaxFiles : ℤ) ≤ i) := by omega
  have hmax : ramfsMaxFileSize = 32768 := rfl
  simp only [ramfsWrite, if_neg hidx, Int.toNat_natCast, hused, Bool.not_true,
    Bool.false_eq_true, ↓reduceIte, Option.map_eq_none_iff]
  generalize hn : (if ramfsMaxFileSize < add32 offset len then sub32 ramfsMaxFileSize offset
    else len) = n
  by_cases hin : offset ≤ ramfsMaxFileSize ∧ offset + len < 2 ^ 32
  · have hend : offset + n ≤ ramfsMaxFileSize := by
      rw [add32_eq hin.2, sub32_eq (by omega) hin.1] at hn
      split at hn <;> omega
    rw [memCopyIn_eq hend fun _ _ => rfl]
    exact iff_of_false (Option.some_ne_none _) (not_not_intro hin)
  · -- The sum wraps to a small number, or the difference to a large one: the clamp is no bound.
    have hout : 0 < n ∧ ramfsMaxFileSize < offset + n := by
      unfold add32 sub32 at hn
      split at hn <;> omega
    exact iff_of_true (memCopyIn_eq_none hout.1 hout.2) hin

/-! ## What the operations can do to the slot array -/

/-- `ramfs_create` fails and changes nothing, because the name is found or no slot is free, or it
names the first free slot and empties it. -/
theorem ramfsCreate_cases {r : ℤ} (h : ramfsCreate files name = some (r, files')) :
    (r = -1 ∧ files' = files ∧
        ((∃ k, 0 ≤ k ∧ findFile files name = some k) ∨ findFreeSlot files = -1)) ∨
      ∃ i < ramfsMaxFiles, r = i ∧ findFreeSlot files = i ∧ (files i).used = false ∧
        (∃ k < 0, findFile files name = some k) ∧
        ∃ nm, copyName (vfsMaxFilename - 1) (files i).name name = some nm ∧
          files' = Function.update files i
            { files i with name := nm, size := 0, used := true } := by
  unfold ramfsCreate at h
  obtain ⟨k, hk, h⟩ := Option.bind_eq_some_iff.mp h
  split at h
  next hpos =>
    -- The name is taken.
    cases h
    exact .inl ⟨rfl, rfl, .inl ⟨k, hpos, hk⟩⟩
  next hneg =>
    rcases findFreeSlot_spec files with hslot | ⟨i, hi, hslot, hused⟩
    · -- All slots are.
      simp only [hslot] at h
      cases h
      exact .inl ⟨rfl, rfl, .inr hslot⟩
    · have hpos : ¬((i : ℤ) < 0) := by omega
      simp only [hslot, if_neg hpos, Int.toNat_natCast] at h
      obtain ⟨nm, hnm, h⟩ := Option.bind_eq_some_iff.mp h
      cases h
      exact .inr ⟨i, hi, rfl, hslot, hused, ⟨k, not_le.mp hneg, hk⟩, nm, hnm, rfl⟩

/-- A write that does not leave the buffer fails and changes nothing, or replaces the data of one
slot and moves its size within the buffer. -/
theorem ramfsWrite_cases {r fileIdx : ℤ} {buf : ℕ → UInt8}
    (h : ramfsWrite files fileIdx buf offset len = some (r, files')) :
    files' = files ∨ ∃ i < ramfsMaxFiles, ∃ data size, (files i).used ∧
      size ≤ max (files i).size ramfsMaxFileSize ∧
      files' = Function.update files i { files i with data := data, size := size } := by
  unfold ramfsWrite at h
  split at h
  · cases h
    exact .inl rfl
  next hidx =>
    obtain ⟨i, rfl⟩ : ∃ i : ℕ, fileIdx = i := ⟨fileIdx.toNat, by omega⟩
    simp only [Int.toNat_natCast] at h
    split at h
    · cases h
      exact .inl rfl
    next hused =>
      obtain ⟨data, hcopy, h⟩ := Option.map_eq_some_iff.mp h
      cases h
      refine .inr ⟨i, by omega, data, _, by simpa using hused, ?_, rfl⟩
      -- Either nothing was copied, or the copied range lies inside the buffer.
      generalize hn : (if ramfsMaxFileSize < add32 offset len then
        sub32 ramfsMaxFileSize offset else len) = n at hcopy ⊢
      have hend : add32 offset n ≤ ramfsMaxFileSize := by
        have hmax : ramfsMaxFileSize = 32768 := rfl
        rcases Nat.eq_zero_or_pos n with hn0 | hn0
        · unfold add32 sub32 at *
          split at hn <;> omega
        · have hin : ¬ramfsMaxFileSize < offset + n := by
            intro hout
            rw [memCopyIn_eq_none hn0 hout] at hcopy
            cases hcopy
          rw [add32_eq (by omega)]
          omega
      split <;> omega

/-- `loadData` copies into the slot it is given, or does nothing. -/
theorem loadData_cases {mem : ReadMem} {modStart fsize : ℕ} {idx : ℤ}
    (h : loadData mem modStart offset fsize idx files = some files') :
    files' = files ∨ ∃ i : ℕ, idx = i ∧ ∃ data, files' = Function.update files i
      { files i with data := data, size := min ramfsMaxFileSize fsize } := by
  unfold loadData at h
  split at h
  next hc =>
    obtain ⟨i, rfl⟩ : ∃ i : ℕ, idx = i := ⟨idx.toNat, by omega⟩
    simp only [Int.toNat_natCast] at h
    obtain ⟨data, -, h⟩ := Option.bind_eq_some_iff.mp h
    cases h
    refine .inr ⟨i, rfl, data, ?_⟩
    have hmin : (if ramfsMaxFileSize < fsize then ramfsMaxFileSize else fsize) =
        min ramfsMaxFileSize fsize := by
      split <;> omega
    rw [hmin]
  next =>
    -- No slot, or no bytes.
    cases h
    exact .inl rfl

/-! ## The loop of the loader as a run -/

/-- The addresses of `n` entries from `entryPtr` on. -/
def entryPtrs : ℕ → ℕ → List ℕ
  | 0, _ => []
  | n + 1, entryPtr => entryPtr :: entryPtrs n (add32 entryPtr 72)

/-- One turn of the loop, as a step that prints a message. -/
def loadStep (mem : ReadMem) (modStart : ℕ) (files : Ramfs) (entryPtr : ℕ) :
    Option (RamfsMsg × Ramfs) :=
  (loadEntry mem modStart entryPtr files).map Prod.swap

/-- The loop of the loader feeds it one entry after the other. -/
theorem loadEntries_eq_feed (mem : ReadMem) (modStart n entryPtr : ℕ) (files : Ramfs) :
    loadEntries mem modStart n entryPtr files =
      (feed (loadStep mem modStart) files (entryPtrs n entryPtr)).map Prod.swap := by
  induction n generalizing entryPtr files with
  | zero => rfl
  | succ n ih =>
    rw [loadEntries, entryPtrs, feed, loadStep]
    cases loadEntry mem modStart entryPtr files with
    | none => rfl
    | some r =>
      simp only [Option.bind_eq_bind, Option.bind_some, Option.map_some, ih, Prod.snd_swap]
      cases feed (loadStep mem modStart) r.1 (entryPtrs n (add32 entryPtr 72)) <;> rfl

/-- What a load leaves: the files as they were, or what the turns of its loop make of them. -/
theorem exists_initramfsLoad_iff (mem : ReadMem) (modStart : ℕ) (files : Ramfs) {Q : Ramfs → Prop} :
    (∃ files' log, initramfsLoad mem modStart files = some (files', log) ∧ Q files') ↔
      ∃ magic, mem.load32 modStart = some magic ∧ (magic ≠ initramfsMagic → Q files) ∧
        (magic = initramfsMagic → ∃ fileCount, mem.load32 (add32 modStart 4) = some fileCount ∧
          ∃ log files', feed (loadStep mem modStart) files
            (entryPtrs fileCount (add32 modStart 8)) = some (log, files') ∧ Q files') := by
  unfold initramfsLoad
  cases mem.load32 modStart with
  | none => simp
  | some magic =>
    by_cases hmagic : magic = initramfsMagic
    · subst hmagic
      cases mem.load32 (add32 modStart 4) with
      | none => simp
      | some fileCount =>
        -- The messages of the loop come behind the one with the count.
        simp only [Option.bind_eq_bind, Option.bind_some, loadEntries_eq_feed]
        cases hfeed : feed (loadStep mem modStart) files
            (entryPtrs fileCount (add32 modStart 8)) with
        | none => simp [hfeed]
        | some q =>
          obtain ⟨log, files'⟩ := q
          simp [hfeed]
    · -- An image with a wrong magic word is ignored.
      simp [hmagic]

/-- A turn of the loader is `loadEntry`. -/
theorem loadStep_eq_some {mem : ReadMem} {modStart entryPtr : ℕ} {r : RamfsMsg × Ramfs}
    (h : loadStep mem modStart files entryPtr = some r) :
    loadEntry mem modStart entryPtr files = some (r.2, r.1) := by
  obtain ⟨q, hq, rfl⟩ := Option.map_eq_some_iff.mp h
  exact hq

/-! ## The invariant over runs -/

/-- What holds of every slot and of a new one holds of every slot after it is put in. -/
theorem forall_update {P : RamfsFile → Prop} {f : RamfsFile}
    (h : ∀ k < ramfsMaxFiles, P (files k)) (hf : P f) :
    ∀ k < ramfsMaxFiles, P (Function.update files i f k) :=
  (Function.forall_update_iff files (p := fun k g => k < ramfsMaxFiles → P g)).mpr
    ⟨fun _ => hf, fun k _ => h k⟩

/-- Replacing one slot by a well-formed one keeps the invariant. -/
theorem RamfsInv.update (hi : RamfsInv files) {f : RamfsFile}
    (hsize : f.size ≤ ramfsMaxFileSize) (hterm : f.used → 0 ∈ f.name) :
    RamfsInv (Function.update files i f) where
  size_le := forall_update (P := fun g => g.size ≤ ramfsMaxFileSize) hi.size_le hsize
  terminated := forall_update (P := fun g => g.used → 0 ∈ g.name) hi.terminated hterm

theorem ramfsInv_ramfsInit (files : Ramfs) : RamfsInv (ramfsInit files).2 := by
  refine ⟨fun i hi => ?_, fun i hi => ?_⟩ <;> simp [ramfsInit, hi]

/-- `ramfs_create` keeps the invariant. -/
theorem RamfsInv.ramfsCreate (hi : RamfsInv files) {r : ℤ}
    (h : ramfsCreate files name = some (r, files')) : RamfsInv files' := by
  rcases ramfsCreate_cases h with ⟨-, rfl, -⟩ | ⟨i, -, -, -, -, -, nm, hnm, rfl⟩
  · exact hi
  · exact hi.update (Nat.zero_le _) fun _ => zero_mem_copyName hnm

/-- `ramfs_write` keeps the invariant. -/
theorem RamfsInv.ramfsWrite (hi : RamfsInv files) {r fileIdx : ℤ} {buf : ℕ → UInt8}
    (h : ramfsWrite files fileIdx buf offset len = some (r, files')) : RamfsInv files' := by
  rcases ramfsWrite_cases h with rfl | ⟨i, hlt, data, size, hused, hsize, rfl⟩
  · exact hi
  · refine hi.update ?_ fun _ => hi.terminated i hlt hused
    exact hsize.trans (max_le (hi.size_le i hlt) le_rfl)

/-- One turn of the loader's loop: each of its reads succeeds, a slot may be created, and data is
only copied to a slot that was just created. -/
theorem loadEntry_cases {mem : ReadMem} {modStart entryPtr : ℕ} {msg : RamfsMsg}
    (h : loadEntry mem modStart entryPtr files = some (files', msg)) :
    ∃ offset fsize idx files₁ printed, mem.load32 (add32 entryPtr 64) = some offset ∧
      mem.load32 (add32 entryPtr 68) = some fsize ∧
      ramfsCreate files (mem.bytes entryPtr vfsMaxFilename) = some (idx, files₁) ∧
      loadData mem modStart offset fsize idx files₁ = some files' ∧
      mem.readStr entryPtr (2 ^ 32) = some printed ∧
      (files' = files₁ ∨ ∃ i < ramfsMaxFiles, ∃ data, files' = Function.update files₁ i
        { files₁ i with data := data, size := min ramfsMaxFileSize fsize }) := by
  unfold loadEntry at h
  obtain ⟨offset, hoffset, h⟩ := Option.bind_eq_some_iff.mp h
  obtain ⟨fsize, hfsize, h⟩ := Option.bind_eq_some_iff.mp h
  obtain ⟨⟨idx, files₁⟩, hcreate, h⟩ := Option.bind_eq_some_iff.mp h
  obtain ⟨files₂, hdata, h⟩ := Option.bind_eq_some_iff.mp h
  obtain ⟨printed, hprint, h⟩ := Option.bind_eq_some_iff.mp h
  cases h
  refine ⟨offset, fsize, idx, files₁, printed, hoffset, hfsize, hcreate, hdata, hprint, ?_⟩
  -- The contents are copied only if the file was created, and then its slot is a valid one.
  rcases loadData_cases hdata with hsame | ⟨i, rfl, data, hcopied⟩
  · exact .inl hsame
  · rcases ramfsCreate_cases hcreate with ⟨hneg, -⟩ | ⟨k, hk, hki, -⟩
    · omega
    · exact .inr ⟨i, by omega, data, hcopied⟩

/-- A turn of the loader keeps the invariant. -/
theorem RamfsInv.loadEntry (hi : RamfsInv files) {mem : ReadMem} {modStart entryPtr : ℕ}
    {msg : RamfsMsg} (h : loadEntry mem modStart entryPtr files = some (files', msg)) :
    RamfsInv files' := by
  obtain ⟨-, fsize, idx, files₁, -, -, -, hcreate, -, -, hcases⟩ := loadEntry_cases h
  have hi₁ := hi.ramfsCreate hcreate
  rcases hcases with rfl | ⟨i, hlt, data, rfl⟩
  · exact hi₁
  · -- The name of the slot stays as it was created, with its terminator.
    exact hi₁.update (min_le_left _ _) fun hused => hi₁.terminated i hlt hused

/-- The loop of the loader keeps the invariant. -/
theorem RamfsInv.loadEntries {mem : ReadMem} {modStart entryPtr : ℕ} {log : List RamfsMsg}
    (hi : RamfsInv files) (h : loadEntries mem modStart n entryPtr files = some (files', log)) :
    RamfsInv files' := by
  rw [loadEntries_eq_feed] at h
  obtain ⟨q, hq, heq⟩ := Option.map_eq_some_iff.mp h
  obtain rfl : q.2 = files' := congrArg Prod.fst heq
  exact feed_invariant RamfsInv (fun _ _ _ hi hr => hi.loadEntry (loadStep_eq_some hr)) hi hq

/-- The loader keeps the invariant. -/
theorem RamfsInv.initramfsLoad (hi : RamfsInv files) {mem : ReadMem} {modStart : ℕ}
    {log : List RamfsMsg} (h : initramfsLoad mem modStart files = some (files', log)) :
    RamfsInv files' := by
  unfold Lightstreak.initramfsLoad at h
  obtain ⟨magic, -, h⟩ := Option.bind_eq_some_iff.mp h
  split at h
  · cases h
    exact hi
  · obtain ⟨count, -, h⟩ := Option.bind_eq_some_iff.mp h
    obtain ⟨⟨files₁, log₁⟩, hload, h⟩ := Option.bind_eq_some_iff.mp h
    cases h
    exact hi.loadEntries hload

/-- A call by which the kernel fills the filesystem. -/
inductive RamfsOp
  | vfsCreate (name : List UInt8)
  | vfsWrite (fileIdx : ℤ) (buf : ℕ → UInt8) (offset len : UInt32)
  | initramfsLoad (mem : ReadMem) (modStart : UInt32)

/-- One such call, with ramfs mounted. -/
def RamfsStep (files : Ramfs) : RamfsOp → Ramfs → Prop
  | .vfsCreate name, files' => ∃ r, vfsCreate (some ramfsOps) files name = some (r, files')
  | .vfsWrite fileIdx buf offset len, files' =>
    ∃ r, vfsWrite (some ramfsOps) files fileIdx buf offset.toNat len.toNat = some (r, files')
  | .initramfsLoad mem modStart, files' =>
    ∃ log, initramfsLoad mem modStart.toNat files = some (files', log)

/-- Every operation keeps the invariant. -/
theorem RamfsInv.step (hi : RamfsInv files) {op : RamfsOp} (h : RamfsStep files op files') :
    RamfsInv files' := by
  cases op with
  | vfsCreate name =>
    obtain ⟨r, h⟩ := h
    exact hi.ramfsCreate h
  | vfsWrite fileIdx buf offset len =>
    obtain ⟨r, h⟩ := h
    exact hi.ramfsWrite h
  | initramfsLoad mem modStart =>
    obtain ⟨log, h⟩ := h
    exact hi.initramfsLoad h

/-- The invariant after `ramfs_init` and any calls that fill the filesystem. -/
theorem ramfsInv_of_run {files₀ : Ramfs} {ops : List RamfsOp}
    (hrun : Run RamfsStep (ramfsInit files₀).2 ops files) : RamfsInv files :=
  hrun.invariant (fun _ files => RamfsInv files) (ramfsInv_ramfsInit files₀)
    fun _ _ _ _ hi hstep => hi.step hstep

end Lightstreak
