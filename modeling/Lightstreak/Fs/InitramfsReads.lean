import Mathlib.Data.Nat.Count
import Lightstreak.Fs.Mkramfs
import Lightstreak.Fs.RamfsNames

/-!
# What the image loader reads

`initramfs_load` is told the size of its module and ignores it. The module is a window of memory:
a load that returns when only the window can be read has read nothing else.

Which contents it reads depends on the files that it creates: a name that is in use creates none,
and one that finds no free slot neither. `Creates` says so of the names in the image and the
filesystem before the load, and `AfterNames` ties it to the turns of the loop.

* `AfterNames.creates_iff`: for which entries a file is created;
* `loadStep_window_iff`: when one turn of the loop stays in the window;
* `initramfsLoad_window_iff`: a load reads only its module if and only if the header, the rows of
  the table, the names and the contents of the files that it creates all lie in the module.
-/

namespace Lightstreak

open SysLib
open ReadMem (window Inside)

variable {m : Mem} {lo size modStart entryPtr : ℕ} {files files' : Ramfs} {name s : List UInt8}
  {r : ℤ}

/-! ## Lemmas on the helpers -/

/-- A copy reads all its bytes. -/
theorem exists_of_memCopyIn {data data' : ℕ → UInt8} {first n : ℕ} {src : ReadMem}
    (h : memCopyIn data first src n = some data') : ∀ k < n, ∃ c, src k = some c := by
  induction n generalizing data' with
  | zero => exact fun k hk => absurd hk (Nat.not_lt_zero k)
  | succ n ih =>
    obtain ⟨d, hd, h⟩ := Option.bind_eq_some_iff.mp h
    obtain ⟨c, hc, -⟩ := Option.bind_eq_some_iff.mp h
    intro k hk
    rcases Nat.lt_succ_iff_lt_or_eq.mp hk with hlt | rfl
    · exact ih hd k hlt
    · exact ⟨c, hc⟩

/-! ## Which entries create a file -/

/-- The address of the entry `i` of the table. -/
def tableEntry (modStart i : ℕ) : ℕ := add32 (add32 modStart 8) (72 * i)

/-- The name of the entry `i` of the image at `modStart`. No byte after the 64th counts. -/
def entryName (m : Mem) (modStart i : ℕ) : List UInt8 :=
  cstr ((List.range vfsMaxFilename).map fun k => m (tableEntry modStart i + k))

/-- The name `name i` is new: it is not that of a file, and no name before it is stored as it. A
name is stored without its 64th byte. -/
def NewName (files : Ramfs) (name : ℕ → List UInt8) (i : ℕ) : Prop :=
  (∀ j < ramfsMaxFiles, (files j).used → cstr (files j).name ≠ name i) ∧
    ∀ j < i, (name j).take (vfsMaxFilename - 1) ≠ name i

instance (files : Ramfs) (name : ℕ → List UInt8) : DecidablePred (NewName files name) := fun _ =>
  inferInstanceAs (Decidable (_ ∧ _))

/-- The number of slots that are not in use. -/
def freeSlots (files : Ramfs) : ℕ := Nat.count (fun j => (files j).used = false) ramfsMaxFiles

/-- A file is created for the name `name i`: it is new, and there are more free slots than new names
before it. -/
def Creates (files : Ramfs) (name : ℕ → List UInt8) (i : ℕ) : Prop :=
  NewName files name i ∧ Nat.count (NewName files name) i < freeSlots files

instance (files : Ramfs) (name : ℕ → List UInt8) : DecidablePred (Creates files name) := fun _ =>
  inferInstanceAs (Decidable (_ ∧ _))

/-- A slot is found if and only if one is free. -/
theorem findFreeSlot_nonneg_iff : 0 ≤ findFreeSlot files ↔ 0 < freeSlots files := by
  rw [← not_lt, findFreeSlot_neg_iff, freeSlots, Nat.pos_iff_ne_zero, ne_eq, not_iff_not,
    Nat.count_eq_card_filter_range, Finset.card_eq_zero, Finset.filter_eq_empty_iff]
  simp only [Finset.mem_range, Bool.not_eq_false]

/-- A file that takes a slot adds its name to those in use. -/
theorem slotOf_create_eq_none_iff {i : ℕ} {f : RamfsFile} (hlt : i < ramfsMaxFiles)
    (hfree : (files i).used = false) (hused : f.used) :
    slotOf (Function.update files i f) s = none ↔ slotOf files s = none ∧ cstr f.name ≠ s := by
  simp only [slotOf_eq_none_iff]
  constructor
  · intro h
    refine ⟨fun j hj hju => ?_, ?_⟩
    -- A slot in use is not the one that was free.
    · have hji : j ≠ i := by
        rintro rfl
        rw [hfree] at hju
        cases hju
      have hj' := h j hj
      rw [Function.update_of_ne hji] at hj'
      exact hj' hju
    · have hi' := h i hlt
      rw [Function.update_self] at hi'
      exact hi' hused
  · rintro ⟨hold, hnew⟩ j hj hju
    rcases eq_or_ne j i with rfl | hji
    · rwa [Function.update_self]
    · rw [Function.update_of_ne hji] at hju ⊢
      exact hold j hj hju

/-- A file that takes a slot leaves one less. -/
theorem freeSlots_create {i : ℕ} {f : RamfsFile} (hlt : i < ramfsMaxFiles)
    (hfree : (files i).used = false) (hused : f.used) :
    freeSlots (Function.update files i f) = freeSlots files - 1 := by
  unfold freeSlots
  rw [Nat.count_eq_card_filter_range, Nat.count_eq_card_filter_range,
    ← Finset.card_erase_of_mem (a := i) (by simp [hlt, hfree])]
  congr 1
  ext j
  rcases eq_or_ne j i with rfl | hji
  · simp [hused]
  · simp [hji]

/-- A change of a slot that leaves it free, or in use, keeps the number of free slots. -/
theorem freeSlots_update {i : ℕ} {f : RamfsFile} (hused : f.used = (files i).used) :
    freeSlots (Function.update files i f) = freeSlots files := by
  have hsame : ∀ j, (Function.update files i f j).used = (files j).used := by
    intro j
    rcases eq_or_ne j i with rfl | hji
    · rw [Function.update_self, hused]
    · rw [Function.update_of_ne hji]
  simp only [freeSlots, hsame]

/-- The filesystem `files'` that the names before `name n` make of `files`: those that create a file
are in use, as they are stored, and each new name has taken a slot as long as there was one. -/
structure AfterNames (files : Ramfs) (name : ℕ → List UInt8) (n : ℕ) (files' : Ramfs) : Prop where
  /-- The names in the ramfs are sound. -/
  inv : NamesInv files'
  /-- The names that are taken are the old ones and those that were created. -/
  taken : ∀ s, slotOf files' s = none ↔ slotOf files s = none ∧
    ∀ j < n, Creates files name j → (name j).take (vfsMaxFilename - 1) ≠ s
  /-- Each new name has taken one free slot. -/
  free : freeSlots files' = freeSlots files - Nat.count (NewName files name) n

section AfterNames

variable {nm : ℕ → List UInt8} {n : ℕ}

theorem NamesInv.afterNames_zero (hi : NamesInv files) (nm : ℕ → List UInt8) :
    AfterNames files nm 0 files :=
  ⟨hi, fun s => by simp, by simp⟩

/-- There is a free slot as long as fewer new names were created than slots were free. -/
theorem AfterNames.room_iff (h : AfterNames files nm n files') :
    0 ≤ findFreeSlot files' ↔ Nat.count (NewName files nm) n < freeSlots files := by
  rw [findFreeSlot_nonneg_iff, h.free, Nat.sub_pos_iff_lt]

/-- A name is new if no file has it and no file that was created before is stored under it, as long
as there is room. -/
theorem newName_of_creates (hi : NamesInv files) (hfree : slotOf files (nm n) = none)
    (hroom : Nat.count (NewName files nm) n < freeSlots files)
    (hne : ∀ j < n, Creates files nm j → (nm j).take (vfsMaxFilename - 1) ≠ nm n) :
    NewName files nm n := by
  refine ⟨slotOf_eq_none_iff.mp hfree, fun j hj => ?_⟩
  -- By induction on `j`: if no file was created for it, then its name was taken before.
  induction j using Nat.strong_induction_on with
  | _ j ih =>
    intro heq
    have hcut : (nm j).length < vfsMaxFilename → nm j = nm n := fun hlen =>
      (List.take_of_length_le (Nat.le_sub_one_of_lt hlen)).symm.trans heq
    have hnot : ¬NewName files nm j := fun hnew =>
      hne j hj ⟨hnew, (Nat.count_monotone _ hj.le).trans_lt hroom⟩ heq
    rcases not_and_or.mp hnot with hfile | hbefore
    · simp only [not_forall, not_not] at hfile
      obtain ⟨k, hk, hused, hname⟩ := hfile
      have hsame := hcut (hname ▸ hi.short k hk hused)
      exact slotOf_eq_none_iff.mp hfree k hk hused (hname.trans hsame)
    · simp only [not_forall, not_not] at hbefore
      obtain ⟨k, hk, hname⟩ := hbefore
      have hlen : (nm j).length < vfsMaxFilename := by
        rw [← hname, List.length_take]
        exact (min_le_left _ _).trans_lt (by decide)
      exact ih k hk (hk.trans hj) (hname.trans (hcut hlen))

/-- Whether a file is created for a name, by the filesystem in which the loop comes to it. -/
theorem AfterNames.creates_iff (h : AfterNames files nm n files') (hi : NamesInv files) :
    Creates files nm n ↔ slotOf files' (nm n) = none ∧ 0 ≤ findFreeSlot files' := by
  rw [h.taken, h.room_iff]
  constructor
  · rintro ⟨hnew, hroom⟩
    exact ⟨⟨slotOf_eq_none_iff.mpr hnew.1, fun j hj _ => hnew.2 j hj⟩, hroom⟩
  · rintro ⟨⟨hfree, hne⟩, hroom⟩
    exact ⟨newName_of_creates hi hfree hroom hne, hroom⟩

/-- The name of an entry that creates no file. -/
theorem AfterNames.succ_of_not_creates (h : AfterNames files nm n files')
    (hn : ¬Creates files nm n) : AfterNames files nm (n + 1) files' where
  inv := h.inv
  taken s := by
    rw [h.taken]
    refine and_congr_right fun _ => ⟨fun hne j hj hc => ?_, fun hne j hj => hne j (by omega)⟩
    have hjn : j ≠ n := by
      rintro rfl
      exact hn hc
    exact hne j (by omega) hc
  free := by
    -- A new name that finds no free slot changes nothing.
    rw [h.free, Nat.count_succ]
    split_ifs with hnew
    · have hfull : ¬Nat.count (NewName files nm) n < freeSlots files := fun hroom =>
        hn ⟨hnew, hroom⟩
      omega
    · rfl

/-- The name of an entry that creates a file. -/
theorem AfterNames.succ_of_creates (h : AfterNames files nm n files') (hc : Creates files nm n)
    {i : ℕ} (hlt : i < ramfsMaxFiles) (hfree : (files' i).used = false) {f : RamfsFile}
    (hused : f.used) (hname : cstr f.name = (nm n).take (vfsMaxFilename - 1))
    (hinv : NamesInv (Function.update files' i f)) :
    AfterNames files nm (n + 1) (Function.update files' i f) where
  inv := hinv
  taken s := by
    rw [slotOf_create_eq_none_iff hlt hfree hused, h.taken, hname, and_assoc]
    refine and_congr_right fun _ => ⟨?_, fun hne => ⟨fun j hj => hne j (by omega),
      hne n (Nat.lt_succ_self n) hc⟩⟩
    rintro ⟨hne, hnew⟩ j hj hcj
    rcases Nat.lt_succ_iff_lt_or_eq.mp hj with hjn | rfl
    · exact hne j hjn hcj
    · exact hnew
  free := by
    rw [freeSlots_create hlt hfree hused, h.free, Nat.count_succ, if_pos hc.1, Nat.sub_sub]

/-- Writing contents changes neither names nor free slots. -/
theorem AfterNames.update (h : AfterNames files nm n files') {i : ℕ} {f : RamfsFile}
    (hname : f.name = (files' i).name) (hused : f.used = (files' i).used)
    (hinv : NamesInv (Function.update files' i f)) :
    AfterNames files nm n (Function.update files' i f) where
  inv := hinv
  taken s := by rw [slotOf_update hname hused, h.taken]
  free := by rw [freeSlots_update hused, h.free]

/-- One turn of the loop. -/
theorem AfterNames.loadStep {mem : ReadMem} {q : RamfsMsg × Ramfs}
    (h : AfterNames files nm n files') (hi : NamesInv files)
    (hname : cstr (mem.bytes entryPtr vfsMaxFilename) = nm n)
    (hstep : loadStep mem modStart files' entryPtr = some q) :
    AfterNames files nm (n + 1) q.2 := by
  have hinv := h.inv.loadStep hstep
  obtain ⟨-, fsize, idx, files₁, printed, -, -, hcreate, -, hprint, hcases⟩ :=
    loadEntry_cases (loadStep_eq_some hstep)
  have hfull := ReadMem.zero_mem_bytes_or_length_eq hprint vfsMaxFilename
  have hiff := ramfsCreate_nonneg_iff h.inv.namesEnd hfull hcreate
  rw [hname, ← h.creates_iff hi] at hiff
  have hinv₁ := h.inv.ramfsCreate hcreate
  have hafter : AfterNames files nm (n + 1) files₁ := by
    rcases ramfsCreate_cases hcreate with ⟨rfl, rfl, -⟩ | ⟨i, hlt, rfl, -, hfree, -, stored, hcopy,
      rfl⟩
    · exact h.succ_of_not_creates (hiff.not.mp (by decide))
    · refine h.succ_of_creates (hiff.mp (Int.natCast_nonneg i)) hlt hfree rfl ?_ hinv₁
      rw [cstr_copyName hcopy, hname]
  -- Copying the contents changes no name.
  rcases hcases with heq | ⟨i, -, data, heq⟩
  · rw [heq]
    exact hafter
  · rw [heq] at hinv ⊢
    exact hafter.update rfl rfl hinv

end AfterNames

/-! ## One turn of the loop -/

/-- The entry at `entryPtr` lies in the module: the words for offset and size, the name with its
terminator, and the contents if a file is created for it. -/
structure EntryInside (m : Mem) (modStart modSize entryPtr : ℕ) (creates : Prop) : Prop where
  /-- The field `offset`. -/
  offset : Inside modStart modSize (add32 entryPtr 64) 4
  /-- The field `size`. -/
  fsize : Inside modStart modSize (add32 entryPtr 68) 4
  /-- The name up to its terminator. -/
  name : ∃ k, Inside modStart modSize entryPtr (k + 1) ∧ m (entryPtr + k) = 0
  /-- The contents, of a file for which a slot is found, up to the size of a slot. -/
  data : creates → ∀ k < min ramfsMaxFileSize (m.load32 (add32 entryPtr 68)),
    Inside modStart modSize (add32 (add32 modStart (m.load32 (add32 entryPtr 64))) k) 1

/-- The copy of the contents stays in the window if and only if they lie in it. -/
theorem loadData_window_iff {offset fsize : ℕ} (hr : 0 ≤ r) :
    (∃ files', loadData (window m lo size) modStart offset fsize r files = some files') ↔
      ∀ k < min ramfsMaxFileSize fsize, Inside lo size (add32 (add32 modStart offset) k) 1 := by
  have hmin : (if ramfsMaxFileSize < fsize then ramfsMaxFileSize else fsize) =
      min ramfsMaxFileSize fsize := by
    split <;> omega
  rw [loadData, hmin]
  by_cases hpos : 0 < fsize
  · rw [if_pos ⟨hr, hpos⟩]
    constructor
    · rintro ⟨files', h⟩ k hk
      obtain ⟨data, hcopy, -⟩ := Option.bind_eq_some_iff.mp h
      obtain ⟨c, hc⟩ := exists_of_memCopyIn hcopy k hk
      exact (ReadMem.inside_of_window hc).1
    · intro hall
      exact ⟨_, Option.bind_eq_some_iff.mpr ⟨_, memCopyIn_eq (by omega) fun k hk =>
        ReadMem.window_eq_some (hall k hk), rfl⟩⟩
  · -- An empty file is not copied, and there is nothing to read.
    rw [if_neg fun h => hpos h.2]
    refine iff_of_true ⟨files, rfl⟩ fun k hk => ?_
    omega

/-- One turn of the loop reads only the module if and only if its entry lies in it. -/
theorem loadStep_window_iff {modSize : ℕ} (hi : NamesInv files) (hsize : modSize < 2 ^ 32) :
    (∃ q, loadStep (window m modStart modSize) modStart files entryPtr = some q) ↔
      EntryInside m modStart modSize entryPtr
        (slotOf files (cstr ((List.range vfsMaxFilename).map fun k => m (entryPtr + k))) = none ∧
          0 ≤ findFreeSlot files) := by
  constructor
  · -- Each read of the turn has succeeded.
    rintro ⟨q, hq⟩
    obtain ⟨offset, fsize, idx, files₁, printed, hoffset, hfsize, hcreate, hdata, hprint, -⟩ :=
      loadEntry_cases (loadStep_eq_some hq)
    obtain ⟨hoffIn, rfl⟩ := ReadMem.inside_of_window_load32 hoffset
    obtain ⟨hsizeIn, rfl⟩ := ReadMem.inside_of_window_load32 hfsize
    refine ⟨hoffIn, hsizeIn, (ReadMem.exists_window_readStr_iff hsize).mp ⟨printed, hprint⟩,
      fun hcreates => ?_⟩
    have hcreated : 0 ≤ idx := by
      rwa [ramfsCreate_nonneg_iff hi.namesEnd (ReadMem.zero_mem_bytes_or_length_eq hprint _)
        hcreate, ReadMem.cstr_bytes_window hprint]
    exact (loadData_window_iff hcreated).mp ⟨_, hdata⟩
  · rintro ⟨hoffIn, hsizeIn, hname, hdataIn⟩
    obtain ⟨s, hs⟩ := (ReadMem.exists_window_readStr_iff hsize).mpr hname
    have hfull := ReadMem.zero_mem_bytes_or_length_eq hs vfsMaxFilename
    obtain ⟨idx, files₁, hcreate⟩ := exists_ramfsCreate hi.namesEnd hfull
    have hoffset : (window m modStart modSize).load32 _ = _ := ReadMem.window_load32 hoffIn
    have hfsize : (window m modStart modSize).load32 _ = _ := ReadMem.window_load32 hsizeIn
    have hload : ∃ files₂, loadData (window m modStart modSize) modStart
        (m.load32 (add32 entryPtr 64)) (m.load32 (add32 entryPtr 68)) idx files₁ = some files₂ := by
      by_cases hcreated : 0 ≤ idx
      · have hcreates := (ramfsCreate_nonneg_iff hi.namesEnd hfull hcreate).mp hcreated
        rw [ReadMem.cstr_bytes_window hs] at hcreates
        exact (loadData_window_iff hcreated).mpr (hdataIn hcreates)
      · -- The data of a file that was not created is skipped.
        exact ⟨files₁, by rw [loadData, if_neg fun h => hcreated h.1]⟩
    obtain ⟨files₂, hload⟩ := hload
    refine ⟨(.loaded s (m.load32 (add32 entryPtr 68)), files₂), ?_⟩
    simp only [loadStep, loadEntry, hoffset, hfsize, hcreate, hload, hs, Option.bind_eq_bind,
      Option.bind_some, Option.pure_def, Option.map_some, Prod.swap_prod_mk]

/-! ## The whole load -/

/-- All that `initramfs_load` looks at lies in the module: the magic word, and if it is right the
count and each entry, with the contents of those for which a file is created. -/
structure ModuleInside (m : Mem) (modStart modSize : ℕ) (files : Ramfs) : Prop where
  /-- The magic number. -/
  magic : Inside modStart modSize modStart 4
  /-- The number of files, after a valid magic number. -/
  count : m.load32 modStart = initramfsMagic → Inside modStart modSize (add32 modStart 4) 4
  /-- All entries that the header announces. -/
  entries : m.load32 modStart = initramfsMagic → ∀ i < m.load32 (add32 modStart 4),
    EntryInside m modStart modSize (tableEntry modStart i)
      (Creates files (entryName m modStart) i)

/-- The addresses of the entries, from the last one. -/
theorem entryPtrs_succ (n : ℕ) (hptr : entryPtr < 2 ^ 32) :
    entryPtrs (n + 1) entryPtr = entryPtrs n entryPtr ++ [add32 entryPtr (72 * n)] := by
  induction n generalizing entryPtr with
  | zero =>
    rw [Nat.mul_zero, add32_eq hptr]
    rfl
  | succ n ih =>
    have hnext : add32 (add32 entryPtr 72) (72 * n) = add32 entryPtr (72 * (n + 1)) := by
      unfold add32
      omega
    rw [entryPtrs, ih (add32_lt _ _), hnext, entryPtrs, List.cons_append]

/-- The loop over the first entries, as long as they can be read. -/
theorem afterNames_of_feed {modSize : ℕ} (hi : NamesInv files) (n : ℕ) {log : List RamfsMsg}
    (h : feed (loadStep (window m modStart modSize) modStart) files
      (entryPtrs n (add32 modStart 8)) = some (log, files')) :
    AfterNames files (entryName m modStart) n files' := by
  induction n generalizing log files' with
  | zero =>
    obtain ⟨-, rfl⟩ := Prod.mk.inj (Option.some.inj h)
    exact hi.afterNames_zero _
  | succ n ih =>
    rw [entryPtrs_succ n (add32_lt _ _)] at h
    obtain ⟨log', files₁, msg, hfirst, hstep, -⟩ := exists_of_feed_concat h
    obtain ⟨-, -, -, -, printed, -, -, -, -, hprint, -⟩ := loadEntry_cases (loadStep_eq_some hstep)
    exact (ih hfirst).loadStep hi (ReadMem.cstr_bytes_window hprint _) hstep

/-- The loop reads only the module if and only if every entry lies in it. -/
theorem feed_loadStep_window_iff {modSize : ℕ} (hi : NamesInv files) (hsize : modSize < 2 ^ 32)
    (n : ℕ) :
    (∃ log files', feed (loadStep (window m modStart modSize) modStart) files
        (entryPtrs n (add32 modStart 8)) = some (log, files')) ↔
      ∀ i < n, EntryInside m modStart modSize (tableEntry modStart i)
        (Creates files (entryName m modStart) i) := by
  -- The induction is on the number of entries: what the last one needs depends on the names before
  -- it.
  induction n with
  | zero => exact iff_of_true ⟨[], files, rfl⟩ fun i hi => absurd hi (Nat.not_lt_zero i)
  | succ n ih =>
    rw [Nat.forall_lt_succ_right, ← ih, entryPtrs_succ n (add32_lt _ _)]
    constructor
    · rintro ⟨log, files', h⟩
      obtain ⟨log', files₁, msg, hfirst, hstep, -⟩ := exists_of_feed_concat h
      have hafter := afterNames_of_feed hi n hfirst
      rw [hafter.creates_iff hi]
      exact ⟨⟨log', files₁, hfirst⟩, (loadStep_window_iff hafter.inv hsize).mp ⟨_, hstep⟩⟩
    · rintro ⟨⟨log, files', hfirst⟩, hlast⟩
      have hafter := afterNames_of_feed hi n hfirst
      rw [hafter.creates_iff hi] at hlast
      obtain ⟨r, hstep⟩ := (loadStep_window_iff hafter.inv hsize).mpr hlast
      exact ⟨log ++ [r.1], r.2, feed_concat_of_some hfirst hstep⟩

/-- The reads of the loader: after `ramfs_init` and any calls that fill the filesystem, for any
memory and any module, `initramfs_load` returns with only the module readable if and only if all it
looks at lies in the module. -/
theorem initramfsLoad_window_iff (m : Mem) (modStart modSize : UInt32) {files₀ : Ramfs}
    {ops : List RamfsOp} {rs : List ℤ}
    (hrun : feed RamfsOp.call (ramfsInit files₀).2 ops = some (rs, files)) :
    (∃ files' log, initramfsLoad (window m modStart.toNat modSize.toNat) modStart.toNat files =
        some (files', log)) ↔
      ModuleInside m modStart.toNat modSize.toNat files := by
  have hi : NamesInv files :=
    feed_invariant NamesInv (fun _ _ _ hi h => (hi.call h).1) (namesInv_ramfsInit files₀) hrun
  have hsize : modSize.toNat < 2 ^ 32 := modSize.toNat_lt
  -- From here on only that the size is a 32-bit number matters.
  generalize modStart.toNat = base at *
  generalize modSize.toNat = n at *
  have hload := exists_initramfsLoad_iff (window m base n) base files (Q := fun _ => True)
  simp only [and_true] at hload
  rw [hload]
  constructor
  · rintro ⟨magic, hmagic, -, hgood⟩
    obtain ⟨hin, rfl⟩ := ReadMem.inside_of_window_load32 hmagic
    refine ⟨hin, fun heq => ?_, fun heq => ?_⟩
    · obtain ⟨count, hcount, -⟩ := hgood heq
      exact (ReadMem.inside_of_window_load32 hcount).1
    · obtain ⟨count, hcount, log, files', hfeed⟩ := hgood heq
      obtain ⟨-, rfl⟩ := ReadMem.inside_of_window_load32 hcount
      exact (feed_loadStep_window_iff hi hsize _).mp ⟨log, files', hfeed⟩
  · rintro ⟨hin, hcount, hentries⟩
    refine ⟨_, ReadMem.window_load32 hin, fun _ => trivial, fun heq => ?_⟩
    obtain ⟨log, files', hfeed⟩ := (feed_loadStep_window_iff hi hsize _).mpr (hentries heq)
    exact ⟨_, ReadMem.window_load32 (hcount heq), log, files', hfeed⟩

/-- Memory with the image that `mkramfs` packs of the files `a` and `b`, at `0x100000`. -/
def twoFileModule : Mem := fun a =>
  (mkramfs [⟨[0x61], some [72, 105]⟩, ⟨[0x62], some [66, 121, 101]⟩]).getD (a - 0x100000) 0

/-- Both entries lie in the module. It has 8 bytes of header, 144 of table, and 5 of contents. -/
theorem moduleInside_twoFileModule (files : Ramfs) :
    ModuleInside twoFileModule 0x100000 157 files where
  magic := by decide
  count _ := by decide
  entries _ i hi := by
    have hcount : twoFileModule.load32 (add32 0x100000 4) = 2 := by decide +kernel
    rw [hcount] at hi
    obtain rfl | rfl : i = 0 ∨ i = 1 := by omega
    · exact ⟨by decide, by decide, ⟨1, by decide, by decide +kernel⟩, fun _ => by decide +kernel⟩
    · exact ⟨by decide, by decide, ⟨1, by decide, by decide +kernel⟩, fun _ => by decide +kernel⟩

/-- The image of two files, loaded when there is a file `b`: only `a` is created. -/
theorem initramfsLoad_window_iff_twoFiles :
    ∃ rs files files' log,
      feed RamfsOp.call (ramfsInit fun _ => ⟨[], fun _ => 0, 0, false⟩).2 [.vfsCreate [0x62, 0]] =
        some (rs, files) ∧
      Creates files (entryName twoFileModule 0x100000) 0 ∧
      ¬Creates files (entryName twoFileModule 0x100000) 1 ∧
      initramfsLoad (window twoFileModule 0x100000 157) 0x100000 files = some (files', log) := by
  obtain ⟨⟨rs, files⟩, hrun⟩ := Option.isSome_iff_exists.mp
    (show (feed RamfsOp.call (ramfsInit fun _ => ⟨[], fun _ => 0, 0, false⟩).2
      [.vfsCreate [0x62, 0]]).isSome by decide)
  have hcreates : ∀ q ∈ feed RamfsOp.call (ramfsInit fun _ => ⟨[], fun _ => 0, 0, false⟩).2
      [.vfsCreate [0x62, 0]], Creates q.2 (entryName twoFileModule 0x100000) 0 ∧
        ¬Creates q.2 (entryName twoFileModule 0x100000) 1 := by decide +kernel
  obtain ⟨hfirst, hsecond⟩ := hcreates _ hrun
  obtain ⟨files', log, hload⟩ := (initramfsLoad_window_iff twoFileModule 0x100000 157 hrun).mpr
    (moduleInside_twoFileModule files)
  exact ⟨rs, files, files', log, hrun, hfirst, hsecond, hload⟩

/-- A module of eight bytes, the header of an image with one file. -/
def headerOnly : Mem := fun a => (le32 initramfsMagic ++ le32 1).getD (a - 0x100000) 0

/-- The loader reads the row of that file behind the module, and creates a file. -/
theorem initramfsLoad_window_headerOnly :
    (¬∃ files' log, initramfsLoad (window headerOnly 0x100000 8) 0x100000
        (ramfsInit fun _ => ⟨[], fun _ => 0, 0, false⟩).2 = some (files', log)) ∧
      ∃ files' log, initramfsLoad (fun a => some (headerOnly a)) 0x100000
          (ramfsInit fun _ => ⟨[], fun _ => 0, 0, false⟩).2 = some (files', log) ∧
        (files' 0).used ∧ log = [.loading 1, .loaded [] 0] := by
  constructor
  · rintro ⟨files', log, h⟩
    have hnone : (initramfsLoad (window headerOnly 0x100000 8) 0x100000
        (ramfsInit fun _ => ⟨[], fun _ => 0, 0, false⟩).2).isNone := by decide
    rw [h] at hnone
    cases hnone
  · exact ⟨_, _, rfl, by decide, by decide⟩

end Lightstreak
