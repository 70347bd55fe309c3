import Lightstreak.Fs.RamfsNames

/-!
# Malformed images

`initramfs_load` believes every word of its image: the count, the names, the offsets and the sizes.
Whatever they are, it only ever names and fills slots that were free:

* `exists_loadStep`: one turn of the loop returns, and leaves the slots in use as they were;
* `initramfsLoad_safe`: so does the whole load, with any memory behind the module.

All of the 32-bit address space can be read here, so the result is about what is written. The slot
array is itself in memory, which is why the print of a name that is not terminated comes to an end.
-/

namespace Lightstreak

open SysLib

variable {m : Mem} {files files' : Ramfs} {modStart entryPtr filesAddr : ℕ}

/-! ## The slots in use -/

/-- The slots in use have a size in their buffer and a name that ends in its field. The slots that
are free may hold anything. -/
structure SlotsSafe (files : Ramfs) : Prop where
  /-- No file is larger than its slot. -/
  size_le : ∀ i < ramfsMaxFiles, (files i).used → (files i).size ≤ ramfsMaxFileSize
  /-- All names of files end within their fields. -/
  namesEnd : NamesEnd files

/-- The slots in use stay as they are, with name, size and data. -/
def KeepsSlots (files files' : Ramfs) : Prop := ∀ i, (files i).used → files' i = files i

theorem KeepsSlots.trans {files₁ : Ramfs} (h : KeepsSlots files files₁)
    (h' : KeepsSlots files₁ files') : KeepsSlots files files' := by
  intro i hused
  have hsame := h i hused
  rw [← hsame]
  exact h' i (hsame ▸ hused)

/-- A slot is replaced by one that is safe. -/
theorem SlotsSafe.update (hs : SlotsSafe files) {i : ℕ} {f : RamfsFile}
    (hsize : f.size ≤ ramfsMaxFileSize) (hname : 0 ∈ f.name.take vfsMaxFilename) :
    SlotsSafe (Function.update files i f) where
  size_le := forall_update (P := fun g => g.used → g.size ≤ ramfsMaxFileSize)
    hs.size_le fun _ => hsize
  namesEnd := forall_update (P := fun g => g.used → 0 ∈ g.name.take vfsMaxFilename)
    hs.namesEnd fun _ => hname

/-- A change of a free slot keeps the slots in use. -/
theorem keepsSlots_update {i : ℕ} (hfree : (files i).used = false) (f : RamfsFile) :
    KeepsSlots files (Function.update files i f) := by
  intro k hused
  refine Function.update_of_ne (fun hki => ?_) _ _
  rw [hki, hfree] at hused
  cases hused

/-! ## The address space -/

/-- All of the 32-bit address space, in which addresses wrap around. -/
def addressSpace (m : Mem) : ReadMem := fun a => some (m (a % 2 ^ 32))

/-- `sizeof(ramfs_file_t)` -/
def sizeofRamfsFile : ℕ := 32840

/-- The offset of `used` in `ramfs_file_t`, behind the name, the data and the size. -/
def usedOffset : ℕ := 32836

/-- The array `files` stands in memory at `filesAddr`. Its data and sizes are not needed. -/
structure HoldsSlots (m : Mem) (filesAddr : ℕ) (files : Ramfs) : Prop where
  /-- The array is inside the address space. -/
  fits : filesAddr + sizeofRamfsFile * ramfsMaxFiles ≤ 2 ^ 32
  /-- The field `name` of each slot. -/
  name : ∀ i < ramfsMaxFiles, ∀ k < vfsMaxFilename,
    (files i).name[k]? = some (m (filesAddr + sizeofRamfsFile * i + k))
  /-- The field `used` of each slot. -/
  used : ∀ i < ramfsMaxFiles,
    m (filesAddr + sizeofRamfsFile * i + usedOffset) = if (files i).used then 1 else 0

/-- The first slot has a zero byte: the end of its name, or its flag. -/
theorem HoldsSlots.exists_zero (hmem : HoldsSlots m filesAddr files) (hs : SlotsSafe files) :
    ∃ a < 2 ^ 32, m a = 0 := by
  have hfits := hmem.fits
  have hmax : vfsMaxFilename = 64 := rfl
  simp only [sizeofRamfsFile, ramfsMaxFiles] at hfits
  by_cases hused : (files 0).used
  · obtain ⟨k, hk⟩ := List.mem_iff_getElem?.mp (hs.namesEnd 0 (by decide) hused)
    rw [List.getElem?_take] at hk
    split at hk
    next hlt =>
      have hbyte := hmem.name 0 (by decide) k hlt
      rw [hk, Option.some_inj] at hbyte
      exact ⟨_, by omega, hbyte.symm⟩
    next => cases hk
  · have hflag := hmem.used 0 (by decide)
    rw [if_neg hused] at hflag
    exact ⟨_, by simp only [usedOffset]; omega, hflag⟩

/-- A string is read from anywhere, since reading wraps around to the zero byte. -/
theorem exists_readStr_addressSpace (hzero : ∃ a < 2 ^ 32, m a = 0) (a : ℕ) :
    ∃ s, (addressSpace m).readStr a (2 ^ 32) = some s := by
  obtain ⟨z, hz, h0⟩ := hzero
  have hread : ∀ j, addressSpace m (a + j) = some (m ((a + j) % 2 ^ 32)) := fun _ => rfl
  refine ReadMem.exists_readStr (k := (z + 2 ^ 32 - a % 2 ^ 32) % 2 ^ 32) (fun j _ => ⟨_, hread j⟩)
    ?_ (Nat.mod_lt _ (by decide))
  rw [hread, show (a + (z + 2 ^ 32 - a % 2 ^ 32) % 2 ^ 32) % 2 ^ 32 = z by omega, h0]

/-! ## One turn of the loop -/

/-- The copy of the contents returns. -/
theorem exists_loadData (m : Mem) (modStart offset fsize : ℕ) (idx : ℤ) (files : Ramfs) :
    ∃ files', loadData (addressSpace m) modStart offset fsize idx files = some files' := by
  unfold loadData
  split
  · have hmin : (if ramfsMaxFileSize < fsize then ramfsMaxFileSize else fsize) ≤
        ramfsMaxFileSize := by
      split <;> omega
    exact ⟨_, Option.bind_eq_some_iff.mpr
      ⟨_, memCopyIn_eq (by omega) fun _ _ => rfl, rfl⟩⟩
  · exact ⟨files, rfl⟩

/-- Creating a file and copying its contents: a free slot is filled, or nothing changes. -/
theorem SlotsSafe.create_loadData (hs : SlotsSafe files) {name : List UInt8} {idx : ℤ}
    {files₁ : Ramfs} {mem : ReadMem} {offset fsize : ℕ}
    (hcreate : ramfsCreate files name = some (idx, files₁))
    (hdata : loadData mem modStart offset fsize idx files₁ = some files') :
    SlotsSafe files' ∧ KeepsSlots files files' ∧
      ((∀ i < ramfsMaxFiles, (files i).used) → files' = files) := by
  rcases ramfsCreate_cases hcreate with ⟨rfl, rfl, -⟩ | ⟨i, hi, rfl, -, hfree, -, nm, hnm, rfl⟩
  · -- No slot was taken, so there is nowhere to copy to.
    rcases loadData_cases hdata with rfl | ⟨i, hi, -⟩
    · exact ⟨hs, fun _ _ => rfl, fun _ => rfl⟩
    · omega
  · have hname : 0 ∈ nm.take vfsMaxFilename := by
      rw [zero_mem_take_iff, cstr_copyName hnm, List.length_take]
      have hmax : vfsMaxFilename = 64 := rfl
      exact ⟨zero_mem_copyName hnm, by omega⟩
    have hfull : (∀ i < ramfsMaxFiles, (files i).used) → files' = files := fun hall => by
      rw [hall i hi] at hfree
      cases hfree
    rcases loadData_cases hdata with rfl | ⟨j, hj, data, rfl⟩
    · exact ⟨hs.update (Nat.zero_le _) hname, keepsSlots_update hfree _, hfull⟩
    · obtain rfl : i = j := by omega
      rw [Function.update_idem, Function.update_self] at hfull ⊢
      exact ⟨hs.update (min_le_left _ _) hname, keepsSlots_update hfree _, hfull⟩

/-- A turn of the loop, on any entry. -/
theorem exists_loadStep (hs : SlotsSafe files) (hzero : ∃ a < 2 ^ 32, m a = 0)
    (modStart entryPtr : ℕ) :
    ∃ msg files', loadStep (addressSpace m) modStart files entryPtr = some (msg, files') ∧
      SlotsSafe files' ∧ KeepsSlots files files' ∧
      ((∀ i < ramfsMaxFiles, (files i).used) → files' = files) := by
  obtain ⟨printed, hprint⟩ := exists_readStr_addressSpace hzero entryPtr
  obtain ⟨idx, files₁, hcreate⟩ := exists_ramfsCreate hs.namesEnd
    (ReadMem.zero_mem_bytes_or_length_eq hprint vfsMaxFilename)
  obtain ⟨offset, hoffset⟩ : ∃ v, (addressSpace m).load32 (add32 entryPtr 64) = some v := ⟨_, rfl⟩
  obtain ⟨fsize, hfsize⟩ : ∃ v, (addressSpace m).load32 (add32 entryPtr 68) = some v := ⟨_, rfl⟩
  obtain ⟨files₂, hdata⟩ := exists_loadData m modStart offset fsize idx files₁
  refine ⟨.loaded printed fsize, files₂, ?_, hs.create_loadData hcreate hdata⟩
  simp only [loadStep, loadEntry, hoffset, hfsize, hcreate, hdata, hprint, Option.bind_eq_bind,
    Option.bind_some, Option.pure_def, Option.map_some, Prod.swap_prod_mk]

/-! ## The whole load -/

/-- Loading an image, whatever memory holds: from every state whose slots in use are safe,
`initramfs_load` returns, the slots in use are as they were, all slots in use are safe again, and
nothing has changed if the magic word is wrong or no slot was free. -/
theorem initramfsLoad_safe (m : Mem) (modStart : UInt32) (hs : SlotsSafe files)
    (hmem : HoldsSlots m filesAddr files) :
    ∃ files' log, initramfsLoad (addressSpace m) modStart.toNat files = some (files', log) ∧
      KeepsSlots files files' ∧ SlotsSafe files' ∧
      ((addressSpace m).load32 modStart.toNat ≠ some initramfsMagic ∨
          (∀ i < ramfsMaxFiles, (files i).used) → files' = files) := by
  have hzero := hmem.exists_zero hs
  generalize modStart.toNat = base
  obtain ⟨magic, hmagic⟩ : ∃ v, (addressSpace m).load32 base = some v := ⟨_, rfl⟩
  rw [hmagic]
  refine (exists_initramfsLoad_iff _ _ _ (Q := fun files' => KeepsSlots files files' ∧
    SlotsSafe files' ∧ (some magic ≠ some initramfsMagic ∨
      (∀ i < ramfsMaxFiles, (files i).used) → files' = files))).mpr
    ⟨magic, hmagic, fun _ => ⟨fun _ _ => rfl, hs, fun _ => rfl⟩, fun heq => ⟨_, rfl, ?_⟩⟩
  -- By induction over the turns of the loop, from the state before the load.
  obtain ⟨log, files', hfeed, hsafe, hkeep, hfull⟩ := exists_feed
    (f := loadStep (addressSpace m) base)
    (fun files' => SlotsSafe files' ∧ KeepsSlots files files' ∧
      ((∀ i < ramfsMaxFiles, (files i).used) → files' = files))
    (fun files₁ p hs₁ => by
      obtain ⟨msg, files₂, hstep, hsafe, hkeep, hfull⟩ := exists_loadStep hs₁.1 hzero base p
      refine ⟨msg, files₂, hstep, hsafe, hs₁.2.1.trans hkeep, fun hall => ?_⟩
      have hsame := hs₁.2.2 hall
      rw [hfull (hsame ▸ hall), hsame])
    (entryPtrs _ _) files ⟨hs, fun _ _ => rfl, fun _ => rfl⟩
  refine ⟨log, files', hfeed, hkeep, hsafe, ?_⟩
  rintro (hne | hall)
  · exact absurd (congrArg some heq) hne
  · exact hfull hall

/-- A filesystem with one file, which is empty and has an empty name. -/
def oneUnnamedFile : Ramfs := fun i => ⟨List.replicate vfsMaxFilename 0, fun _ => 0, 0, i = 0⟩

/-- Memory with that filesystem at 2 MB, and at 1 MB the header of an image with three files that
are not there. -/
def bareHeader : Mem := fun a =>
  if a = 0x200000 + usedOffset then 1
  else (le32 initramfsMagic ++ le32 3).getD (a - 0x100000) 0

theorem bareHeader_eq_zero {a : ℕ} (ha : 0x200000 ≤ a) (hne : a ≠ 0x200000 + usedOffset) :
    bareHeader a = 0 := by
  have hlen : (le32 initramfsMagic ++ le32 3).length ≤ a - 0x100000 := by
    simp only [le32, List.length_append, List.length_cons, List.length_nil]
    omega
  rw [bareHeader, if_neg hne, List.getD_eq_default _ _ hlen]

theorem holdsSlots_bareHeader : HoldsSlots bareHeader 0x200000 oneUnnamedFile where
  fits := by decide
  name i _ k hk := by
    have hmax : vfsMaxFilename = 64 := rfl
    rw [bareHeader_eq_zero (by omega) (by simp only [sizeofRamfsFile, usedOffset]; omega)]
    exact List.getElem?_replicate_of_lt hk
  used i _ := by
    by_cases h0 : i = 0
    · simp [h0, oneUnnamedFile, bareHeader]
    · rw [bareHeader_eq_zero (by omega) (by simp only [sizeofRamfsFile, usedOffset]; omega)]
      simp [h0, oneUnnamedFile]

/-- The header is believed, and the file stays as it is. -/
theorem initramfsLoad_safe_bareHeader :
    ∃ files' log, initramfsLoad (addressSpace bareHeader) 0x100000 oneUnnamedFile =
        some (files', log) ∧ files' 0 = oneUnnamedFile 0 ∧ SlotsSafe files' := by
  have hs : SlotsSafe oneUnnamedFile :=
    ⟨fun _ _ _ => Nat.zero_le _, fun _ _ _ => show 0 ∈ (List.replicate 64 0).take 64 by decide⟩
  obtain ⟨files', log, hload, hkeep, hsafe, -⟩ :=
    initramfsLoad_safe bareHeader 0x100000 hs holdsSlots_bareHeader
  exact ⟨files', log, hload, hkeep 0 rfl, hsafe⟩

end Lightstreak
