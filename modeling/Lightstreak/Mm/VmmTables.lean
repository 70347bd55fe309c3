import Mathlib.Data.Finset.Basic
import Mathlib.Data.Finset.Insert
import Lightstreak.Lib.Run
import Lightstreak.Mm.Vmm

/-!
# Page tables refine per-directory maps

User directories are copies of the kernel directory that grow page tables lazily, in the same
physical memory. The aliasing invariant `VmmInv` keeps directories and tables apart: they are
distinct frames, each table above the identity region belongs to one directory entry, and the
entries of the identity region are those of the kernel directory.

* `VmmInv.step`: every call keeps the invariant, whatever its arguments;
* `pte_mapPage`, `pte_unmapPage`, `pte_createUserDirectory`: what a call does to the table entry
  of a page above 8 MB;
* `walk_eq_lastMapping_of_run`: over whole runs, a page walk above 8 MB yields the last mapping
  of that page in that directory.
-/

namespace Lightstreak

open SysLib SysLib.Paging

/-! ## Indices and entries -/

theorem vmmDirIdx_eq {va : ℕ} (h : va < 2 ^ 32) : vmmDirIdx va = va / 4096 / 1024 := by
  unfold vmmDirIdx
  rw [Nat.shiftRight_eq_div_pow, show 0x3FF = 2 ^ 10 - 1 from rfl,
    Nat.and_two_pow_sub_one_eq_mod]
  omega

theorem vmmTblIdx_eq (va : ℕ) : vmmTblIdx va = va / 4096 % 1024 := by
  unfold vmmTblIdx
  rw [Nat.shiftRight_eq_div_pow, show 0x3FF = 2 ^ 10 - 1 from rfl,
    Nat.and_two_pow_sub_one_eq_mod]

theorem and_pagePresent_eq_zero {x : ℕ} : x &&& pagePresent = 0 ↔ x.testBit 0 = false := by
  rw [pagePresent, Nat.and_one_is_mod, Nat.testBit_zero]
  simp

theorem or_present_write_user (t : ℕ) : t ||| pagePresent ||| pageWrite ||| pageUser = t ||| 7 := by
  rw [Nat.or_assoc, Nat.or_assoc]
  rfl

theorem or_present_write (t : ℕ) : t ||| pagePresent ||| pageWrite = t ||| 3 := by
  rw [Nat.or_assoc]
  rfl

theorem mkPte_lt (phys flags : ℕ) : mkPte phys flags < 2 ^ 32 := entry_lt phys flags

theorem mkPte_present (phys flags : ℕ) : (mkPte phys flags).testBit 0 = true := by
  simp [mkPte, pagePresent]

/-- The other flag bits of an entry are those it was built from. -/
theorem mkPte_testBit (phys flags : ℕ) {j : ℕ} (hpos : 0 < j) (hj : j < 12) :
    (mkPte phys flags).testBit j = flags.testBit j := by
  have hmask : Nat.testBit pageMask j = false := by
    rw [show pageMask = 2 ^ 12 * 0xFFFFF from rfl, Nat.testBit_two_pow_mul]
    simp [show ¬12 ≤ j by omega]
  have hlow : Nat.testBit 0xFFF j = true := by
    rw [show 0xFFF = 2 ^ 12 - 1 from rfl, Nat.testBit_two_pow_sub_one]
    simp [hj]
  have hone : Nat.testBit 1 j = false := Nat.testBit_lt_two_pow (Nat.one_lt_two_pow hpos.ne')
  simp [mkPte, pagePresent, Nat.testBit_or, Nat.testBit_and, hmask, hlow, hone]

variable {m : Mem} {d t page : ℕ}

/-- The walk through a present directory entry. -/
theorem pteOf_of_present {g : ℕ} (ht : IsFrame t) (hpde : word m d (page / 1024) = t ||| g)
    (hg : g < 4096) (hg0 : g.testBit 0 = true) : pteOf m d page =
      if (word m t (page % 1024)).testBit 0 then some (t ||| g, word m t (page % 1024))
      else none := by
  simp only [pteOf, hpde, testBit_frame_or ht (by decide : 0 < 12), hg0, ↓reduceIte,
    frame_or_and_frameMask ht hg]

theorem pteOf_of_absent (hpde : word m d (page / 1024) = 0) : pteOf m d page = none := by
  simp [pteOf, hpde]

/-! ## The system -/

/-- The memory manager with the user directories and the page tables it has created. -/
structure VmmSystem where
  /-- Memory and control registers. -/
  vmm : VmmState
  /-- The user directories that were created. -/
  dirs : Finset ℕ
  /-- The tables that calls of `vmm_map_page` have added. -/
  tables : Finset ℕ

/-- The frames of the static tables. -/
def VmmLayout.frames (l : VmmLayout) : Finset ℕ := {l.kernelDir, l.identityPt0, l.identityPt1}

/-- A frame that `pmm_alloc_page` may return: aligned, not `NULL` and not in use. -/
def VmmSystem.Fresh (s : VmmSystem) (l : VmmLayout) (frame : ℕ) : Prop :=
  frame ≠ 0 ∧ IsFrame frame ∧ frame ∉ l.frames ∧ frame ∉ s.dirs ∧ frame ∉ s.tables

/-- A call on user directories, with the frame `pmm_alloc_page` returned. A mapping also records
whether it succeeded. -/
inductive VmmOp
  | createUserDirectory (frame : ℕ)
  | mapPage (dir : ℕ) (virt phys flags : UInt32) (frame : ℕ) (ok : Bool)
  | unmapPage (dir : ℕ) (virt : UInt32)
deriving DecidableEq

/-- `vmm_map_page` has to create a page table. -/
def NeedsTable (s : VmmState) (dir virt : ℕ) : Prop :=
  word s.mem dir (vmmDirIdx virt) &&& pagePresent = 0

instance (s : VmmState) (dir virt : ℕ) : Decidable (NeedsTable s dir virt) := by
  unfold NeedsTable
  infer_instance

/-- The call is made on a user directory, the allocator returned `NULL` or a fresh frame, and the
recorded outcome is the real one. -/
def VmmOp.Legal (l : VmmLayout) (s : VmmSystem) : VmmOp → Prop
  | .createUserDirectory frame => frame = 0 ∨ s.Fresh l frame
  | .mapPage dir virt _ _ frame ok => dir ∈ s.dirs ∧ (frame = 0 ∨ s.Fresh l frame) ∧
    (ok = false ↔ NeedsTable s.vmm dir virt.toNat ∧ frame = 0)
  | .unmapPage dir _ => dir ∈ s.dirs

/-- The effect of a call. -/
def VmmOp.exec (l : VmmLayout) (s : VmmSystem) : VmmOp → VmmSystem
  | .createUserDirectory frame =>
    { s with
      vmm := (vmmCreateUserDirectory l s.vmm frame).2
      dirs := if frame = 0 then s.dirs else insert frame s.dirs }
  | .mapPage dir virt phys flags frame _ =>
    { s with
      vmm := vmmMapPage s.vmm dir virt.toNat phys.toNat flags.toNat frame
      -- The frame becomes a table if the directory has none for this address.
      tables := if NeedsTable s.vmm dir virt.toNat ∧ frame ≠ 0 then insert frame s.tables
        else s.tables }
  | .unmapPage dir virt => { s with vmm := vmmUnmapPage s.vmm dir virt.toNat }

/-- One legal call. -/
def VmmStep (l : VmmLayout) (s : VmmSystem) (op : VmmOp) (t : VmmSystem) : Prop :=
  op.Legal l s ∧ t = op.exec l s

/-- The system after `vmm_init`, before any user directory exists. -/
def vmmBoot (l : VmmLayout) (s : VmmState) : VmmSystem := ⟨vmmInit l s, ∅, ∅⟩

/-! ## The aliasing invariant -/

/-- The tables of the identity region. -/
def VmmLayout.lowTable (l : VmmLayout) (i : ℕ) : ℕ :=
  if i = 0 then l.identityPt0 else l.identityPt1

/-- The entries of the kernel directory. -/
def VmmLayout.kernelPde (l : VmmLayout) (i : ℕ) : ℕ := if i < 2 then l.lowTable i ||| 3 else 0

/-- Directories and tables are separate frames; the kernel directory is as `vmm_init` left it;
user directories share its first two entries, and each of their other entries is empty or leads
to a table that no other entry leads to. -/
structure VmmInv (l : VmmLayout) (s : VmmSystem) : Prop where
  /-- The failed creation, which returns `NULL`, is no directory. -/
  zero_not_mem : 0 ∉ s.dirs
  /-- A directory is a frame of its own. -/
  dirs_frame : ∀ d ∈ s.dirs, IsFrame d ∧ d ∉ l.frames ∧ d ∉ s.tables
  /-- A table is a frame of its own. -/
  tables_frame : ∀ t ∈ s.tables, IsFrame t ∧ t ∉ l.frames
  /-- The kernel directory is as `vmm_init` has left it. -/
  kernel_entry : ∀ i < 1024, word s.vmm.mem l.kernelDir i = l.kernelPde i
  /-- A user directory has the kernel's entries for the first 8 MB. -/
  low_entry : ∀ d ∈ s.dirs, ∀ i < 2, word s.vmm.mem d i = l.kernelPde i
  /-- Its other entries are empty, or lead to a table. -/
  high_entry : ∀ d ∈ s.dirs, ∀ i < 1024, 2 ≤ i →
    word s.vmm.mem d i = 0 ∨ ∃ t ∈ s.tables, word s.vmm.mem d i = t ||| 7
  /-- No two entries above 8 MB lead to the same table. -/
  unshared : ∀ d ∈ s.dirs, ∀ d' ∈ s.dirs, ∀ i < 1024, ∀ i' < 1024, 2 ≤ i → 2 ≤ i' →
    ∀ t ∈ s.tables, word s.vmm.mem d i = t ||| 7 → word s.vmm.mem d' i' = t ||| 7 →
      d = d' ∧ i = i'

theorem VmmLayout.mem_frames {l : VmmLayout} :
    t ∈ l.frames ↔ t = l.kernelDir ∨ t = l.identityPt0 ∨ t = l.identityPt1 := by
  simp [VmmLayout.frames]

/-- `vmm_init` establishes the invariant. -/
theorem vmmInv_vmmBoot (l : VmmLayout) (s : VmmState) : VmmInv l (vmmBoot l s) := by
  refine ⟨by simp [vmmBoot], by simp [vmmBoot], by simp [vmmBoot], fun i hi => ?_,
    by simp [vmmBoot], by simp [vmmBoot], by simp [vmmBoot]⟩
  have hd := l.isFrame_dir.1
  have h0 : l.identityPt0 ||| 3 < 2 ^ 32 := frame_or_lt l.isFrame_pt0 (by decide)
  have h1 : l.identityPt1 ||| 3 < 2 ^ 32 := frame_or_lt l.isFrame_pt1 (by decide)
  simp only [vmmBoot, vmmInit, vmmSwitchDirectory, or_present_write]
  rw [word_setWord hd hd (by decide) hi h1, word_setWord hd hd (by decide) hi h0,
    word_fillWords hd hd le_rfl hi (by simp)]
  simp only [true_and, hi, ↓reduceIte, VmmLayout.kernelPde, VmmLayout.lowTable]
  split_ifs <;> first | rfl | omega

theorem VmmLayout.isFrame_lowTable (l : VmmLayout) (i : ℕ) : IsFrame (l.lowTable i) := by
  unfold lowTable
  split
  exacts [l.isFrame_pt0, l.isFrame_pt1]

theorem VmmLayout.lowTable_mem_frames (l : VmmLayout) (i : ℕ) : l.lowTable i ∈ l.frames := by
  unfold lowTable
  split <;> simp [mem_frames]

theorem VmmLayout.lowTable_ne_kernelDir (l : VmmLayout) (i : ℕ) : l.lowTable i ≠ l.kernelDir := by
  unfold lowTable
  split
  exacts [l.dir_ne_pt0.symm, l.dir_ne_pt1.symm]

section Invariant

variable {l : VmmLayout} {s s' : VmmSystem} {i j v virt phys flags frame : ℕ}

theorem or_seven_ne_zero (t : ℕ) : t ||| 7 ≠ 0 := by
  intro h
  have := congrArg (Nat.testBit · 0) h
  simp at this

theorem or_seven_inj {t' : ℕ} (ht : IsFrame t) (ht' : IsFrame t') (h : t ||| 7 = t' ||| 7) :
    t = t' := by
  rw [← frame_or_and_frameMask ht (by decide : 7 < 4096), h,
    frame_or_and_frameMask ht' (by decide)]

/-- Entry `i` of directory `d` leads to the table `t` with flags `g`. The table is no directory,
and no other entry above the identity region leads to it. -/
structure LeadsTo (l : VmmLayout) (s : VmmSystem) (d i t g : ℕ) : Prop where
  /-- The directory entry. -/
  pde : word s.vmm.mem d i = t ||| g
  /-- The table is aligned. -/
  isFrame : IsFrame t
  /-- The flags are below the address. -/
  flags_lt : g < 4096
  /-- The entry is present. -/
  present : g.testBit 0 = true
  /-- The table is not the kernel directory. -/
  ne_kernelDir : t ≠ l.kernelDir
  /-- The table is no user directory. -/
  not_dir : t ∉ s.dirs
  /-- Below 8 MB it is one of the static tables. -/
  low : i < 2 → t = l.lowTable i
  /-- Above 8 MB it is a table that was added. -/
  high : 2 ≤ i → t ∈ s.tables
  /-- No other entry above 8 MB leads to it. -/
  only : ∀ d' ∈ s.dirs, ∀ i' < 1024, 2 ≤ i' → word s.vmm.mem d' i' = t ||| 7 → d' = d ∧ i' = i

/-- An entry of a user directory is empty or leads to a table. -/
theorem VmmInv.leadsTo (hi : VmmInv l s) (hd : d ∈ s.dirs) (hlt : i < 1024) :
    (2 ≤ i ∧ word s.vmm.mem d i = 0) ∨ ∃ t g, LeadsTo l s d i t g := by
  rcases Nat.lt_or_ge i 2 with h2 | h2
  · -- Below 8 MB it is one of the static tables, which no other kind of entry can hold.
    have hpde := hi.low_entry d hd i h2
    rw [VmmLayout.kernelPde, if_pos h2] at hpde
    have hframe := l.isFrame_lowTable i
    have hmem := l.lowTable_mem_frames i
    refine .inr ⟨_, 3, ⟨hpde, hframe, by decide, by decide, l.lowTable_ne_kernelDir i,
      fun h => (hi.dirs_frame _ h).2.1 hmem, fun _ => rfl, fun h => absurd h2 (by omega), ?_⟩⟩
    intro d' hd' i' hlt' h2' hpde'
    rcases hi.high_entry d' hd' i' hlt' h2' with h0 | ⟨t, ht, hpt⟩
    · exact absurd (h0.symm.trans hpde') (or_seven_ne_zero _).symm
    · have heq := or_seven_inj (hi.tables_frame t ht).1 hframe (hpt.symm.trans hpde')
      exact absurd (heq ▸ hmem) (hi.tables_frame t ht).2
  · rcases hi.high_entry d hd i hlt h2 with h0 | ⟨t, ht, hpt⟩
    · exact .inl ⟨h2, h0⟩
    · obtain ⟨hframe, hnot⟩ := hi.tables_frame t ht
      refine .inr ⟨t, 7, ⟨hpt, hframe, by decide, by decide, ?_,
        fun h => (hi.dirs_frame t h).2.2 ht, fun h => absurd h (by omega), fun _ => ht,
        fun d' hd' i' hlt' h2' hpde' =>
          hi.unshared d' hd' d hd i' hlt' i hlt h2' h2 t ht hpde' hpt⟩⟩
      rintro rfl
      exact hnot (VmmLayout.mem_frames.mpr (.inl rfl))

/-- The invariant speaks about the words of the directories only. -/
theorem VmmInv.congr (hi : VmmInv l s) (hdirs : s'.dirs = s.dirs) (htables : s'.tables = s.tables)
    (hword : ∀ d, d = l.kernelDir ∨ d ∈ s.dirs → ∀ i < 1024,
      word s'.vmm.mem d i = word s.vmm.mem d i) : VmmInv l s' := by
  refine ⟨hdirs ▸ hi.zero_not_mem, ?_, ?_, fun i hlt => ?_, ?_, ?_, ?_⟩
  · rw [hdirs, htables]
    exact hi.dirs_frame
  · rw [htables]
    exact hi.tables_frame
  · rw [hword _ (.inl rfl) i hlt]
    exact hi.kernel_entry i hlt
  · rw [hdirs]
    intro d hd i h2
    rw [hword d (.inr hd) i (by omega)]
    exact hi.low_entry d hd i h2
  · rw [hdirs, htables]
    intro d hd i hlt h2
    rw [hword d (.inr hd) i hlt]
    exact hi.high_entry d hd i hlt h2
  · rw [hdirs, htables]
    intro d hd d' hd' i hlt i' hlt' h2 h2'
    rw [hword d (.inr hd) i hlt, hword d' (.inr hd') i' hlt']
    exact hi.unshared d hd d' hd' i hlt i' hlt' h2 h2'

/-! ## The effect of the calls on the entries -/

/-- An entry with the present flag passes the test of the code. -/
theorem frame_or_and_pagePresent_ne_zero {g : ℕ} (ht : IsFrame t) (hg0 : g.testBit 0 = true) :
    ¬(t ||| g) &&& pagePresent = 0 := by
  rw [and_pagePresent_eq_zero, testBit_frame_or ht (by decide), hg0]
  simp

/-- With a table there, `vmm_map_page` writes one entry. -/
theorem vmmMapPage_of_present {s : VmmState} {g : ℕ} (ht : IsFrame t)
    (hpde : word s.mem d (vmmDirIdx virt) = t ||| g) (hg : g < 4096) (hg0 : g.testBit 0 = true) :
    vmmMapPage s d virt phys flags frame =
      { s with mem := setWord s.mem t (vmmTblIdx virt) (mkPte phys flags) } := by
  simp only [vmmMapPage, hpde, if_neg (frame_or_and_pagePresent_ne_zero ht hg0), pageMask,
    frame_or_and_frameMask ht hg]

/-- With a table there, `vmm_unmap_page` clears one entry. -/
theorem vmmUnmapPage_of_present {s : VmmState} {g : ℕ} (ht : IsFrame t)
    (hpde : word s.mem d (vmmDirIdx virt) = t ||| g) (hg : g < 4096) (hg0 : g.testBit 0 = true) :
    vmmUnmapPage s d virt = { s with mem := setWord s.mem t (vmmTblIdx virt) 0 } := by
  simp only [vmmUnmapPage, hpde, if_neg (frame_or_and_pagePresent_ne_zero ht hg0), pageMask,
    frame_or_and_frameMask ht hg]

/-- The words after `vmm_map_page` created a page table in a fresh frame. -/
theorem word_vmmMapPage_of_absent {s : VmmState} {di : ℕ} (hf : IsFrame frame) (hf0 : frame ≠ 0)
    (hd : IsFrame d) (hne : d ≠ frame) (hdi : vmmDirIdx virt = di) (hlt : di < 1024)
    (hpde : word s.mem d di = 0) (ht : IsFrame t) (hj : j < 1024) :
    word (vmmMapPage s d virt phys flags frame).mem t j =
      if t = frame then (if j = vmmTblIdx virt then mkPte phys flags else 0)
      else if t = d ∧ j = di then frame ||| 7 else word s.mem t j := by
  have hti : vmmTblIdx virt < 1024 := by
    rw [vmmTblIdx_eq]
    exact Nat.mod_lt _ (by decide)
  simp only [vmmMapPage, hdi, hpde, Nat.zero_and, ↓reduceIte, if_neg hf0, or_present_write_user]
  rw [word_setWord hf.1 ht.1 hti hj (mkPte_lt _ _),
    word_setWord hd.1 ht.1 hlt hj (frame_or_lt hf (by decide)),
    word_fillWords hf.1 ht.1 le_rfl hj (by simp)]
  by_cases htf : t = frame
  · simp [htf, hj, hne.symm]
  · simp [htf]

/-- Writing a table entry keeps the invariant. -/
theorem VmmInv.setWord (hi : VmmInv l s) (hdirs : s'.dirs = s.dirs)
    (htables : s'.tables = s.tables) (ht : IsFrame t) (hk : t ≠ l.kernelDir) (hnd : t ∉ s.dirs)
    (hj : j < 1024) (hv : v < 2 ^ 32)
    (hmem : s'.vmm.mem = Paging.setWord s.vmm.mem t j v) : VmmInv l s' := by
  refine hi.congr hdirs htables fun d hd i hlt => ?_
  have hdt : d ≠ t := by
    rintro rfl
    exact hd.elim hk hnd
  have hframe : IsFrame d := by
    rcases hd with rfl | hd
    exacts [l.isFrame_dir, (hi.dirs_frame d hd).1]
  rw [hmem, word_setWord ht.1 hframe.1 hj hlt hv, if_neg (fun h => hdt h.1)]

/-- A new directory holds the entries of the kernel directory. -/
theorem word_createUserDirectory (hi : VmmInv l s) (hf : s.Fresh l frame) (ht : IsFrame t)
    (hj : j < 1024) : word ((VmmOp.createUserDirectory frame).exec l s).vmm.mem t j =
      if t = frame then l.kernelPde j else word s.vmm.mem t j := by
  simp only [VmmOp.exec, vmmCreateUserDirectory, if_neg hf.1]
  rw [word_copyWords hf.2.1.1 ht.1 l.isFrame_dir.1 le_rfl hj, hi.kernel_entry j hj]
  simp [hj]

/-- Creating a directory keeps the invariant. -/
theorem VmmInv.createUserDirectory (hi : VmmInv l s) (hf : s.Fresh l frame) :
    VmmInv l ((VmmOp.createUserDirectory frame).exec l s) := by
  have hword : ∀ t, IsFrame t → ∀ j < 1024, _ := fun t ht j hj =>
    word_createUserDirectory hi hf ht hj
  obtain ⟨hf0, hframe, hfl, hfd, hft⟩ := hf
  have hk : l.kernelDir ≠ frame := fun h => hfl (VmmLayout.mem_frames.mpr (.inl h.symm))
  have hdirs : ((VmmOp.createUserDirectory frame).exec l s).dirs = insert frame s.dirs := by
    simp only [VmmOp.exec, if_neg hf0]
  have hold : ∀ d ∈ s.dirs, ∀ j < 1024,
      word ((VmmOp.createUserDirectory frame).exec l s).vmm.mem d j = word s.vmm.mem d j := by
    intro d hd j hj
    rw [hword d (hi.dirs_frame d hd).1 j hj, if_neg (fun h : d = frame => hfd (h ▸ hd))]
  refine ⟨?_, ?_, hi.tables_frame, fun i hlt => ?_, ?_, ?_, ?_⟩
  · rw [hdirs, Finset.mem_insert]
    exact fun h => h.elim (fun h0 => hf0 h0.symm) hi.zero_not_mem
  · rw [hdirs]
    exact Finset.forall_mem_insert _ _ _ |>.mpr ⟨⟨hframe, hfl, hft⟩, hi.dirs_frame⟩
  · rw [hword _ l.isFrame_dir i hlt, if_neg hk, hi.kernel_entry i hlt]
  · rw [hdirs]
    refine (Finset.forall_mem_insert _ _ _).mpr ⟨fun i h2 => ?_, fun d hd i h2 => ?_⟩
    · rw [hword _ hframe i (by omega), if_pos rfl]
    · rw [hold d hd i (by omega)]
      exact hi.low_entry d hd i h2
  · rw [hdirs]
    refine (Finset.forall_mem_insert _ _ _).mpr ⟨fun i hlt h2 => .inl ?_, fun d hd i hlt => ?_⟩
    · rw [hword _ hframe i hlt, if_pos rfl, VmmLayout.kernelPde, if_neg (by omega)]
    · rw [hold d hd i hlt]
      exact hi.high_entry d hd i hlt
  · -- The new directory has no tables of its own, so it shares none.
    have hnew : ∀ i < 1024, 2 ≤ i → ∀ t,
        word ((VmmOp.createUserDirectory frame).exec l s).vmm.mem frame i ≠ t ||| 7 := by
      intro i hlt h2 t
      rw [hword _ hframe i hlt, if_pos rfl, VmmLayout.kernelPde, if_neg (by omega)]
      exact (or_seven_ne_zero t).symm
    rw [hdirs]
    intro d hd d' hd' i hlt i' hlt' h2 h2' t ht hp hp'
    rcases Finset.mem_insert.mp hd with rfl | hd
    · exact absurd hp (hnew i hlt h2 t)
    rcases Finset.mem_insert.mp hd' with rfl | hd'
    · exact absurd hp' (hnew i' hlt' h2' t)
    rw [hold d hd i hlt] at hp
    rw [hold d' hd' i' hlt'] at hp'
    exact hi.unshared d hd d' hd' i hlt i' hlt' h2 h2' t ht hp hp'

/-- No entry leads to a frame that is not in use. -/
theorem VmmInv.entry_ne_fresh (hi : VmmInv l s) (hf : s.Fresh l frame) (hd : d ∈ s.dirs)
    (hj : j < 1024) (h2 : 2 ≤ j) : word s.vmm.mem d j ≠ frame ||| 7 := by
  intro h
  rcases hi.high_entry d hd j hj h2 with h0 | ⟨t, ht, hpt⟩
  · exact or_seven_ne_zero _ (h.symm.trans h0)
  · exact hf.2.2.2.2 (or_seven_inj (hi.tables_frame t ht).1 hf.2.1 (hpt.symm.trans h) ▸ ht)

/-- With one entry that leads to a table in a fresh frame, still no table has two entries. -/
theorem VmmInv.unshared_newTable (hi : VmmInv l s) (hf : s.Fresh l frame) {w : ℕ → ℕ → ℕ}
    (hw : ∀ d' ∈ s.dirs, ∀ j < 1024,
      w d' j = if d' = d ∧ j = i then frame ||| 7 else word s.vmm.mem d' j) :
    ∀ d₁ ∈ s.dirs, ∀ d₂ ∈ s.dirs, ∀ j₁ < 1024, ∀ j₂ < 1024, 2 ≤ j₁ → 2 ≤ j₂ →
      ∀ t ∈ insert frame s.tables, w d₁ j₁ = t ||| 7 → w d₂ j₂ = t ||| 7 → d₁ = d₂ ∧ j₁ = j₂ := by
  intro d₁ hd₁ d₂ hd₂ j₁ hj₁ j₂ hj₂ h2₁ h2₂ t ht hp₁ hp₂
  rw [hw d₁ hd₁ j₁ hj₁] at hp₁
  rw [hw d₂ hd₂ j₂ hj₂] at hp₂
  rcases Finset.mem_insert.mp ht with rfl | htold
  · -- Both entries lead to the new table, so that both are the entry that was written.
    have hboth : ∀ d' ∈ s.dirs, ∀ j < 1024, 2 ≤ j →
        (if d' = d ∧ j = i then t ||| 7 else word s.vmm.mem d' j) = t ||| 7 →
        d' = d ∧ j = i := by
      intro d' hd' j hj hj2 hp
      by_contra hc
      rw [if_neg hc] at hp
      exact hi.entry_ne_fresh hf hd' hj hj2 hp
    obtain ⟨rfl, rfl⟩ := hboth d₁ hd₁ j₁ hj₁ h2₁ hp₁
    obtain ⟨rfl, rfl⟩ := hboth d₂ hd₂ j₂ hj₂ h2₂ hp₂
    exact ⟨rfl, rfl⟩
  · -- Both lead to an old table, so that neither is.
    have htf : frame ||| 7 ≠ t ||| 7 := fun h =>
      hf.2.2.2.2 (or_seven_inj hf.2.1 (hi.tables_frame t htold).1 h ▸ htold)
    have hc₁ : ¬(d₁ = d ∧ j₁ = i) := fun h => htf (by rwa [if_pos h] at hp₁)
    have hc₂ : ¬(d₂ = d ∧ j₂ = i) := fun h => htf (by rwa [if_pos h] at hp₂)
    rw [if_neg hc₁] at hp₁
    rw [if_neg hc₂] at hp₂
    exact hi.unshared d₁ hd₁ d₂ hd₂ j₁ hj₁ j₂ hj₂ h2₁ h2₂ t htold hp₁ hp₂

/-- Creating a page table in a fresh frame keeps the invariant. -/
theorem VmmInv.newTable (hi : VmmInv l s) (hd : d ∈ s.dirs) (hf : s.Fresh l frame) (h2 : 2 ≤ i)
    (hlt : i < 1024) (hdi : vmmDirIdx virt = i) (hpde : word s.vmm.mem d i = 0)
    (hvmm : s'.vmm = vmmMapPage s.vmm d virt phys flags frame) (hdirs : s'.dirs = s.dirs)
    (htables : s'.tables = insert frame s.tables) : VmmInv l s' := by
  have hfresh := hf
  obtain ⟨hf0, hframe, hfl, hfd, -⟩ := hf
  have hdf : ∀ d ∈ s.dirs, d ≠ frame := fun d hd h => hfd (h ▸ hd)
  have hword : ∀ t, IsFrame t → t ≠ frame → ∀ j < 1024, word s'.vmm.mem t j =
      if t = d ∧ j = i then frame ||| 7 else word s.vmm.mem t j := by
    intro t ht htf j hj
    rw [hvmm, word_vmmMapPage_of_absent hframe hf0 (hi.dirs_frame d hd).1 (hdf d hd) hdi hlt hpde
      ht hj, if_neg htf]
  -- A directory changes in the one entry that now leads to the new table.
  have hold : ∀ d' ∈ s.dirs, ∀ j < 1024, word s'.vmm.mem d' j =
      if d' = d ∧ j = i then frame ||| 7 else word s.vmm.mem d' j :=
    fun d' hd' => hword d' (hi.dirs_frame d' hd').1 (hdf d' hd')
  refine ⟨hdirs ▸ hi.zero_not_mem, ?_, ?_, fun j hj => ?_, ?_, ?_, ?_⟩
  · rw [hdirs, htables]
    intro d' hd'
    obtain ⟨h1, h2, h3⟩ := hi.dirs_frame d' hd'
    exact ⟨h1, h2, by simp [hdf d' hd', h3]⟩
  · rw [htables]
    exact (Finset.forall_mem_insert _ _ _).mpr ⟨⟨hframe, hfl⟩, hi.tables_frame⟩
  · have hk : l.kernelDir ≠ frame := fun h => hfl (VmmLayout.mem_frames.mpr (.inl h.symm))
    have hkd : l.kernelDir ≠ d := fun h =>
      (hi.dirs_frame d hd).2.1 (VmmLayout.mem_frames.mpr (.inl h.symm))
    rw [hword _ l.isFrame_dir hk j hj, if_neg (fun h => hkd h.1), hi.kernel_entry j hj]
  · rw [hdirs]
    intro d' hd' j hj
    rw [hold d' hd' j (by omega), if_neg (by omega)]
    exact hi.low_entry d' hd' j hj
  · rw [hdirs, htables]
    intro d' hd' j hj hj2
    rw [hold d' hd' j hj]
    split
    · exact .inr ⟨frame, Finset.mem_insert_self _ _, rfl⟩
    · rcases hi.high_entry d' hd' j hj hj2 with h | ⟨t, ht, h⟩
      exacts [.inl h, .inr ⟨t, Finset.mem_insert_of_mem ht, h⟩]
  · rw [hdirs, htables]
    exact hi.unshared_newTable hfresh hold

theorem vmmDirIdx_lt (virt : ℕ) : vmmDirIdx virt < 1024 := by
  unfold vmmDirIdx
  exact lt_of_le_of_lt Nat.and_le_right (by decide)

theorem vmmTblIdx_lt (virt : ℕ) : vmmTblIdx virt < 1024 := by
  unfold vmmTblIdx
  exact lt_of_le_of_lt Nat.and_le_right (by decide)

/-- With a table there no new one is needed. -/
theorem LeadsTo.not_needsTable {dir g : ℕ} (h : LeadsTo l s dir (vmmDirIdx virt) t g) :
    ¬NeedsTable s.vmm dir virt := by
  rw [NeedsTable, h.pde]
  exact frame_or_and_pagePresent_ne_zero h.isFrame h.present

/-- What a mapping does to the system: nothing when it needs a table and there is no frame, a new
table when it needs one, and otherwise one entry of the table its directory entry leads to. -/
theorem mapPage_cases (hi : VmmInv l s) {dir : ℕ} {virt phys flags : UInt32} {ok : Bool}
    (hlegal : (VmmOp.mapPage dir virt phys flags frame ok).Legal l s) :
    let i := vmmDirIdx virt.toNat
    let s' := (VmmOp.mapPage dir virt phys flags frame ok).exec l s
    (ok = false ∧ 2 ≤ i ∧ s'.vmm.mem = s.vmm.mem ∧ s'.tables = s.tables) ∨
    (ok = true ∧ 2 ≤ i ∧ word s.vmm.mem dir i = 0 ∧ s.Fresh l frame ∧
      s'.tables = insert frame s.tables) ∨
    (ok = true ∧ ∃ t g, LeadsTo l s dir i t g ∧ s'.tables = s.tables ∧
      s'.vmm.mem = Paging.setWord s.vmm.mem t (vmmTblIdx virt.toNat)
        (mkPte phys.toNat flags.toNat)) := by
  obtain ⟨hdir, hframe, hok⟩ := hlegal
  intro i s'
  rcases hi.leadsTo hdir (vmmDirIdx_lt virt.toNat) with ⟨h2, h0⟩ | ⟨t, g, hleads⟩
  · -- The directory entry is empty: the outcome depends on the frame.
    have hneeds : NeedsTable s.vmm dir virt.toNat := by
      rw [NeedsTable, h0, Nat.zero_and]
    rcases hframe with hf0 | hfresh
    · refine .inl ⟨hok.mpr ⟨hneeds, hf0⟩, h2, ?_, ?_⟩
      · simp only [s', VmmOp.exec, vmmMapPage, h0, Nat.zero_and, ↓reduceIte, hf0]
      · simp only [s', VmmOp.exec, hf0, ne_eq, not_true_eq_false, and_false, ↓reduceIte]
    · have hf0 := hfresh.1
      refine .inr (.inl ⟨?_, h2, h0, hfresh, ?_⟩)
      · cases ok
        · exact absurd (hok.mp rfl).2 hf0
        · rfl
      · simp only [s', VmmOp.exec, if_pos (And.intro hneeds hf0)]
  · have hno := hleads.not_needsTable
    refine .inr (.inr ⟨?_, t, g, hleads, ?_, ?_⟩)
    · cases ok
      · exact absurd (hok.mp rfl).1 hno
      · rfl
    · simp only [s', VmmOp.exec, if_neg (fun h : _ ∧ _ => hno h.1)]
    · simp only [s', VmmOp.exec]
      rw [vmmMapPage_of_present hleads.isFrame hleads.pde hleads.flags_lt hleads.present]

/-- What the removal of a mapping does: nothing without a table, and otherwise one entry. -/
theorem unmapPage_cases (hi : VmmInv l s) {dir : ℕ} (hdir : dir ∈ s.dirs) (virt : UInt32) :
    let i := vmmDirIdx virt.toNat
    let s' := (VmmOp.unmapPage dir virt).exec l s
    (2 ≤ i ∧ word s.vmm.mem dir i = 0 ∧ s'.vmm.mem = s.vmm.mem) ∨
    ∃ t g, LeadsTo l s dir i t g ∧
      s'.vmm.mem = Paging.setWord s.vmm.mem t (vmmTblIdx virt.toNat) 0 := by
  intro i s'
  rcases hi.leadsTo hdir (vmmDirIdx_lt virt.toNat) with ⟨h2, h0⟩ | ⟨t, g, hleads⟩
  · refine .inl ⟨h2, h0, ?_⟩
    simp only [s', VmmOp.exec, vmmUnmapPage, h0, Nat.zero_and, ↓reduceIte]
  · refine .inr ⟨t, g, hleads, ?_⟩
    simp only [s', VmmOp.exec]
    rw [vmmUnmapPage_of_present hleads.isFrame hleads.pde hleads.flags_lt hleads.present]

/-- Every call keeps the invariant. -/
theorem VmmInv.step (hi : VmmInv l s) {op : VmmOp} (hstep : VmmStep l s op s') :
    VmmInv l s' := by
  obtain ⟨hlegal, rfl⟩ := hstep
  cases op with
  | createUserDirectory frame =>
    -- Without a frame nothing happens.
    rcases hlegal with rfl | hf
    · exact hi.congr rfl rfl fun _ _ _ _ => rfl
    · exact hi.createUserDirectory hf
  | mapPage dir virt phys flags frame ok =>
    -- It fails, makes a new table, or writes to a table that is there.
    rcases mapPage_cases hi hlegal with ⟨-, -, hmem, htables⟩ | ⟨-, h2, h0, hf, htables⟩ |
      ⟨-, t, g, hleads, htables, hmem⟩
    · exact hi.congr rfl htables fun _ _ _ _ => by rw [hmem]
    · exact hi.newTable hlegal.1 hf h2 (vmmDirIdx_lt _) rfl h0 rfl rfl htables
    · exact hi.setWord rfl htables hleads.isFrame hleads.ne_kernelDir hleads.not_dir
        (vmmTblIdx_lt _) (mkPte_lt _ _) hmem
  | unmapPage dir virt =>
    rcases unmapPage_cases hi hlegal virt with ⟨-, -, hmem⟩ | ⟨t, g, hleads, hmem⟩
    · exact hi.congr rfl rfl fun _ _ _ _ => by rw [hmem]
    · exact hi.setWord rfl rfl hleads.isFrame hleads.ne_kernelDir hleads.not_dir
        (vmmTblIdx_lt _) (by decide) hmem

/-! ## Translations above the identity region -/

/-- The table entry a walk ends at. -/
def pte (m : Mem) (d page : ℕ) : Option ℕ := (pteOf m d page).map Prod.snd

/-- An entry as a walk sees it. -/
def presentEntry (v : ℕ) : Option ℕ := if v.testBit 0 then some v else none

theorem presentEntry_mkPte (phys flags : ℕ) :
    presentEntry (mkPte phys flags) = some (mkPte phys flags) :=
  if_pos (mkPte_present phys flags)

/-- With a table there, the entry of a page is in this table. -/
theorem pte_of_present {g : ℕ} (ht : IsFrame t) (hpde : word m d (page / 1024) = t ||| g)
    (hg : g < 4096) (hg0 : g.testBit 0 = true) :
    pte m d page = presentEntry (word m t (page % 1024)) := by
  rw [pte, pteOf_of_present ht hpde hg hg0, presentEntry]
  split <;> rfl

theorem pte_of_absent (hpde : word m d (page / 1024) = 0) : pte m d page = none := by
  rw [pte, pteOf_of_absent hpde, Option.map_none]

/-- A page above the identity region. -/
def HighPage (page : ℕ) : Prop := 2048 ≤ page ∧ page < 2 ^ 20

theorem HighPage.dirIdx_lt (hp : HighPage page) : page / 1024 < 1024 := by
  unfold HighPage at hp
  omega

theorem HighPage.two_le_dirIdx (hp : HighPage page) : 2 ≤ page / 1024 := by
  unfold HighPage at hp
  omega

/-- A page keeps its table entry if its directory entry stays, and its entry in every table. -/
theorem VmmInv.pte_congr (hi : VmmInv l s) (hd : d ∈ s.dirs) (hp : HighPage page)
    (hpde : word m d (page / 1024) = word s.vmm.mem d (page / 1024))
    (htable : ∀ t ∈ s.tables, word m t (page % 1024) = word s.vmm.mem t (page % 1024)) :
    pte m d page = pte s.vmm.mem d page := by
  rcases hi.high_entry d hd _ hp.dirIdx_lt hp.two_le_dirIdx with h0 | ⟨t, ht, hpt⟩
  · rw [pte_of_absent (hpde.trans h0), pte_of_absent h0]
  · have hframe := (hi.tables_frame t ht).1
    rw [pte_of_present hframe (hpde.trans hpt) (by decide) (by decide),
      pte_of_present hframe hpt (by decide) (by decide), htable t ht]

/-- The entries a call goes through are those of its page. -/
theorem page_iff_indices {dir virt : ℕ} (hv : virt < 2 ^ 32) :
    (dir = d ∧ virt / 4096 = page) ↔
      (d = dir ∧ page / 1024 = vmmDirIdx virt ∧ page % 1024 = vmmTblIdx virt) := by
  rw [vmmDirIdx_eq hv, vmmTblIdx_eq]
  omega

/-- Writing to the table of one directory entry changes the pages of that entry only. -/
theorem pte_setWord (hi : VmmInv l s) {dir g : ℕ} (hleads : LeadsTo l s dir i t g)
    (hj : j < 1024) (hv : v < 2 ^ 32) (hd : d ∈ s.dirs) (hp : HighPage page) :
    pte (Paging.setWord s.vmm.mem t j v) d page =
      if d = dir ∧ page / 1024 = i ∧ page % 1024 = j then presentEntry v
      else pte s.vmm.mem d page := by
  have hlt := hp.dirIdx_lt
  have h2 := hp.two_le_dirIdx
  have hmod : page % 1024 < 1024 := Nat.mod_lt _ (by decide)
  have hdt : d ≠ t := fun h => hleads.not_dir (h ▸ hd)
  have hpde : word (Paging.setWord s.vmm.mem t j v) d (page / 1024) =
      word s.vmm.mem d (page / 1024) := by
    rw [word_setWord hleads.isFrame.1 (hi.dirs_frame d hd).1.1 hj hlt hv, if_neg fun h => hdt h.1]
  rcases hi.high_entry d hd _ hlt h2 with h0 | ⟨t', ht', hpt⟩
  · rw [pte_of_absent (hpde.trans h0), pte_of_absent h0, if_neg]
    rintro ⟨rfl, rfl, -⟩
    -- The entry that leads to the table is not empty.
    have hbit := congrArg (Nat.testBit · 0) (h0.symm.trans hleads.pde)
    simp only [testBit_frame_or hleads.isFrame (by decide : 0 < 12), hleads.present] at hbit
    simp at hbit
  · have hframe' := (hi.tables_frame t' ht').1
    rw [pte_of_present hframe' (hpde.trans hpt) (by decide) (by decide),
      pte_of_present hframe' hpt (by decide) (by decide),
      word_setWord hleads.isFrame.1 hframe'.1 hj hmod hv]
    have hiff : (t' = t ∧ page % 1024 = j) ↔ (d = dir ∧ page / 1024 = i ∧ page % 1024 = j) := by
      constructor
      · rintro ⟨rfl, hpj⟩
        obtain ⟨hdd, hii⟩ := hleads.only d hd _ hlt h2 hpt
        exact ⟨hdd, hii, hpj⟩
      · rintro ⟨rfl, rfl, hpj⟩
        refine ⟨?_, hpj⟩
        rw [← frame_or_and_frameMask hframe' (by decide : 7 < 4096), ← hpt, hleads.pde,
          frame_or_and_frameMask hleads.isFrame hleads.flags_lt]
    simp only [hiff]
    split <;> rfl

/-- A new page table maps one page of its directory entry. -/
theorem pte_newTable (hi : VmmInv l s) {dir : ℕ} (hdir : dir ∈ s.dirs) (hf : s.Fresh l frame)
    (hpde : word s.vmm.mem dir (vmmDirIdx virt) = 0) (hd : d ∈ s.dirs) (hp : HighPage page) :
    pte (vmmMapPage s.vmm dir virt phys flags frame).mem d page =
      if d = dir ∧ page / 1024 = vmmDirIdx virt ∧ page % 1024 = vmmTblIdx virt then
        some (mkPte phys flags)
      else pte s.vmm.mem d page := by
  obtain ⟨hf0, hframe, -, hfd, hft⟩ := hf
  have hmod : page % 1024 < 1024 := Nat.mod_lt _ (by decide)
  have hdirf : dir ≠ frame := fun h => hfd (h ▸ hdir)
  have hword : ∀ t, IsFrame t → ∀ j < 1024,
      word (vmmMapPage s.vmm dir virt phys flags frame).mem t j =
        if t = frame then (if j = vmmTblIdx virt then mkPte phys flags else 0)
        else if t = dir ∧ j = vmmDirIdx virt then frame ||| 7 else word s.vmm.mem t j :=
    fun t ht j hj => word_vmmMapPage_of_absent hframe hf0 (hi.dirs_frame dir hdir).1 hdirf rfl
      (vmmDirIdx_lt virt) hpde ht hj
  have hdf : d ≠ frame := fun h => hfd (h ▸ hd)
  have hpde' := hword d (hi.dirs_frame d hd).1 _ hp.dirIdx_lt
  rw [if_neg hdf] at hpde'
  by_cases hhere : d = dir ∧ page / 1024 = vmmDirIdx virt
  · obtain ⟨rfl, hdi⟩ := hhere
    rw [if_pos ⟨rfl, hdi⟩] at hpde'
    rw [pte_of_present hframe hpde' (by decide) (by decide), hword frame hframe _ hmod,
      if_pos rfl, pte_of_absent (hdi ▸ hpde)]
    by_cases hti : page % 1024 = vmmTblIdx virt
    · simp [hti, hdi, presentEntry_mkPte]
    · simp [hti, presentEntry]
  · rw [if_neg hhere] at hpde'
    rw [if_neg fun h => hhere ⟨h.1, h.2.1⟩]
    -- Pages of other entries: no old table is the new one or the directory.
    refine hi.pte_congr hd hp hpde' fun t ht => ?_
    have htf : t ≠ frame := fun h => hft (h ▸ ht)
    have htd : t ≠ dir := fun h => (hi.dirs_frame dir hdir).2.2 (h ▸ ht)
    rw [hword t (hi.tables_frame t ht).1 _ hmod, if_neg htf, if_neg fun h => htd h.1]

/-- A mapping that succeeds sets the entry of its page in its directory, and nothing else. -/
theorem pte_mapPage (hi : VmmInv l s) {dir : ℕ} {virt phys flags : UInt32} {ok : Bool}
    (hlegal : (VmmOp.mapPage dir virt phys flags frame ok).Legal l s) (hd : d ∈ s.dirs)
    (hp : HighPage page) :
    pte ((VmmOp.mapPage dir virt phys flags frame ok).exec l s).vmm.mem d page =
      if dir = d ∧ virt.toNat / 4096 = page ∧ ok then some (mkPte phys.toNat flags.toNat)
      else pte s.vmm.mem d page := by
  have hiff : (dir = d ∧ virt.toNat / 4096 = page) ↔ _ := page_iff_indices virt.toNat_lt
  rcases mapPage_cases hi hlegal with ⟨rfl, -, hmem, -⟩ | ⟨rfl, -, h0, hf, -⟩ |
    ⟨rfl, t, g, hleads, -, hmem⟩
  · simp [hmem]
  · rw [VmmOp.exec, pte_newTable hi hlegal.1 hf h0 hd hp]
    simp [hiff]
  · rw [hmem, pte_setWord hi hleads (vmmTblIdx_lt _) (mkPte_lt _ _) hd hp, presentEntry_mkPte]
    simp [← and_assoc, hiff]

/-- After `vmm_unmap_page` the page has no entry, and all others are as before. -/
theorem pte_unmapPage (hi : VmmInv l s) {dir : ℕ} (hdir : dir ∈ s.dirs) (virt : UInt32)
    (hd : d ∈ s.dirs) (hp : HighPage page) :
    pte ((VmmOp.unmapPage dir virt).exec l s).vmm.mem d page =
      if dir = d ∧ virt.toNat / 4096 = page then none else pte s.vmm.mem d page := by
  have hiff : (dir = d ∧ virt.toNat / 4096 = page) ↔ _ := page_iff_indices virt.toNat_lt
  rcases unmapPage_cases hi hdir virt with ⟨-, h0, hmem⟩ | ⟨t, g, hleads, hmem⟩
  · rw [hmem]
    split
    next h =>
      obtain ⟨rfl, hdi, -⟩ := hiff.mp h
      exact pte_of_absent (hdi ▸ h0)
    next => rfl
  · rw [hmem, pte_setWord hi hleads (vmmTblIdx_lt _) (by decide) hd hp]
    simp only [hiff, presentEntry]
    rfl

/-- A new directory maps no page above 8 MB, and all others are as before. -/
theorem pte_createUserDirectory (hi : VmmInv l s) (hf : frame = 0 ∨ s.Fresh l frame)
    (hd : d ∈ ((VmmOp.createUserDirectory frame).exec l s).dirs) (hp : HighPage page) :
    pte ((VmmOp.createUserDirectory frame).exec l s).vmm.mem d page =
      if frame = d then none else pte s.vmm.mem d page := by
  have hlt := hp.dirIdx_lt
  have h2 := hp.two_le_dirIdx
  have hmod : page % 1024 < 1024 := Nat.mod_lt _ (by decide)
  rcases hf with rfl | hf
  · have h0 : (0 : ℕ) ≠ d := fun h => hi.zero_not_mem (h ▸ hd)
    rw [if_neg h0]
    rfl
  · have hframe := hf.2.1
    by_cases hfd : frame = d
    · -- The new directory has the kernel's entries, which are empty above 8 MB.
      subst hfd
      rw [if_pos rfl]
      refine pte_of_absent ?_
      rw [word_createUserDirectory hi hf hframe hlt, if_pos rfl, VmmLayout.kernelPde,
        if_neg (by omega)]
    · have hold : d ∈ s.dirs := by
        simp only [VmmOp.exec, if_neg hf.1] at hd
        exact (Finset.mem_insert.mp hd).resolve_left (fun h => hfd h.symm)
      have hpde := word_createUserDirectory hi hf (hi.dirs_frame d hold).1 hlt
      rw [if_neg fun h => hfd h.symm] at hpde
      rw [if_neg hfd]
      refine hi.pte_congr hold hp hpde fun t ht => ?_
      rw [word_createUserDirectory hi hf (hi.tables_frame t ht).1 hmod,
        if_neg fun h : t = frame => hf.2.2.2.2 (h ▸ ht)]

end Invariant

/-! ## Whole runs -/

/-- What a call does to the mapping of page `page` in directory `d`. A directory starts without
mappings, and a mapping for which there was no frame has no effect. -/
def VmmOp.effect (d page : ℕ) (cur : Option (ℕ × ℕ)) : VmmOp → Option (ℕ × ℕ)
  | .createUserDirectory frame => if frame = d then none else cur
  | .mapPage dir virt phys flags _ ok =>
    if dir = d ∧ virt.toNat / 4096 = page ∧ ok then some (phys.toNat, flags.toNat) else cur
  | .unmapPage dir virt => if dir = d ∧ virt.toNat / 4096 = page then none else cur

/-- The physical address and flags of the last mapping of `page` in `d` that found a frame, unless
it was removed since. -/
def lastMapping (ops : List VmmOp) (d page : ℕ) : Option (ℕ × ℕ) :=
  ops.foldl (fun cur op => op.effect d page cur) none

/-- The table entries of pages above the identity region are those of the last mappings. -/
theorem pte_eq_lastMapping {l : VmmLayout} {s₀ : VmmState} {ops : List VmmOp} {s : VmmSystem}
    (hrun : Run (VmmStep l) (vmmBoot l s₀) ops s) :
    VmmInv l s ∧ ∀ d ∈ s.dirs, ∀ page, HighPage page →
      pte s.vmm.mem d page = (lastMapping ops d page).map fun e => mkPte e.1 e.2 := by
  refine hrun.invariant (fun ops s => VmmInv l s ∧ ∀ d ∈ s.dirs, ∀ page, HighPage page →
      pte s.vmm.mem d page = (lastMapping ops d page).map fun e => mkPte e.1 e.2)
    ⟨vmmInv_vmmBoot l s₀, by simp [vmmBoot]⟩ ?_
  rintro ops s op s' ⟨hi, hpte⟩ hstep
  refine ⟨hi.step hstep, fun d hd page hp => ?_⟩
  obtain ⟨hlegal, rfl⟩ := hstep
  rw [lastMapping, List.foldl_append, List.foldl_cons, List.foldl_nil, ← lastMapping]
  cases op with
  | createUserDirectory frame =>
    rw [pte_createUserDirectory hi hlegal hd hp, VmmOp.effect]
    split
    next => rfl
    next hne =>
      -- A directory other than the new one existed before.
      refine hpte d ?_ page hp
      simp only [VmmOp.exec] at hd
      split at hd
      next => exact hd
      next => exact (Finset.mem_insert.mp hd).resolve_left fun h => hne h.symm
  | mapPage dir virt phys flags frame ok =>
    rw [pte_mapPage hi hlegal hd hp, VmmOp.effect]
    split
    next => rfl
    next => exact hpte d hd page hp
  | unmapPage dir virt =>
    rw [pte_unmapPage hi hlegal virt hd hp, VmmOp.effect]
    split
    next => rfl
    next => exact hpte d hd page hp

/-- Page tables refine per-directory maps: after `vmm_init` and any calls on user directories, the
walk of a user directory at an address from 8 MB on yields the address and flags of the last
mapping of that page in that directory which found a frame, unless it was removed since, and is
not present otherwise. -/
theorem walk_eq_lastMapping_of_run {l : VmmLayout} {s₀ : VmmState} {ops : List VmmOp}
    {s : VmmSystem} (hrun : Run (VmmStep l) (vmmBoot l s₀) ops s) {d va : ℕ} (hd : d ∈ s.dirs)
    (hva : 8 * 1024 * 1024 ≤ va) (hlt : va < 2 ^ 32) :
    (walk s.vmm.mem d va).map (fun tr => (tr.phys, tr.flags)) =
      (lastMapping ops d (va / 4096)).map fun e =>
        ((e.1 &&& pageMask) ||| (va &&& 0xFFF), (e.2 &&& 0xFFF) ||| pagePresent) := by
  have hp : HighPage (va / 4096) := ⟨by omega, by omega⟩
  have hpte := (pte_eq_lastMapping hrun).2 d hd _ hp
  -- The address and the flags of a walk are those of the last entry.
  have hwalk : (walk s.vmm.mem d va).map (fun tr => (tr.phys, tr.flags)) =
      (pte s.vmm.mem d (va / 4096)).map fun e =>
        ((e &&& frameMask) ||| (va &&& 0xFFF), e &&& 0xFFF) := by
    simp only [walk, pte, Option.map_map, Function.comp_def]
  rw [hwalk, hpte, Option.map_map]
  congr 1
  funext e
  simp only [Function.comp_apply, mkPte, pageMask, pagePresent, entry_and_frameMask,
    entry_and_flagMask]

/-- A layout with the static tables in frames 1 to 3. -/
def lowLayout : VmmLayout where
  kernelDir := 0x1000
  identityPt0 := 0x2000
  identityPt1 := 0x3000
  isFrame_dir := ⟨by decide, by decide⟩
  isFrame_pt0 := ⟨by decide, by decide⟩
  isFrame_pt1 := ⟨by decide, by decide⟩
  dir_ne_pt0 := by decide
  dir_ne_pt1 := by decide
  pt0_ne_pt1 := by decide

/-- A machine with cleared memory after `vmm_init`, and a user directory in frame 4. -/
def oneDirectory : VmmSystem :=
  (VmmOp.createUserDirectory 0x4000).exec lowLayout (vmmBoot lowLayout ⟨fun _ => 0, 0, 0, []⟩)

theorem step_oneDirectory :
    VmmStep lowLayout (vmmBoot lowLayout ⟨fun _ => 0, 0, 0, []⟩) (.createUserDirectory 0x4000)
      oneDirectory :=
  ⟨.inr ⟨by decide, ⟨by decide, by decide⟩, by decide, by simp [vmmBoot], by simp [vmmBoot]⟩, rfl⟩

/-- Any mapping in that directory is legal, with frame 6 free for a page table. -/
theorem legal_map_oneDirectory (virt phys flags : UInt32) :
    (VmmOp.mapPage 0x4000 virt phys flags 0x6000 true).Legal lowLayout oneDirectory :=
  ⟨by simp [oneDirectory, VmmOp.exec], .inr ⟨by decide, ⟨by decide, by decide⟩, by decide,
    by simp [oneDirectory, VmmOp.exec, vmmBoot], by simp [oneDirectory, VmmOp.exec, vmmBoot]⟩,
    by simp⟩

theorem run_map_oneDirectory (virt phys flags : UInt32) :
    Run (VmmStep lowLayout) (vmmBoot lowLayout ⟨fun _ => 0, 0, 0, []⟩)
      [.createUserDirectory 0x4000, .mapPage 0x4000 virt phys flags 0x6000 true]
      ((VmmOp.mapPage 0x4000 virt phys flags 0x6000 true).exec lowLayout oneDirectory) :=
  .snoc (.snoc (.nil _) step_oneDirectory) ⟨legal_map_oneDirectory virt phys flags, rfl⟩

/-- The page at 8 MB mapped to frame 5. -/
theorem walk_eq_lastMapping_of_run_oneDirectory :
    (walk ((VmmOp.mapPage 0x4000 0x800000 0x5000 7 0x6000 true).exec lowLayout
      oneDirectory).vmm.mem 0x4000 0x800123).map (fun tr => (tr.phys, tr.flags)) =
        some (0x5123, 7) :=
  (walk_eq_lastMapping_of_run (run_map_oneDirectory 0x800000 0x5000 7)
    (by simp [oneDirectory, VmmOp.exec]) (by decide) (by decide)).trans (by decide)

end Lightstreak
