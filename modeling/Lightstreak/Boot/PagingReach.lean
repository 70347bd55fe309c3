import Lightstreak.Boot.Frames
import Lightstreak.Mm.VmmIdentity

/-!
# What the paging code can reach

`vmm_create_user_directory`, `vmm_map_page` and `vmm_unmap_page` read and write directories and
tables through their physical addresses, on a kernel directory that maps the first 8 MB. The frames
come from `pmm_alloc_page`, which knows nothing of that limit: its frames are those of the boot
information, up to 256 MB.

* `VmmOp.touched`: the frames a call reads or writes, justified by `VmmOp.exec_mem_of_not_touches`
  (it writes to no other frame) and `VmmOp.exec_mem_congr` (what it writes depends on no other);
* `PagingInv`: the calls together with their allocator, over every run;
* `touched_below_iff`: all frames that are ever touched lie below 8 MB, if and only if every frame
  that `pmm_init` frees does.
-/

namespace Lightstreak

open SysLib SysLib.Paging

/-! ## The frames of one call -/

section Touched

variable {l : VmmLayout} {s s' : VmmSystem} {op : VmmOp} {x : ℕ}

/-- The directories and tables that a call reads or writes through their physical addresses. -/
def VmmOp.touched (l : VmmLayout) (s : VmmSystem) : VmmOp → List ℕ
  | .createUserDirectory frame => if frame = 0 then [] else [frame, l.kernelDir]
  | .mapPage dir virt _ _ frame _ =>
    dir :: if NeedsTable s.vmm dir virt.toNat then (if frame = 0 then [] else [frame])
      else [word s.vmm.mem dir (vmmDirIdx virt.toNat) &&& pageMask]
  | .unmapPage dir virt =>
    dir :: if NeedsTable s.vmm dir virt.toNat then []
      else [word s.vmm.mem dir (vmmDirIdx virt.toNat) &&& pageMask]

/-- The byte at `x` is in one of these frames. -/
def VmmOp.Touches (l : VmmLayout) (s : VmmSystem) (op : VmmOp) (x : ℕ) : Prop :=
  ∃ t ∈ op.touched l s, t ≤ x ∧ x < t + pageSize

/-- A call writes only to the frames it touches. -/
theorem VmmOp.outside_of_not_touches (h : ¬op.Touches l s x) {t : ℕ} (ht : t ∈ op.touched l s) :
    x < t ∨ t + 4096 ≤ x := by
  by_contra hc
  exact h ⟨t, ht, by omega, by rw [pageSize]; omega⟩

/-- A call writes to the frames it touches only. -/
theorem VmmOp.exec_mem_of_not_touches (h : ¬op.Touches l s x) :
    (op.exec l s).vmm.mem x = s.vmm.mem x := by
  have hout : ∀ t ∈ op.touched l s, x < t ∨ t + 4096 ≤ x := fun t ht =>
    outside_of_not_touches h ht
  cases op with
  | createUserDirectory frame =>
    by_cases h0 : frame = 0
    · simp only [VmmOp.exec, vmmCreateUserDirectory, if_pos h0]
    · simp only [touched, if_neg h0, List.forall_mem_cons] at hout
      simp only [VmmOp.exec, vmmCreateUserDirectory, if_neg h0]
      exact copyWords_of_outside hout.1
  | mapPage dir virt phys flags frame ok =>
    by_cases hneeds : NeedsTable s.vmm dir virt.toNat
    · have habsent : word s.vmm.mem dir (vmmDirIdx virt.toNat) &&& pagePresent = 0 := hneeds
      by_cases h0 : frame = 0
      · simp only [VmmOp.exec, vmmMapPage, if_pos habsent, if_pos h0]
      · -- The new table is cleared, put into the directory, and gets its first entry.
        simp only [touched, if_pos hneeds, if_neg h0, List.forall_mem_cons] at hout
        simp only [VmmOp.exec, vmmMapPage, if_pos habsent, if_neg h0]
        rw [setWord_of_outside (vmmTblIdx_lt _) hout.2.1,
          setWord_of_outside (vmmDirIdx_lt _) hout.1, fillWords_of_outside hout.2.1]
    · have hpresent : ¬word s.vmm.mem dir (vmmDirIdx virt.toNat) &&& pagePresent = 0 := hneeds
      simp only [touched, if_neg hneeds, List.forall_mem_cons] at hout
      simp only [VmmOp.exec, vmmMapPage, if_neg hpresent]
      exact setWord_of_outside (vmmTblIdx_lt _) hout.2.1
  | unmapPage dir virt =>
    by_cases hneeds : NeedsTable s.vmm dir virt.toNat
    · have habsent : word s.vmm.mem dir (vmmDirIdx virt.toNat) &&& pagePresent = 0 := hneeds
      simp only [VmmOp.exec, vmmUnmapPage, if_pos habsent]
    · have hpresent : ¬word s.vmm.mem dir (vmmDirIdx virt.toNat) &&& pagePresent = 0 := hneeds
      simp only [touched, if_neg hneeds, List.forall_mem_cons] at hout
      simp only [VmmOp.exec, vmmUnmapPage, if_neg hpresent]
      exact setWord_of_outside (vmmTblIdx_lt _) hout.2.1

/-- A call reads the frames it touches only: what it leaves in them depends on nothing else. -/
theorem VmmOp.exec_mem_congr (h : ∀ x, op.Touches l s x → s'.vmm.mem x = s.vmm.mem x)
    (hx : op.Touches l s x) : (op.exec l s').vmm.mem x = (op.exec l s).vmm.mem x := by
  have hframe : ∀ t ∈ op.touched l s, ∀ x, t ≤ x → x < t + 4096 → op.Touches l s x :=
    fun t ht x h₁ h₂ => ⟨t, ht, h₁, h₂⟩
  -- A mapping or its removal starts with the directory entry, which is the same in both memories.
  have hentry : ∀ dir virt, dir ∈ op.touched l s → word s'.vmm.mem dir (vmmDirIdx virt) =
      word s.vmm.mem dir (vmmDirIdx virt) := fun dir virt hdir =>
    word_congr (vmmDirIdx_lt _) fun x h₁ h₂ => h x (hframe dir hdir x h₁ h₂)
  cases op with
  | createUserDirectory frame =>
    by_cases h0 : frame = 0
    · simp only [VmmOp.exec, vmmCreateUserDirectory, if_pos h0]
      exact h x hx
    · have hkernel : l.kernelDir ∈ (VmmOp.createUserDirectory frame).touched l s := by
        simp [touched, h0]
      simp only [VmmOp.exec, vmmCreateUserDirectory, if_neg h0]
      exact copyWords_congr _ le_rfl (hframe _ hkernel) h x hx
  | mapPage dir virt phys flags frame ok =>
    simp only [VmmOp.exec, vmmMapPage, hentry dir virt.toNat List.mem_cons_self]
    split_ifs
    · exact h x hx
    · exact Mem.store32_congr _ (Mem.store32_congr _ (fillWords_congr (h x hx)))
    · exact Mem.store32_congr _ (h x hx)
  | unmapPage dir virt =>
    simp only [VmmOp.exec, vmmUnmapPage, hentry dir virt.toNat List.mem_cons_self]
    split_ifs
    · exact h x hx
    · exact Mem.store32_congr _ (h x hx)

end Touched

/-! ## The calls with their allocator -/

/-- The page allocator, and the memory manager that takes frames from it. -/
structure PagingSystem where
  /-- The frame allocator. -/
  pmm : PmmState
  /-- The directories and tables. -/
  sys : VmmSystem

/-- A call on user directories. -/
inductive PagingOp
  | createUserDirectory
  | mapPage (dir : ℕ) (virt phys flags : UInt32)
  | unmapPage (dir : ℕ) (virt : UInt32)
deriving DecidableEq

/-- Mappings are made and removed in user directories, above the identity region. -/
def PagingOp.Legal (s : PagingSystem) : PagingOp → Prop
  | .createUserDirectory => True
  | .mapPage dir virt _ _ => dir ∈ s.sys.dirs ∧ 8 * 1024 * 1024 ≤ virt.toNat
  | .unmapPage dir virt => dir ∈ s.sys.dirs ∧ 8 * 1024 * 1024 ≤ virt.toNat

/-- The call gets as far as `pmm_alloc_page`. -/
def PagingOp.Allocates (s : PagingSystem) : PagingOp → Prop
  | .createUserDirectory => True
  | .mapPage dir virt _ _ => NeedsTable s.sys.vmm dir virt.toNat
  | .unmapPage _ _ => False

instance (s : PagingSystem) (op : PagingOp) : Decidable (op.Allocates s) :=
  match op with
  | .createUserDirectory => inferInstanceAs (Decidable True)
  | .mapPage dir virt _ _ => inferInstanceAs (Decidable (NeedsTable s.sys.vmm dir virt.toNat))
  | .unmapPage _ _ => inferInstanceAs (Decidable False)

/-- What `pmm_alloc_page` returns in the call, if it is called. -/
def PagingOp.alloc (s : PagingSystem) (op : PagingOp) : ℕ × PmmState :=
  if op.Allocates s then pmmAllocPage s.pmm else (0, s.pmm)

/-- The call with the frame that it gets. -/
def PagingOp.call (s : PagingSystem) (op : PagingOp) : VmmOp :=
  match op with
  | .createUserDirectory => .createUserDirectory (op.alloc s).1
  | .mapPage dir virt phys flags => .mapPage dir virt phys flags (op.alloc s).1
    (!decide (NeedsTable s.sys.vmm dir virt.toNat ∧ (op.alloc s).1 = 0))
  | .unmapPage dir virt => .unmapPage dir virt

/-- The effect of a call. -/
def PagingOp.exec (l : VmmLayout) (s : PagingSystem) (op : PagingOp) : PagingSystem :=
  ⟨(op.alloc s).2, (op.call s).exec l s.sys⟩

/-- The directories and tables that a call reads or writes. -/
def PagingOp.touched (l : VmmLayout) (s : PagingSystem) (op : PagingOp) : List ℕ :=
  (op.call s).touched l s.sys

/-- One legal call. -/
def PagingStep (l : VmmLayout) (s : PagingSystem) (op : PagingOp) (t : PagingSystem) : Prop :=
  op.Legal s ∧ t = op.exec l s

/-- The allocator with the frames the memory manager holds. -/
def PagingSystem.owners (s : PagingSystem) : PmmOwners := ⟨s.pmm, s.sys.dirs ∪ s.sys.tables⟩

/-- The kernel image `[ks, ke)` holds the static directory and tables, and the identity map covers
it. -/
structure ImageHolds (l : VmmLayout) (ks ke : ℕ) : Prop where
  /-- The image is a range. -/
  le : ks ≤ ke
  /-- The image is in the identity region. -/
  end_le : ke ≤ 8 * 1024 * 1024
  /-- The static tables are in the image. -/
  frames : ∀ t ∈ l.frames, ks ≤ t ∧ t < ke

variable {l : VmmLayout} {ks ke fuel f a : ℕ} {F : ℕ → Prop} {s s₀ t : PagingSystem}
  {op : PagingOp} {ops : List PagingOp} {v : VmmState} {mbi : MultibootInfo} {pmm : PmmState}

theorem PagingOp.alloc_createUserDirectory (s : PagingSystem) :
    PagingOp.createUserDirectory.alloc s = pmmAllocPage s.pmm :=
  if_pos trivial

/-- Both kinds of call that allocate hold what they get, and the other calls hold what they
held. -/
theorem PagingOp.owners_exec (l : VmmLayout) (s : PagingSystem) (op : PagingOp) :
    PmmStep s.owners (.allocPage (op.alloc s).1) (op.exec l s).owners ∨
      (op.exec l s).owners = s.owners := by
  cases op with
  | createUserDirectory =>
    refine .inl ⟨(alloc_createUserDirectory s).symm, ?_⟩
    simp only [PagingSystem.owners, exec, call, VmmOp.exec]
    split_ifs
    · rfl
    · exact Finset.insert_union _ _ _
  | mapPage dir virt phys flags =>
    -- A frame is taken for a missing table only.
    by_cases hneeds : NeedsTable s.sys.vmm dir virt.toNat
    · have halloc : (PagingOp.mapPage dir virt phys flags).alloc s = pmmAllocPage s.pmm :=
        if_pos hneeds
      refine .inl ⟨halloc.symm, ?_⟩
      simp only [PagingSystem.owners, exec, call, VmmOp.exec, hneeds, true_and, ne_eq, ite_not]
      split_ifs
      · rfl
      · exact Finset.union_insert _ _ _
    · have halloc : (PagingOp.mapPage dir virt phys flags).alloc s = (0, s.pmm) := if_neg hneeds
      refine .inr ?_
      simp only [PagingSystem.owners, exec, call, VmmOp.exec, hneeds, false_and, ↓reduceIte, halloc]
  | unmapPage dir virt => exact .inr rfl

/-- The tables are in order, the frames in use are marked, and all frames that are free or in use
are frames of `F`. -/
structure PagingInv (l : VmmLayout) (ks ke : ℕ) (F : ℕ → Prop) (s : PagingSystem) : Prop where
  /-- The tables are sound. -/
  vmm : VmmInv l s.sys
  /-- The frame allocator is sound, with directories and tables as owners. -/
  pmm : PmmInv ks ke s.owners
  /-- All frames in use satisfy `F`. -/
  freed : FreedOnly F s.owners

/-- What `pmm_alloc_page` returns is not in use, and a frame of `F`. -/
theorem PagingInv.alloc_spec (hi : PagingInv l ks ke F s) (himage : ImageHolds l ks ke)
    (op : PagingOp) : (op.alloc s).1 = 0 ∨
      s.sys.Fresh l (op.alloc s).1 ∧ ∃ f, F f ∧ (op.alloc s).1 = f * pmmPageSize := by
  by_cases halloc : op.Allocates s
  · rw [PagingOp.alloc, if_pos halloc]
    rcases pmmAllocPage_spec s.pmm hi.pmm.total_le with ⟨hnull, -⟩ | ⟨page, hlt, hpage, hclear, -⟩
    · exact .inl (congrArg Prod.fst hnull)
    · rw [hpage]
      have htotal := hi.pmm.total_le
      have hheld : page * pmmPageSize ∉ s.sys.dirs ∪ s.sys.tables := by
        intro hmem
        obtain ⟨j, hj, -, -, hset, -⟩ := hi.pmm.held_frame _ hmem
        rw [← Nat.eq_of_mul_eq_mul_right (by decide) hj] at hset
        exact absurd (hset.symm.trans hclear) (by decide)
      refine .inr ⟨⟨Nat.mul_ne_zero (hi.pmm.ne_zero hclear) (by decide),
        ⟨Nat.dvd_mul_left _ _, ?_⟩, fun hmem => ?_,
        fun hmem => hheld (Finset.mem_union_left _ hmem),
        fun hmem => hheld (Finset.mem_union_right _ hmem)⟩,
        page, hi.freed.free page hlt hclear, rfl⟩
      · have hlt' : page < pmmPagesMax := hlt.trans_le htotal
        simp only [pmmPagesMax, pmmPageSize] at hlt' ⊢
        omega
      · -- The static tables are in the image, whose frames are marked used.
        obtain ⟨hks, hke⟩ := himage.frames _ hmem
        exact hi.pmm.ne_kernel hclear _ hks hke (Nat.mul_div_cancel _ (by decide))
  · exact .inl (by rw [PagingOp.alloc, if_neg halloc])

/-- A call with the frame that the allocator returns is legal. -/
theorem PagingInv.legal_call (hi : PagingInv l ks ke F s) (himage : ImageHolds l ks ke)
    (hlegal : op.Legal s) : (op.call s).Legal l s.sys := by
  have hframe : (op.alloc s).1 = 0 ∨ s.sys.Fresh l (op.alloc s).1 :=
    (hi.alloc_spec himage op).imp_right And.left
  cases op with
  | createUserDirectory => exact hframe
  | mapPage dir virt phys flags => exact ⟨hlegal.1, hframe, by simp⟩
  | unmapPage dir virt => exact hlegal.1

/-- Every call keeps the invariant. -/
theorem PagingInv.step (hi : PagingInv l ks ke F s) (himage : ImageHolds l ks ke)
    (hstep : PagingStep l s op t) : PagingInv l ks ke F t := by
  obtain ⟨hlegal, rfl⟩ := hstep
  have hvmm : VmmInv l (op.exec l s).sys := hi.vmm.step ⟨hi.legal_call himage hlegal, rfl⟩
  rcases op.owners_exec l s with halloc | hsame
  · exact ⟨hvmm, hi.pmm.step halloc, hi.freed.step halloc⟩
  · exact ⟨hvmm, hsame ▸ hi.pmm, hsame ▸ hi.freed⟩

/-- The invariant over every run after `pmm_init` and `vmm_init`. -/
theorem pagingInv_of_run (himage : ImageHolds l ks ke)
    (hinit : pmmInit fuel v.mem mbi ks ke = some pmm)
    (hrun : Run (PagingStep l) ⟨pmm, vmmBoot l v⟩ ops s) :
    PagingInv l ks ke (fun f => f < mbiTotalPages mbi ∧ pmm.bitTest f = false) s := by
  have htot := totalPages_pmmInit hinit
  have hend := himage.end_le
  refine hrun.invariant (fun _ s => PagingInv l ks ke _ s) ⟨vmmInv_vmmBoot l v, ?_, ?_⟩
    fun _ _ _ _ hi hstep => hi.step himage hstep
  · exact pmmInv_pmmInit himage.le (by omega) hinit
  · exact ⟨htot.trans_le (mbiTotalPages_le mbi), fun f hf hfree => ⟨htot ▸ hf, hfree⟩,
      by simp [PagingSystem.owners, vmmBoot]⟩

/-! ## Below 8 MB -/

/-- A directory or a table in use is a frame of `F`. -/
theorem PagingInv.exists_frame (hi : PagingInv l ks ke F s) (ha : a ∈ s.sys.dirs ∪ s.sys.tables) :
    ∃ f, F f ∧ a = f * pmmPageSize := by
  obtain ⟨page, rfl, -⟩ := hi.pmm.held_frame a ha
  have hF := hi.freed.held _ ha
  rw [Nat.mul_div_cancel _ (by decide)] at hF
  exact ⟨page, hF, rfl⟩

/-- The table that a call at 8 MB or above goes through belongs to its directory. -/
theorem PagingInv.table_mem (hi : PagingInv l ks ke F s) {dir : ℕ} {virt : UInt32}
    (hdir : dir ∈ s.sys.dirs) (hvirt : 8 * 1024 * 1024 ≤ virt.toNat)
    (hpresent : ¬NeedsTable s.sys.vmm dir virt.toNat) :
    word s.sys.vmm.mem dir (vmmDirIdx virt.toNat) &&& pageMask ∈ s.sys.tables := by
  have h2 : 2 ≤ vmmDirIdx virt.toNat := by
    rw [vmmDirIdx_eq virt.toNat_lt]
    omega
  rcases hi.vmm.leadsTo hdir (vmmDirIdx_lt virt.toNat) with ⟨-, h0⟩ | ⟨t, g, hleads⟩
  · exact absurd (by rw [NeedsTable, h0, Nat.zero_and]) hpresent
  · rw [hleads.pde, pageMask, frame_or_and_frameMask hleads.isFrame hleads.flags_lt]
    exact hleads.high h2

/-- A call touches the kernel directory and frames of `F`. -/
theorem PagingInv.touched_cases (hi : PagingInv l ks ke F s) (himage : ImageHolds l ks ke)
    (hlegal : op.Legal s) (ha : a ∈ op.touched l s) :
    a = l.kernelDir ∨ ∃ f, F f ∧ a = f * pmmPageSize := by
  have hframe : (op.alloc s).1 ≠ 0 → ∃ f, F f ∧ (op.alloc s).1 = f * pmmPageSize := fun h0 =>
    ((hi.alloc_spec himage op).resolve_left h0).2
  cases op with
  | createUserDirectory =>
    simp only [PagingOp.touched, PagingOp.call, VmmOp.touched] at ha
    split_ifs at ha with h0
    · cases ha
    · rcases List.mem_pair.mp ha with rfl | rfl
      exacts [.inr (hframe h0), .inl rfl]
  | mapPage dir virt phys flags =>
    -- The directory, and the table that is new or was there.
    refine .inr ?_
    rcases List.mem_cons.mp ha with rfl | ha
    · exact hi.exists_frame (Finset.mem_union_left _ hlegal.1)
    · split_ifs at ha with hneeds h0
      · cases ha
      · obtain rfl := List.mem_singleton.mp ha
        exact hframe h0
      · obtain rfl := List.mem_singleton.mp ha
        exact hi.exists_frame (Finset.mem_union_right _ (hi.table_mem hlegal.1 hlegal.2 hneeds))
  | unmapPage dir virt =>
    refine .inr ?_
    rcases List.mem_cons.mp ha with rfl | ha
    · exact hi.exists_frame (Finset.mem_union_left _ hlegal.1)
    · split_ifs at ha with hneeds
      · cases ha
      · obtain rfl := List.mem_singleton.mp ha
        exact hi.exists_frame (Finset.mem_union_right _ (hi.table_mem hlegal.1 hlegal.2 hneeds))

/-- Creating directories is enough to get at any free frame. -/
theorem exists_run_touched (hrun : Run (PagingStep l) s₀ ops s)
    (hmax : s.pmm.totalPages ≤ pmmPagesMax) (hlt : f < s.pmm.totalPages)
    (hfree : s.pmm.bitTest f = false) (h0 : f ≠ 0) :
    ∃ ops' t, Run (PagingStep l) s₀ ops' t ∧
      f * pmmPageSize ∈ PagingOp.createUserDirectory.touched l t := by
  obtain ⟨n, hn⟩ := exists_afterAllocs hmax hlt hfree
  clear hmax hlt hfree
  induction n generalizing s ops with
  | zero =>
    have halloc : (PagingOp.createUserDirectory.alloc s).1 = f * pmmPageSize := by
      rw [PagingOp.alloc_createUserDirectory]
      exact hn
    have hne : f * pmmPageSize ≠ 0 := Nat.mul_ne_zero h0 (by decide)
    refine ⟨ops, s, hrun, ?_⟩
    simp [PagingOp.touched, PagingOp.call, VmmOp.touched, halloc, hne]
  | succ n ih =>
    -- One more directory in whatever frame comes first, and then as before.
    have hstep : PagingStep l s .createUserDirectory (PagingOp.createUserDirectory.exec l s) :=
      ⟨trivial, rfl⟩
    have hpmm : (PagingOp.createUserDirectory.exec l s).pmm = (pmmAllocPage s.pmm).2 := by
      rw [PagingOp.exec, PagingOp.alloc_createUserDirectory]
    refine ih (hrun.snoc hstep) ?_
    rw [hpmm]
    exact hn

/-- Paging touches mapped memory: after `pmm_init` and `vmm_init`, every directory or table that a
run of the calls reads or writes lies below 8 MB, if and only if every frame below `total_pages`
that the boot information makes available does, apart from frame 0 and the frames of the kernel
image. -/
theorem touched_below_iff (himage : ImageHolds l ks ke)
    (hinit : pmmInit fuel v.mem mbi ks ke = some pmm) :
    (∀ ops s (op : PagingOp), Run (PagingStep l) ⟨pmm, vmmBoot l v⟩ ops s → op.Legal s →
        ∀ a ∈ op.touched l s, a + pageSize ≤ 8 * 1024 * 1024) ↔
      ∀ f < mbiTotalPages mbi, AvailableFrame v.mem mbi f → f ≠ 0 → f ∉ kernelFrames ks ke →
        f < 2048 := by
  have hmax := mbiTotalPages_le mbi
  have htot := totalPages_pmmInit hinit
  have hfree := bitTest_pmmInit hinit
  constructor
  · intro h f hf havail h0 hkernel
    obtain ⟨ops, s, hrun, hmem⟩ := exists_run_touched (s := ⟨pmm, vmmBoot l v⟩) (.nil _)
      (htot.trans_le hmax) (hf.trans_eq htot.symm) ((hfree f).mpr ⟨havail, h0, hkernel⟩) h0
    have hbelow := h ops s .createUserDirectory hrun trivial _ hmem
    simp only [pmmPageSize, pageSize] at hbelow
    omega
  · intro h ops s op hrun hlegal a ha
    have hi := pagingInv_of_run himage hinit hrun
    rcases hi.touched_cases himage hlegal ha with rfl | ⟨f, ⟨hf, hclear⟩, rfl⟩
    · -- The kernel directory is in the image, and aligned.
      obtain ⟨k, hk⟩ := l.isFrame_dir.1
      have hend := himage.end_le
      have hdir := (himage.frames _ (VmmLayout.mem_frames.mpr (.inl rfl))).2
      rw [pageSize]
      omega
    · obtain ⟨havail, h0, hkernel⟩ := (hfree f).mp hclear
      have hlow := h f hf havail h0 hkernel
      simp only [pmmPageSize, pageSize]
      omega

/-- The static tables inside a kernel image at 1 MB. -/
theorem imageHolds_imageLayout : ImageHolds imageLayout 0x100000 0x313000 := by
  refine ⟨by decide, by decide, fun t ht => ?_⟩
  rw [VmmLayout.mem_frames] at ht
  simp only [imageLayout] at ht
  omega

/-- If only the first 640 KB are available, all directories and tables lie there. -/
theorem touched_below_iff_lowMemory :
    ∃ pmm, pmmInit 2 (bootMem 0x314000 0x1000 0x9F000) ⟨0x49, 31 * 1024, 24, 0x9044⟩ 0x100000
        0x313000 = some pmm ∧
      ∀ ops s (op : PagingOp), Run (PagingStep imageLayout)
        ⟨pmm, vmmBoot imageLayout (unpaged (bootMem 0x314000 0x1000 0x9F000))⟩ ops s →
        op.Legal s → ∀ a ∈ op.touched imageLayout s, a + pageSize ≤ 8 * 1024 * 1024 := by
  have hwalk := (mmapWalk_bootMem 0x314000 (by decide : 0x1000 < 2 ^ 32)
    (by decide : 0x9F000 < 2 ^ 32)).2
  obtain ⟨pmm, hpmm⟩ := hwalk.exists_pmmInit 0x100000 0x313000
  have havail : ∀ f, AvailableFrame (bootMem 0x314000 0x1000 0x9F000)
      ⟨0x49, 31 * 1024, 24, 0x9044⟩ f → f < 2048 := by
    intro f havail
    have hrange : f ∈ pageRange (0x1000 / pmmPageSize) (add32 0x1000 0x9F000 / pmmPageSize) :=
      (availableFrame_bootMem 0x314000 (by decide) (by decide)).mp havail
    have hlow : f < 0xA0 := (mem_pageRange.mp hrange).2.1
    omega
  -- Nothing else matters about the memory.
  generalize bootMem 0x314000 0x1000 0x9F000 = m at hpmm havail
  have hiff := touched_below_iff (v := unpaged m) imageHolds_imageLayout hpmm
  exact ⟨pmm, hpmm, hiff.mpr fun f _ h _ _ => havail f h⟩

/-- On a machine with 32 MB the directory at 8 MB is created at some time, through an address that
the kernel directory does not map. -/
theorem not_touched_below_highMemory :
    ∃ pmm, pmmInit 2 (bootMem 0x314000 0x100000 0x1F00000) ⟨0x49, 31 * 1024, 24, 0x9044⟩ 0x100000
        0x313000 = some pmm ∧
      ∃ ops s, Run (PagingStep imageLayout)
          ⟨pmm, vmmBoot imageLayout (unpaged (bootMem 0x314000 0x100000 0x1F00000))⟩ ops s ∧
        PagingOp.createUserDirectory.Legal s ∧
        0x800000 ∈ PagingOp.createUserDirectory.touched imageLayout s ∧
        ¬0x800000 + pageSize ≤ 8 * 1024 * 1024 ∧
        walk s.sys.vmm.mem imageLayout.kernelDir 0x800000 = none := by
  have hwalk := (mmapWalk_bootMem 0x314000 (by decide : 0x100000 < 2 ^ 32)
    (by decide : 0x1F00000 < 2 ^ 32)).2
  obtain ⟨pmm, hpmm⟩ := hwalk.exists_pmmInit 0x100000 0x313000
  have htot : pmm.totalPages = 0x2000 := (totalPages_pmmInit hpmm).trans (by decide)
  have hmax : pmm.totalPages ≤ pmmPagesMax := htot.trans_le (by decide)
  have hlt : 0x800 < pmm.totalPages := htot.symm ▸ (by decide : 0x800 < 0x2000)
  -- The frame at 8 MB is free after the boot with 32 MB of memory, so that some run is given it.
  have hfree : pmm.bitTest 0x800 = false := bitTest_highMemory hpmm (by decide) (by decide)
  generalize bootMem 0x314000 0x100000 0x1F00000 = m at hpmm
  obtain ⟨ops, s, hrun, hmem⟩ := exists_run_touched (l := imageLayout)
    (s := ⟨pmm, vmmBoot imageLayout (unpaged m)⟩) (.nil _) hmax hlt hfree (by decide)
  rw [show 0x800 * pmmPageSize = 0x800000 from rfl] at hmem
  have hi := pagingInv_of_run (v := unpaged m) imageHolds_imageLayout hpmm hrun
  have habove : ¬0x800000 + pageSize ≤ 8 * 1024 * 1024 := by
    rw [pageSize]
    omega
  exact ⟨pmm, hpmm, ops, s, hrun, trivial, hmem, habove, walk_high hi.vmm (by omega) (by omega)⟩

end Lightstreak
