import Lightstreak.Boot.Layout

/-!
# Frames, the heap and the modules

`pmm_init` frees the available frames that are not in the kernel image; `kmain` places the heap
behind the modules. Neither tells the other, so that frames of the heap and of the modules are
handed out whenever the boot information makes them available.

* `exists_afterAllocs`, `exists_run_allocPage`: a frame that is free is handed out by some run of
  allocations;
* `FreedOnly`: no run hands out a frame that was not free after `pmm_init`;
* `allocPage_apart_iff`: no page that is allocated after Stage 4 meets the heap or a module, if and
  only if no available frame does.
-/

namespace Lightstreak

open SysLib SysLib.Paging
open ReadMem (window Inside)

variable {s s₀ t : PmmOwners} {ops : List PmmOp} {op : PmmOp} {F : ℕ → Prop} {f : ℕ}

/-! ## Runs of the allocator -/

/-- The allocator after `n` allocations. -/
def PmmState.afterAllocs (p : PmmState) : ℕ → PmmState
  | 0 => p
  | n + 1 => (pmmAllocPage p).2.afterAllocs n

/-- Every free frame is handed out at some time: the allocator takes the lowest one, so that each
allocation before it leaves fewer free frames below. -/
theorem exists_afterAllocs {p : PmmState} (hmax : p.totalPages ≤ pmmPagesMax)
    (hlt : f < p.totalPages) (hfree : p.bitTest f = false) :
    ∃ n, (pmmAllocPage (p.afterAllocs n)).1 = f * pmmPageSize := by
  induction hn : p.bitmap.clearCount f using Nat.strong_induction_on generalizing p with
  | _ n ih =>
    rcases pmmAllocPage_spec p hmax with ⟨-, hall⟩ | ⟨page, -, hpage, hclear, hlow⟩
    · rw [hall f hlt] at hfree
      cases hfree
    · rcases Nat.lt_trichotomy page f with hbelow | rfl | habove
      · -- One free frame less below `f`, which is still free.
        have hcount : (p.take page).bitmap.clearCount f + 1 = p.bitmap.clearCount f :=
          Bitmap.clearCount_set hbelow hclear
        have hne : f ≠ page := by omega
        have hfree' : (p.take page).bitTest f = false :=
          (bitTest_bitSet p page f).trans (by simp [hne, hfree])
        have hmax' : (p.take page).totalPages ≤ pmmPagesMax := hmax
        obtain ⟨k, hk⟩ := ih ((p.take page).bitmap.clearCount f) (by omega) hmax' hlt hfree' rfl
        refine ⟨k + 1, ?_⟩
        rw [PmmState.afterAllocs, hpage]
        exact hk
      · exact ⟨0, congrArg Prod.fst hpage⟩
      · rw [hlow f habove] at hfree
        cases hfree

/-- A free frame can be made the next one to be handed out. -/
theorem exists_run_allocPage (hrun : Run PmmStep s₀ ops s)
    (hmax : s.pmm.totalPages ≤ pmmPagesMax) (hlt : f < s.pmm.totalPages)
    (hfree : s.pmm.bitTest f = false) :
    ∃ ops' t t', Run PmmStep s₀ ops' t ∧ PmmStep t (.allocPage (f * pmmPageSize)) t' := by
  obtain ⟨n, hn⟩ := exists_afterAllocs hmax hlt hfree
  clear hmax hlt hfree
  induction n generalizing s ops with
  | zero => exact ⟨ops, s, ⟨(pmmAllocPage s.pmm).2, _⟩, hrun, Prod.ext hn rfl, rfl⟩
  | succ n ih =>
    have hstep : PmmStep s (.allocPage (pmmAllocPage s.pmm).1) ⟨(pmmAllocPage s.pmm).2, _⟩ :=
      ⟨rfl, rfl⟩
    exact ih (hrun.snoc hstep) hn

/-- Only frames of `F` are free or held. -/
structure FreedOnly (F : ℕ → Prop) (s : PmmOwners) : Prop where
  /-- All frames are in the bitmap. -/
  total_le : s.pmm.totalPages ≤ pmmPagesMax
  /-- Frames that are free satisfy `F`. -/
  free : ∀ f < s.pmm.totalPages, s.pmm.bitTest f = false → F f
  /-- Frames that are handed out satisfy `F`. -/
  held : ∀ a ∈ s.held, F (a / pmmPageSize)

/-- Calls of the frame allocator free no other frames. -/
theorem FreedOnly.step (h : FreedOnly F s) (hstep : PmmStep s op t) : FreedOnly F t := by
  rcases hstep.cases h.total_le with rfl | ⟨page, hlt, hclear, rfl⟩ | ⟨a, ha, rfl⟩
  · exact h
  · refine ⟨h.total_le, fun f hf hfree => h.free f hf ?_, fun a ha => ?_⟩
    · exact (Bool.or_eq_false_iff.mp ((bitTest_bitSet s.pmm page f).symm.trans hfree)).2
    · dsimp only at ha
      split at ha
      next => exact h.held a ha
      next =>
        rcases Finset.mem_insert.mp ha with rfl | ha
        · rw [Nat.mul_div_cancel _ (by decide)]
          exact h.free page hlt hclear
        · exact h.held a ha
  · -- The frame that is given back was held, and so is in `F`.
    have hheld : ∀ b ∈ s.held.erase a, F (b / pmmPageSize) := fun b hb =>
      h.held b (Finset.mem_of_mem_erase hb)
    unfold pmmFreePage
    dsimp only
    split_ifs with hge hset
    · exact ⟨h.total_le, h.free, hheld⟩
    · refine ⟨h.total_le, fun f hf hclear => ?_, hheld⟩
      by_cases hfa : f = a / pmmPageSize
      · exact hfa ▸ h.held a ha
      · have hbit := (Bitmap.test_clear s.pmm.bitmap (a / pmmPageSize) f).symm.trans hclear
        rw [decide_eq_false hfa, Bool.not_false, Bool.true_and] at hbit
        exact h.free f hf hbit
    · exact ⟨h.total_le, h.free, hheld⟩

/-! ## Frames after Stage 4 -/

/-- The page at `r` has no byte of the heap at `base` and of a module. -/
structure PageApart (ms : List MultibootMod) (base r : ℕ) : Prop where
  /-- The page is not in the heap. -/
  heap : Disjoint (Set.Ico r (r + pmmPageSize)) (heapRegion base)
  /-- The page is in no module. -/
  modules : ∀ mod ∈ ms, Disjoint (Set.Ico r (r + pmmPageSize)) (Set.Ico mod.modStart mod.modEnd)

variable {fuel ks ke mbi : ℕ} {l : VmmLayout} {v : VmmState} {boot : BootedMemory}

/-- What is known when Stage 4 has completed. -/
theorem kmainStage4_eq_some_iff : kmainStage4 fuel l ks ke v mbi = some boot ↔
    ∃ pmm base, pmmInit fuel v.mem (loadMultibootInfo v.mem mbi) ks ke = some pmm ∧
      kmainHeapBase (vmmInit l v).virtual mbi ke = some base ∧
      (vmmInit l v).Writable base hdrSize ∧
      boot = ⟨pmm, { vmmInit l v with mem := (heapInit (vmmInit l v).mem base kernelHeapSize).mem },
        heapInit (vmmInit l v).mem base kernelHeapSize⟩ := by
  generalize hvmm : vmmInit l v = vmm
  constructor
  · intro h
    obtain ⟨pmm, hpmm, h⟩ := Option.bind_eq_some_iff.mp h
    rw [hvmm] at h
    obtain ⟨base, hbase, h⟩ := Option.bind_eq_some_iff.mp h
    split_ifs at h with hwritable
    exact ⟨pmm, base, hpmm, hbase, hwritable, (Option.some.inj h).symm⟩
  · rintro ⟨pmm, base, hpmm, hbase, hwritable, rfl⟩
    simp only [kmainStage4, hpmm, hvmm, hbase, Option.bind_eq_bind, Option.bind_some,
      if_pos hwritable, Option.pure_def]

/-- Frames and the heap: after Stage 4 and any allocations, and frees of pages so obtained, no page
that `pmm_alloc_page` returns meets the heap or a module, if and only if no frame that the boot
information makes available does, apart from frame 0 and the frames of the kernel image. -/
theorem allocPage_apart_iff (hboot : kmainStage4 fuel l ks ke v mbi = some boot) :
    (∀ ops t r t', Run PmmStep ⟨boot.pmm, ∅⟩ ops t → PmmStep t (.allocPage r) t' → r ≠ 0 →
        PageApart (bootMods (vmmInit l v).mem mbi) boot.heap.heapStartAddr r) ↔
      ∀ f < mbiTotalPages (loadMultibootInfo v.mem mbi),
        AvailableFrame v.mem (loadMultibootInfo v.mem mbi) f → f ≠ 0 → f ∉ kernelFrames ks ke →
          PageApart (bootMods (vmmInit l v).mem mbi) boot.heap.heapStartAddr (f * pmmPageSize) := by
  obtain ⟨pmm, base, hpmm, -, -, heq⟩ := kmainStage4_eq_some_iff.mp hboot
  rw [show boot.pmm = pmm from congrArg BootedMemory.pmm heq]
  have htot := totalPages_pmmInit hpmm
  have hmax := mbiTotalPages_le (loadMultibootInfo v.mem mbi)
  have hinit := bitTest_pmmInit hpmm
  constructor
  · intro h f hf havail h0 hkernel
    have hfree : pmm.bitTest f = false := (hinit f).mpr ⟨havail, h0, hkernel⟩
    obtain ⟨ops, t, t', hrun, hstep⟩ := exists_run_allocPage (s := ⟨pmm, ∅⟩) (.nil _)
      (htot.trans_le hmax) (hf.trans_eq htot.symm) hfree
    exact h ops t _ t' hrun hstep (Nat.mul_ne_zero h0 (by decide))
  · intro h ops t r t' hrun hstep hr
    -- A page that is returned was free before, and only frames that were free at the start are.
    have hstart : FreedOnly (fun f => f < mbiTotalPages (loadMultibootInfo v.mem mbi) ∧
        pmm.bitTest f = false) ⟨pmm, ∅⟩ :=
      ⟨htot.trans_le hmax, fun f hf hfree => ⟨htot ▸ hf, hfree⟩, by simp⟩
    have hinv := hrun.invariant (fun _ s => FreedOnly _ s) hstart
      fun _ _ _ _ hi hstep => hi.step hstep
    rcases pmmAllocPage_spec t.pmm hinv.total_le with ⟨hnull, -⟩ | ⟨page, hlt, hpage, hclear, -⟩
    · exact absurd (Prod.mk.inj (hstep.1.symm.trans hnull)).1 hr
    · obtain ⟨rfl, -⟩ := Prod.mk.inj (hstep.1.symm.trans hpage)
      obtain ⟨hf, hfree⟩ := hinv.free page hlt hclear
      obtain ⟨havail, h0, hkernel⟩ := (hinit page).mp hfree
      exact h page hf havail h0 hkernel

/-- The memory map of `bootMem`. -/
theorem mmapWalk_bootMem (modEnd : ℕ) {availBase availLength : ℕ} (hbase : availBase < 2 ^ 32)
    (hlength : availLength < 2 ^ 32) :
    loadMultibootInfo (bootMem modEnd availBase availLength) 0x9000 =
        ⟨0x49, 31 * 1024, 24, 0x9044⟩ ∧
      MmapWalk (bootMem modEnd availBase availLength) ⟨0x49, 31 * 1024, 24, 0x9044⟩ 0
        [⟨20, availBase, 0, availLength, 0, 1⟩] := by
  have hload := Mem.load32_ofWords 0x9000 (bootWords modEnd availBase availLength)
  rw [← bootMem] at hload
  generalize bootMem modEnd availBase availLength = m at hload
  have hflags : m.load32 0x9000 = 0x49 := hload 0
  have hupper : m.load32 (add32 0x9000 8) = 31 * 1024 := hload 2
  have hlen : m.load32 (add32 0x9000 44) = 24 := hload 11
  have haddr : m.load32 (add32 0x9000 48) = 0x9044 := hload 12
  refine ⟨by rw [loadMultibootInfo, hflags, hupper, hlen, haddr], by decide, ?_,
    (by decide : 24 ≤ add32 0 (add32 20 4))⟩
  -- The words of the one entry of the map.
  have h0 : m.load32 (add32 0x9044 0) = 20 := hload 17
  have h1 : m.load32 (add32 0x9044 0 + 4) = availBase := (hload 18).trans (Nat.mod_eq_of_lt hbase)
  have h2 : m.load32 (add32 0x9044 0 + 8) = 0 := hload 19
  have h3 : m.load32 (add32 0x9044 0 + 12) = availLength :=
    (hload 20).trans (Nat.mod_eq_of_lt hlength)
  have h4 : m.load32 (add32 0x9044 0 + 16) = 0 := hload 21
  have h5 : m.load32 (add32 0x9044 0 + 20) = 1 := hload 22
  rw [loadMmapEntry, h0, h1, h2, h3, h4, h5]

/-- The frames that it makes available. -/
theorem availableFrame_bootMem (modEnd : ℕ) {availBase availLength : ℕ}
    (hbase : availBase < 2 ^ 32) (hlength : availLength < 2 ^ 32) :
    AvailableFrame (bootMem modEnd availBase availLength) ⟨0x49, 31 * 1024, 24, 0x9044⟩ f ↔
      f ∈ pageRange (availBase / pmmPageSize) (add32 availBase availLength / pmmPageSize) := by
  have hwalk := (mmapWalk_bootMem modEnd hbase hlength).2
  rw [AvailableFrame, if_pos (by decide)]
  constructor
  · rintro ⟨es, hes, e, he, hf⟩
    obtain rfl := hes.unique hwalk
    obtain rfl := List.mem_singleton.mp he
    exact hf
  · exact fun hf => ⟨_, hwalk, _, List.mem_singleton_self _, hf⟩

/-- Stage 4 completes with the information of `bootMem`. -/
theorem exists_kmainStage4_bootMem (modEnd availBase availLength base : ℕ)
    (hend : modEnd < 2 ^ 32) (hbase : availBase < 2 ^ 32) (hlength : availLength < 2 ^ 32)
    (hheap : add32 (max 0x313000 modEnd) 0xFFF &&& 0xFFFFF000 = base)
    (hlow : base + hdrSize ≤ 8 * 1024 * 1024) :
    ∃ boot, kmainStage4 2 imageLayout 0x100000 0x313000
        (unpaged (bootMem modEnd availBase availLength)) 0x9000 = some boot ∧
      boot.heap.heapStartAddr = base ∧
      pmmInit 2 (bootMem modEnd availBase availLength) ⟨0x49, 31 * 1024, 24, 0x9044⟩ 0x100000
        0x313000 = some boot.pmm := by
  obtain ⟨hinfo, hwalk⟩ := mmapWalk_bootMem modEnd hbase hlength
  obtain ⟨pmm, hpmm⟩ := hwalk.exists_pmmInit 0x100000 0x313000
  have hstart := (kmain_bootMem modEnd availBase availLength hend).2
  rw [hheap] at hstart
  refine ⟨_, kmainStage4_eq_some_iff.mpr ⟨pmm, base, ?_, hstart, writable_vmmInit hlow, rfl⟩, rfl,
    hpmm⟩
  exact (congrArg (pmmInit 2 _ · 0x100000 0x313000) hinfo).trans hpmm

/-- If only the first 640 KB are available, nothing is shared. -/
theorem allocPage_apart_iff_lowMemory :
    ∃ boot, kmainStage4 2 imageLayout 0x100000 0x313000
        (unpaged (bootMem 0x314000 0x1000 0x9F000)) 0x9000 = some boot ∧
      ∀ ops t r t', Run PmmStep ⟨boot.pmm, ∅⟩ ops t → PmmStep t (.allocPage r) t' → r ≠ 0 →
        PageApart [⟨0x313000, 0x314000⟩] 0x314000 r := by
  obtain ⟨boot, hboot, hheap, -⟩ := exists_kmainStage4_bootMem 0x314000 0x1000 0x9F000 0x314000
    (by decide) (by decide) (by decide) (by decide) (by decide)
  have hiff := allocPage_apart_iff hboot
  rw [hheap, (kmain_bootMem 0x314000 0x1000 0x9F000 (by decide)).1] at hiff
  refine ⟨boot, hboot, hiff.mpr fun f _ havail _ _ => ?_⟩
  have hinfo := (mmapWalk_bootMem 0x314000 (by decide : 0x1000 < 2 ^ 32)
    (by decide : 0x9F000 < 2 ^ 32)).1
  have hrange : f ∈ pageRange (0x1000 / pmmPageSize) (add32 0x1000 0x9F000 / pmmPageSize) :=
    (availableFrame_bootMem 0x314000 (by decide) (by decide)).mp (hinfo ▸ havail)
  -- A frame of the region ends at 640 KB, below the module and the heap.
  have hlow : f < 0xA0 := (mem_pageRange.mp hrange).2.1
  have hend : f * pmmPageSize + pmmPageSize ≤ 0xA0000 := by
    rw [pmmPageSize]
    omega
  refine ⟨?_, fun mod hmod => ?_⟩
  · rw [heapRegion, Set.Ico_disjoint_Ico]
    omega
  · obtain rfl := List.mem_singleton.mp hmod
    rw [Set.Ico_disjoint_Ico]
    dsimp only
    omega

/-- With all memory above 1 MB available, all frames from the end of the kernel image on are
free. -/
theorem bitTest_highMemory {modEnd : ℕ} {pmm : PmmState}
    (hpmm : pmmInit 2 (bootMem modEnd 0x100000 0x1F00000) ⟨0x49, 31 * 1024, 24, 0x9044⟩ 0x100000
      0x313000 = some pmm) (hge : 0x313 ≤ f) (hlt : f < 0x2000) : pmm.bitTest f = false := by
  have hrange : f ∈ pageRange (0x100000 / pmmPageSize) (add32 0x100000 0x1F00000 / pmmPageSize) :=
    mem_pageRange.mpr ⟨(by decide : 0x100000 / pmmPageSize ≤ 0x313).trans hge, hlt,
      hlt.trans (by decide)⟩
  refine (bitTest_pmmInit hpmm f).mpr
    ⟨(availableFrame_bootMem modEnd (by decide) (by decide)).mpr hrange, by omega, ?_⟩
  rw [kernelFrames, mem_pageRange]
  exact fun h => absurd h.2.1 (Nat.not_lt.mpr hge)

/-- With all memory above 1 MB available, pages of the module and of the heap are handed out. -/
theorem not_pageApart_highMemory :
    ∃ boot, kmainStage4 2 imageLayout 0x100000 0x313000
        (unpaged (bootMem 0x450000 0x100000 0x1F00000)) 0x9000 = some boot ∧
      boot.heap.heapStartAddr = 0x450000 ∧
      (∃ ops t t', Run PmmStep ⟨boot.pmm, ∅⟩ ops t ∧ PmmStep t (.allocPage 0x313000) t') ∧
      (∃ ops t t', Run PmmStep ⟨boot.pmm, ∅⟩ ops t ∧ PmmStep t (.allocPage 0x450000) t') ∧
      ¬PageApart [⟨0x313000, 0x450000⟩] 0x450000 0x313000 ∧
      ¬PageApart [⟨0x313000, 0x450000⟩] 0x450000 0x450000 := by
  obtain ⟨boot, hboot, hheap, hpmm⟩ := exists_kmainStage4_bootMem 0x450000 0x100000 0x1F00000
    0x450000 (by decide) (by decide) (by decide) (by decide) (by decide)
  have htot : boot.pmm.totalPages = 0x2000 := (totalPages_pmmInit hpmm).trans (by decide)
  -- All frames above the kernel image can be handed out, those of the module and of the heap
  -- included.
  have hhand : ∀ f r, 0x313 ≤ f → f < 0x2000 → f * pmmPageSize = r →
      ∃ ops t t', Run PmmStep ⟨boot.pmm, ∅⟩ ops t ∧ PmmStep t (.allocPage r) t' := by
    rintro f - hge hlt rfl
    exact exists_run_allocPage (s := ⟨boot.pmm, ∅⟩) (.nil _) (htot.trans_le (by decide))
      (htot ▸ hlt) (bitTest_highMemory hpmm hge hlt)
  refine ⟨boot, hboot, hheap, hhand 0x313 _ (by decide) (by decide) (by decide),
    hhand 0x450 _ (by decide) (by decide) (by decide), fun h => ?_, fun h => ?_⟩
  · have hmod := h.modules _ (List.mem_singleton_self _)
    rw [Set.Ico_disjoint_Ico] at hmod
    exact absurd hmod (by decide)
  · have hmeet := h.heap
    rw [heapRegion, Set.Ico_disjoint_Ico] at hmeet
    exact absurd hmeet (by decide)

end Lightstreak
