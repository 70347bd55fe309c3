import Mathlib.Data.List.Find
import Mathlib.Order.Bounds.Defs
import Lightstreak.Mm.PmmAccounting

/-!
# The frame search, and `NULL` as an answer

`pmm_alloc_page` skips full words and stops at `total_pages` inside a word; it is still the plain
scan of the frames in order. Its failure value `NULL` is also the address of frame 0, and
`pmm_free_page` has no test for it: a caller that frees what a failed allocation returned frees
frame 0.

* `pmmAllocPage_eq_allocByScan`: the search is the frame-by-frame scan;
* `pmmFreePage_take`: freeing the frame that was taken restores the state;
* `lowestFirst_reversible_iff`: an allocation can be taken back exactly when it found a frame, or
  there are no frames at all;
* `nullMeansFull_of_run_iff`: `NULL` means that memory is full, in every state of a run, exactly
  when nobody frees `NULL`.
-/

namespace Lightstreak

open SysLib

variable {p p₀ : PmmState} {mem : Mem} {mbi : MultibootInfo} {fuel ks ke f : ℕ}

/-! ## The plain scan -/

/-- The lowest free frame below `total_pages`, looking at one frame after the other. -/
def PmmState.lowestFree (p : PmmState) : Option ℕ :=
  (List.range p.totalPages).find? fun f => !p.bitTest f

/-- Allocation by the plain scan. -/
def allocByScan (p : PmmState) : ℕ × PmmState :=
  match p.lowestFree with
  | none => (0, p)
  | some f => (f * pmmPageSize, p.take f)

theorem lowestFree_eq_none_iff : p.lowestFree = none ↔ ∀ f < p.totalPages, p.bitTest f = true := by
  simp [PmmState.lowestFree]

/-- The lowest free frame is free, and those below are used. -/
theorem lowestFree_eq_some_iff :
    p.lowestFree = some f ↔
      f < p.totalPages ∧ p.bitTest f = false ∧ ∀ j < f, p.bitTest j = true := by
  simp [PmmState.lowestFree, List.find?_range_eq_some]
  tauto

/-- Skipping full words and stopping inside a word make no difference. -/
theorem pmmAllocPage_eq_allocByScan (hmax : p.totalPages ≤ pmmPagesMax) :
    pmmAllocPage p = allocByScan p := by
  unfold allocByScan
  rcases pmmAllocPage_spec p hmax with ⟨hnull, hfull⟩ | ⟨f, hlt, htake, hfree, hlow⟩
  · rw [hnull, lowestFree_eq_none_iff.mpr hfull]
  · rw [htake, lowestFree_eq_some_iff.mpr ⟨hlt, hfree, hlow⟩]

/-! ## Freeing -/

theorem totalPages_pmmFreePage (p : PmmState) (addr : ℕ) :
    (pmmFreePage p addr).totalPages = p.totalPages := by
  unfold pmmFreePage
  dsimp only
  split_ifs <;> rfl

/-- `pmm_free_page` clears the bit of its frame, if it is below `total_pages`, and no other. -/
theorem bitTest_pmmFreePage (p : PmmState) (addr j : ℕ) :
    (pmmFreePage p addr).bitTest j =
      (p.bitTest j && !decide (j = addr / pmmPageSize ∧ j < p.totalPages)) := by
  unfold pmmFreePage
  dsimp only
  by_cases hge : p.totalPages ≤ addr / pmmPageSize
  · have hout : ¬(j = addr / pmmPageSize ∧ j < p.totalPages) := by omega
    simp [hge, hout]
  · cases hset : p.bitTest (addr / pmmPageSize) with
    | false =>
      -- The frame is free already.
      by_cases hj : j = addr / pmmPageSize
      · simp [hge, hj, hset]
      · simp [hge, hj]
    | true =>
      have hclear := Bitmap.test_clear p.bitmap (addr / pmmPageSize) j
      rw [if_neg hge, if_pos rfl]
      refine hclear.trans ?_
      by_cases hj : j = addr / pmmPageSize
      · simp [hj, Nat.not_le.mp hge]
      · simp [hj, PmmState.bitTest]

/-- Freeing the frame that was just taken restores the bitmap and the count of used frames. -/
theorem pmmFreePage_take (hlt : f < p.totalPages) (hfree : p.bitTest f = false)
    (hused : p.usedPages < 2 ^ 32) : pmmFreePage (p.take f) (f * pmmPageSize) = p := by
  have hframe : f * pmmPageSize / pmmPageSize = f := Nat.mul_div_cancel _ (by decide)
  have hset : (p.take f).bitTest f = true := (bitTest_bitSet p f f).trans (by simp)
  have hcount : sub32 (add32 p.usedPages 1) 1 = p.usedPages := by
    simp only [add32, sub32]
    omega
  have hmap : (p.bitmap.set f).clear f = p.bitmap := Bitmap.clear_set hfree
  unfold pmmFreePage
  rw [hframe, if_neg (show ¬(p.take f).totalPages ≤ f from Nat.not_le.mpr hlt), if_pos hset]
  simp only [PmmState.take, PmmState.bitSet, PmmState.bitClear, hmap, hcount]

/-! ## Lowest first, and reversible -/

/-- `pmm_alloc_page` returns the lowest free frame and sets its bit only, as the plain scan does;
without a free frame it returns `NULL` and changes nothing. -/
structure LowestFirst (p : PmmState) : Prop where
  /-- The lowest free frame is returned, and no other bit changes. -/
  lowest : ∀ f, IsLeast {j | j < p.totalPages ∧ p.bitTest j = false} f →
    (pmmAllocPage p).1 = f * pmmPageSize ∧
      ∀ j, (pmmAllocPage p).2.bitTest j = (decide (j = f) || p.bitTest j)
  /-- If no frame is free the result is `NULL`, and nothing changes. -/
  null : (∀ j < p.totalPages, p.bitTest j = true) → pmmAllocPage p = (0, p)
  /-- The byte by byte search is a scan over all bits. -/
  scan : pmmAllocPage p = allocByScan p

/-- The state after `pmm_free_page(pmm_alloc_page())`. -/
def allocThenFree (p : PmmState) : PmmState := pmmFreePage (pmmAllocPage p).2 (pmmAllocPage p).1

/-- `pmm_free_page` of the result takes the allocation back, so that the next allocation returns
the same. -/
structure Reversible (p : PmmState) : Prop where
  /-- The bitmap is as before. -/
  bitmap : (allocThenFree p).bitmap = p.bitmap
  /-- The count is as before. -/
  usedPages : (allocThenFree p).usedPages = p.usedPages
  /-- The next allocation returns the same frame. -/
  again : (pmmAllocPage (allocThenFree p)).1 = (pmmAllocPage p).1

/-- Allocation takes the lowest frame, as long as all frames are in the bitmap. -/
theorem lowestFirst (hmax : p.totalPages ≤ pmmPagesMax) : LowestFirst p where
  lowest f hf := by
    obtain ⟨⟨hlt, hfree⟩, hlow⟩ := hf
    have hused : ∀ j < f, p.bitTest j = true := by
      intro j hj
      by_contra hclear
      have := hlow ⟨hj.trans hlt, by simpa using hclear⟩
      omega
    have hscan := lowestFree_eq_some_iff.mpr ⟨hlt, hfree, hused⟩
    rw [pmmAllocPage_eq_allocByScan hmax, allocByScan, hscan]
    exact ⟨rfl, bitTest_bitSet p f⟩
  null hfull := by
    rw [pmmAllocPage_eq_allocByScan hmax, allocByScan, lowestFree_eq_none_iff.mpr hfull]
  scan := pmmAllocPage_eq_allocByScan hmax

/-- A state that is restored allocates as before. -/
theorem reversible_of_eq (h : allocThenFree p = p) : Reversible p := by
  refine ⟨?_, ?_, ?_⟩ <;> rw [h]

/-- For every bitmap with frame 0 used and every number of frames: `pmm_alloc_page` is the plain
lowest-first scan, and `pmm_free_page` of its result restores the bitmap and the count, if and only
if there is a free frame below `total_pages`, or `total_pages` is 0. -/
theorem lowestFirst_reversible_iff (hmax : p.totalPages ≤ pmmPagesMax)
    (hused : p.usedPages < 2 ^ 32) (hzero : p.bitTest 0 = true) :
    (LowestFirst p ∧ Reversible p) ↔
      (∃ f < p.totalPages, p.bitTest f = false) ∨ p.totalPages = 0 := by
  rw [and_iff_right (lowestFirst hmax)]
  rcases pmmAllocPage_spec p hmax with ⟨hnull, hfull⟩ | ⟨f, hlt, htake, hfree, -⟩
  · have hnone : ¬∃ f < p.totalPages, p.bitTest f = false := by
      rintro ⟨f, hf, hclear⟩
      rw [hfull f hf] at hclear
      cases hclear
    rw [or_iff_right hnone]
    have hsame : allocThenFree p = pmmFreePage p 0 := by rw [allocThenFree, hnull]
    constructor
    · -- With a frame 0 to free, its bit is cleared.
      intro hrev
      by_contra hpos
      have hbit := bitTest_pmmFreePage p 0 0
      rw [← hsame, PmmState.bitTest, hrev.bitmap] at hbit
      simp only [Nat.zero_div, true_and, Nat.pos_of_ne_zero hpos, decide_true, Bool.not_true,
        Bool.and_false] at hbit
      exact absurd (hzero.symm.trans hbit) (by decide)
    · intro htot
      refine reversible_of_eq (hsame.trans ?_)
      rw [pmmFreePage, if_pos (by rw [htot]; exact Nat.zero_le _)]
  · refine iff_of_true (reversible_of_eq ?_) (.inl ⟨f, hlt, hfree⟩)
    rw [allocThenFree, htake]
    exact pmmFreePage_take hlt hfree hused

/-- The bitmap of `threeFrameInit` has two free frames. -/
theorem lowestFirst_reversible_iff_threeFrames :
    ∃ p, threeFrameInit = some p ∧ LowestFirst p ∧ Reversible p := by
  obtain ⟨p, hinit⟩ := Option.isSome_iff_exists.mp (show threeFrameInit.isSome by decide +kernel)
  have hall : ∀ q ∈ threeFrameInit, q.totalPages = 256 ∧ q.usedPages < 2 ^ 32 ∧
      q.bitTest 0 = true ∧ q.bitTest 1 = false := by decide +kernel
  obtain ⟨htot, hused, hzero, hone⟩ := hall p hinit
  have hmax : p.totalPages ≤ pmmPagesMax := by rw [htot]; decide
  exact ⟨p, hinit, (lowestFirst_reversible_iff hmax hused hzero).mpr
    (.inl ⟨1, by rw [htot]; decide, hone⟩)⟩

/-- One managed frame, frame 0, in use. -/
def oneUsedFrame : PmmState := ⟨fun _ => 0xFFFFFFFF#32, 1, 1⟩

/-- With no frame left, freeing the `NULL` that the allocation returned clears bit 0. -/
theorem not_reversible_oneUsedFrame :
    oneUsedFrame.totalPages ≤ pmmPagesMax ∧ oneUsedFrame.usedPages < 2 ^ 32 ∧
      oneUsedFrame.bitTest 0 = true ∧ (pmmAllocPage oneUsedFrame).1 = 0 ∧
      (allocThenFree oneUsedFrame).bitTest 0 = false ∧
      (allocThenFree oneUsedFrame).usedPages = 0 ∧
      ¬(LowestFirst oneUsedFrame ∧ Reversible oneUsedFrame) := by
  have hnull : pmmAllocPage oneUsedFrame = (0, oneUsedFrame) :=
    (lowestFirst (by decide)).null (by decide)
  have hfree : allocThenFree oneUsedFrame = pmmFreePage oneUsedFrame 0 := by
    rw [allocThenFree, hnull]
  have hcount : (allocThenFree oneUsedFrame).usedPages = 0 := by
    rw [hfree]
    decide
  refine ⟨by decide, by decide, by decide, by rw [hnull], ?_, hcount, fun h => ?_⟩
  · rw [hfree]
    decide
  · exact absurd (h.2.usedPages.symm.trans hcount) (by decide)

/-! ## Runs in which any returned value may be freed -/

/-- The allocator together with every value that `pmm_alloc_page` has returned, `NULL` included. -/
structure PmmHistory where
  /-- The allocator. -/
  pmm : PmmState
  /-- All addresses that were ever returned. -/
  returned : List ℕ

/-- An allocation, whose result is recorded. -/
def PmmHistory.alloc (s : PmmHistory) : PmmHistory :=
  ⟨(pmmAllocPage s.pmm).2, (pmmAllocPage s.pmm).1 :: s.returned⟩

/-- One call. What is freed was returned by an earlier call; it may have been freed before. -/
def PmmHistory.Step (s : PmmHistory) : PmmCall → PmmHistory → Prop
  | .allocPage, t => t = s.alloc
  | .freePage addr, t =>
    addr.toNat ∈ s.returned ∧ t = ⟨pmmFreePage s.pmm addr.toNat, s.returned⟩

/-- Frame 0 and the kernel image are marked used, and `pmm_alloc_page` returns `NULL` exactly when
no frame is free, in which case it changes nothing. -/
structure NullMeansFull (ks ke : ℕ) (p : PmmState) : Prop where
  /-- Page zero is used. -/
  zero_used : p.bitTest 0 = true
  /-- The frames of the kernel image are used. -/
  kernel_used : ∀ x, ks ≤ x → x < ke → p.bitTest (x / pmmPageSize) = true
  /-- `NULL` is returned if and only if all frames are used. -/
  null_iff : (pmmAllocPage p).1 = 0 ↔ ∀ f < p.totalPages, p.bitTest f = true
  /-- A call that returns `NULL` changes nothing. -/
  null_keeps : (pmmAllocPage p).1 = 0 → (pmmAllocPage p).2 = p

/-- Frame 0 and the kernel image are marked used, and what was returned is `NULL` or another
frame. -/
structure HistoryInv (ks ke total : ℕ) (s : PmmHistory) : Prop where
  /-- The frames are in the bitmap. -/
  total_le : s.pmm.totalPages ≤ pmmPagesMax
  /-- The number of frames stays. -/
  total_eq : s.pmm.totalPages = total
  /-- Page zero is used. -/
  zero_used : s.pmm.bitTest 0 = true
  /-- The frames of the kernel image are used. -/
  kernel_used : ∀ x, ks ≤ x → x < ke → s.pmm.bitTest (x / pmmPageSize) = true
  /-- What was returned is `NULL`, or neither page zero nor in the kernel image. -/
  returned_frame : ∀ a ∈ s.returned, a = 0 ∨ a / pmmPageSize ≠ 0 ∧
    ∀ x, ks ≤ x → x < ke → x / pmmPageSize ≠ a / pmmPageSize

namespace HistoryInv

variable {total : ℕ} {s t : PmmHistory}

/-- A frame that is free is neither frame 0 nor one of the kernel image. -/
theorem of_free (hi : HistoryInv ks ke total s) (hfree : s.pmm.bitTest f = false) :
    f ≠ 0 ∧ ∀ x, ks ≤ x → x < ke → x / pmmPageSize ≠ f := by
  constructor
  · rintro rfl
    rw [hi.zero_used] at hfree
    cases hfree
  · rintro x hx hxe rfl
    rw [hi.kernel_used x hx hxe] at hfree
    cases hfree

/-- Under the invariant `NULL` means that memory is full. -/
theorem nullMeansFull (hi : HistoryInv ks ke total s) : NullMeansFull ks ke s.pmm := by
  refine ⟨hi.zero_used, hi.kernel_used, ?_, ?_⟩
  all_goals
    rcases pmmAllocPage_spec s.pmm hi.total_le with ⟨hnull, hfull⟩ | ⟨f, hlt, htake, hfree, -⟩
  · rw [hnull]
    exact iff_of_true rfl hfull
  · -- A frame was found, and it is not frame 0.
    rw [htake]
    refine iff_of_false (Nat.mul_ne_zero (hi.of_free hfree).1 (by decide)) fun hfull => ?_
    rw [hfull f hlt] at hfree
    cases hfree
  · rw [hnull]
    exact fun _ => rfl
  · rw [htake]
    exact fun h => absurd h (Nat.mul_ne_zero (hi.of_free hfree).1 (by decide))

/-- Allocation keeps the invariant. -/
theorem alloc (hi : HistoryInv ks ke total s) : HistoryInv ks ke total s.alloc := by
  unfold PmmHistory.alloc
  rcases pmmAllocPage_spec s.pmm hi.total_le with ⟨hnull, -⟩ | ⟨f, -, htake, hfree, -⟩
  · rw [hnull]
    exact ⟨hi.total_le, hi.total_eq, hi.zero_used, hi.kernel_used,
      List.forall_mem_cons.mpr ⟨.inl rfl, hi.returned_frame⟩⟩
  · rw [htake]
    have hmono : ∀ j, s.pmm.bitTest j = true → (s.pmm.take f).bitTest j = true := fun j hj =>
      (bitTest_bitSet s.pmm f j).trans (by simp [hj])
    have hframe : f * pmmPageSize / pmmPageSize = f := Nat.mul_div_cancel _ (by decide)
    refine ⟨hi.total_le, hi.total_eq, hmono 0 hi.zero_used,
      fun x hx hxe => hmono _ (hi.kernel_used x hx hxe),
      List.forall_mem_cons.mpr ⟨.inr ?_, hi.returned_frame⟩⟩
    rw [hframe]
    exact hi.of_free hfree

/-- Freeing a frame that was returned, or anything when there are no frames. -/
theorem free {addr : ℕ} (hi : HistoryInv ks ke total s) (haddr : addr ∈ s.returned)
    (hok : addr ≠ 0 ∨ total = 0) :
    HistoryInv ks ke total ⟨pmmFreePage s.pmm addr, s.returned⟩ := by
  have htot : (pmmFreePage s.pmm addr).totalPages = s.pmm.totalPages :=
    totalPages_pmmFreePage s.pmm addr
  -- No protected frame is the one whose bit may be cleared.
  have hkeep : ∀ j, (addr ≠ 0 → j ≠ addr / pmmPageSize) → s.pmm.bitTest j = true →
      (pmmFreePage s.pmm addr).bitTest j = true := by
    intro j hj hset
    have hout : ¬(j = addr / pmmPageSize ∧ j < s.pmm.totalPages) := by
      rintro ⟨heq, hlt⟩
      rw [hi.total_eq] at hlt
      exact hok.elim (fun h0 => hj h0 heq) fun h0 => by omega
    rw [bitTest_pmmFreePage, hset]
    simp [hout]
  refine ⟨htot.trans_le hi.total_le, htot.trans hi.total_eq, hkeep 0 ?_ hi.zero_used,
    fun x hx hxe => hkeep _ ?_ (hi.kernel_used x hx hxe), hi.returned_frame⟩
  · exact fun h0 => ((hi.returned_frame addr haddr).resolve_left h0).1.symm
  · exact fun h0 => ((hi.returned_frame addr haddr).resolve_left h0).2 x hx hxe

/-- Every call but the free of page zero keeps the invariant. -/
theorem step (hi : HistoryInv ks ke total s) {c : PmmCall} (hstep : s.Step c t)
    (hok : c ≠ .freePage 0 ∨ total = 0) : HistoryInv ks ke total t := by
  cases c with
  | allocPage =>
    obtain rfl := hstep
    exact hi.alloc
  | freePage addr =>
    obtain ⟨haddr, rfl⟩ := hstep
    refine hi.free haddr (hok.imp_left fun hne h0 => hne ?_)
    rw [UInt32.toNat_inj.mp (h0.trans UInt32.toNat_zero.symm)]

/-- Freeing `NULL` frees frame 0. -/
theorem bitTest_zero_of_freeNull (hi : HistoryInv ks ke total s) (htotal : total ≠ 0)
    (hstep : s.Step (.freePage 0) t) : t.pmm.bitTest 0 = false := by
  obtain ⟨-, rfl⟩ := hstep
  have hpos : 0 < s.pmm.totalPages := hi.total_eq ▸ Nat.pos_of_ne_zero htotal
  refine (bitTest_pmmFreePage s.pmm 0 0).trans ?_
  simp [hpos]

end HistoryInv

/-- `pmm_init` establishes the invariant. -/
theorem historyInv_pmmInit (hle : ks ≤ ke) (hmax : ke ≤ 2 ^ 28)
    (h : pmmInit fuel mem mbi ks ke = some p) :
    HistoryInv ks ke (mbiTotalPages mbi) ⟨p, []⟩ := by
  have hi := pmmInv_pmmInit hle hmax h
  exact ⟨hi.total_le, totalPages_pmmInit h, hi.zero_used, hi.kernel_used, by simp⟩

/-- `NULL` means out of memory: after `pmm_init` and any calls that free only values returned by
earlier allocations, frame 0 and the kernel image are marked used and `pmm_alloc_page` returns
`NULL` exactly when no frame is free, in every state of the run, if and only if `NULL` is never
freed in it, or there are no frames. -/
theorem nullMeansFull_of_run_iff (hle : ks ≤ ke) (hmax : ke ≤ 256 * 1024 * 1024)
    (hinit : pmmInit fuel mem mbi ks ke = some p₀) {calls : List PmmCall} {s : PmmHistory}
    (hrun : Run PmmHistory.Step ⟨p₀, []⟩ calls s) :
    (∀ calls₁ s₁, calls₁ <+: calls → Run PmmHistory.Step ⟨p₀, []⟩ calls₁ s₁ →
        NullMeansFull ks ke s₁.pmm) ↔
      PmmCall.freePage 0 ∉ calls ∨ mbiTotalPages mbi = 0 := by
  have hcond : (PmmCall.freePage 0 ∉ calls ∨ mbiTotalPages mbi = 0) ↔
      ∀ c ∈ calls, c ≠ PmmCall.freePage 0 ∨ mbiTotalPages mbi = 0 := by
    rw [← List.forall_mem_ne']
    by_cases h0 : mbiTotalPages mbi = 0
    · simp [h0]
    · simp [h0]
  rw [hcond]
  refine hrun.forall_prefix_iff (I := HistoryInv ks ke (mbiTotalPages mbi))
    (historyInv_pmmInit hle hmax hinit) (fun t hi => hi.nullMeansFull)
    (fun t c u hi hstep hok => hi.step hstep hok) fun t c u hi hstep hbad hnull => ?_
  -- The free of page zero clears its bit at once, so that the prefix that ends with it violates the
  -- property.
  obtain ⟨hc, htotal⟩ := not_or.mp hbad
  obtain rfl := not_not.mp hc
  exact absurd (hnull.zero_used.symm.trans (hi.bitTest_zero_of_freeNull htotal hstep)) (by decide)

/-- One allocation on `threeFrameInit`, and its frame given back. -/
theorem nullMeansFull_of_run_iff_threeFrames :
    ∃ p₀ s, threeFrameInit = some p₀ ∧
      Run PmmHistory.Step ⟨p₀, []⟩ [.allocPage, .freePage 0x1000] s ∧
      NullMeansFull 0x2000 0x3000 s.pmm := by
  obtain ⟨p₀, hinit⟩ := Option.isSome_iff_exists.mp (show threeFrameInit.isSome by decide +kernel)
  have hall : ∀ q ∈ threeFrameInit, (pmmAllocPage q).1 = 0x1000 := by decide +kernel
  have hmem : 0x1000 ∈ (PmmHistory.alloc ⟨p₀, []⟩).returned := by
    simp [PmmHistory.alloc, hall p₀ hinit]
  have hrun : Run PmmHistory.Step ⟨p₀, []⟩ ([] ++ [.allocPage] ++ [.freePage 0x1000]) _ :=
    .snoc (.snoc (.nil _) rfl) ⟨hmem, rfl⟩
  refine ⟨p₀, _, hinit, hrun, ?_⟩
  exact (nullMeansFull_of_run_iff (by decide) (by decide) hinit hrun).mpr (.inl (by decide)) _ _
    (List.prefix_refl _) hrun

/-- The third allocation on `threeFrameInit` fails. Its `NULL` is freed, and then an allocation
returns `NULL` and takes frame 0. -/
theorem not_nullMeansFull_threeFrames :
    ∃ p₀ s, threeFrameInit = some p₀ ∧
      Run PmmHistory.Step ⟨p₀, []⟩ [.allocPage, .allocPage, .allocPage, .freePage 0] s ∧
      s.returned = [0, 0x3000, 0x1000] ∧ s.pmm.bitTest 0 = false ∧ 0 < s.pmm.totalPages ∧
      (pmmAllocPage s.pmm).1 = 0 ∧ (pmmAllocPage s.pmm).2.bitTest 0 = true ∧
      ¬NullMeansFull 0x2000 0x3000 s.pmm := by
  obtain ⟨p₀, hinit⟩ := Option.isSome_iff_exists.mp (show threeFrameInit.isSome by decide +kernel)
  have hall : ∀ q ∈ threeFrameInit,
      (PmmHistory.alloc ⟨q, []⟩).alloc.alloc.returned = [0, 0x3000, 0x1000] ∧
      let p := pmmFreePage (PmmHistory.alloc ⟨q, []⟩).alloc.alloc.pmm 0
      p.bitTest 0 = false ∧ 0 < p.totalPages ∧ (pmmAllocPage p).1 = 0 ∧
        (pmmAllocPage p).2.bitTest 0 = true := by decide +kernel
  have hfull : Run PmmHistory.Step ⟨p₀, []⟩ ([] ++ [.allocPage] ++ [.allocPage] ++ [.allocPage])
      (PmmHistory.alloc ⟨p₀, []⟩).alloc.alloc := .snoc (.snoc (.snoc (.nil _) rfl) rfl) rfl
  obtain ⟨hret, hclear, hpos, hnull, hset⟩ := hall p₀ hinit
  generalize (PmmHistory.alloc ⟨p₀, []⟩).alloc.alloc = s at *
  have hmem : (0 : UInt32).toNat ∈ s.returned := by rw [hret]; decide
  refine ⟨p₀, ⟨pmmFreePage s.pmm 0, s.returned⟩, hinit, .snoc hfull ⟨hmem, rfl⟩, hret, hclear, hpos,
    hnull, hset, fun h => ?_⟩
  exact absurd (h.zero_used.symm.trans hclear) (by decide)

end Lightstreak
