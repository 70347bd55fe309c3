import Mathlib.Data.Finset.Basic
import Lightstreak.Mm.Pmm

/-!
# Exclusive ownership of page frames

`pmm_alloc_page` never hands out a frame that someone still holds, nor frame 0, nor a frame of
the kernel image.

* `pmmAllocPage_spec`: the word-skipping search finds the lowest free frame below
  `total_pages`, or there is none;
* `PmmInv`: the frames that must not be handed out are marked used, which `pmm_init`
  establishes (`pmmInv_pmmInit`) whatever the memory map says, and which allocation and the
  return of held frames keep (`PmmInv.step`);
* `pmmAllocPage_exclusive_of_run`: the guarantee over every run.
-/

namespace Lightstreak

open SysLib

variable {p p' : PmmState} {i j n page : ℕ}

/-! ## Single frames -/

@[simp]
theorem bitTest_bitSet (p : PmmState) (i j : ℕ) :
    (p.bitSet i).bitTest j = (decide (j = i) || p.bitTest j) :=
  Bitmap.test_set p.bitmap i j

/-- Marking a frame sets its bit. -/
theorem bitTest_markFrame (p : PmmState) (i j : ℕ) :
    (p.markFrame i).bitTest j = (decide (j = i) || p.bitTest j) := by
  unfold PmmState.markFrame
  split
  next hset =>
    by_cases hj : j = i
    · simp [hj, hset]
    · simp [hj]
  next => exact bitTest_bitSet p i j

theorem totalPages_markFrame (p : PmmState) (i : ℕ) :
    (p.markFrame i).totalPages = p.totalPages := by
  unfold PmmState.markFrame
  split <;> rfl

theorem totalPages_freeFrame (p : PmmState) (i : ℕ) :
    (p.freeFrame i).totalPages = p.totalPages := by
  unfold PmmState.freeFrame
  split <;> rfl

/-! ## Regions -/

/-- Marking a list of frames sets exactly those bits. -/
theorem bitTest_foldl_markFrame (l : List ℕ) (p : PmmState) (j : ℕ) :
    (l.foldl PmmState.markFrame p).bitTest j = (decide (j ∈ l) || p.bitTest j) := by
  induction l generalizing p with
  | nil => simp
  | cons i l ih =>
    rw [List.foldl_cons, ih, bitTest_markFrame]
    by_cases hj : j = i
    · simp [hj]
    · simp [hj]

/-- A loop that keeps `total_pages` at every turn keeps it. -/
theorem totalPages_foldl {f : PmmState → ℕ → PmmState}
    (hf : ∀ p i, (f p i).totalPages = p.totalPages) (l : List ℕ) (p : PmmState) :
    (l.foldl f p).totalPages = p.totalPages := by
  induction l generalizing p with
  | nil => rfl
  | cons i l ih => rw [List.foldl_cons, ih, hf]

/-- A range of pages is cut at the end of the bitmap. -/
theorem mem_pageRange {stop : ℕ} :
    j ∈ pageRange page stop ↔ page ≤ j ∧ j < stop ∧ j < pmmPagesMax := by
  unfold pageRange
  rw [List.mem_range'_1]
  omega

theorem totalPages_freeMmapEntry (p : PmmState) (e : MmapEntry) :
    (freeMmapEntry p e).totalPages = p.totalPages := by
  unfold freeMmapEntry pmmFreeRegion
  split_ifs <;> first | exact totalPages_foldl totalPages_freeFrame _ _ | rfl

/-! ## Initialisation -/

theorem mbiTotalPages_le (mbi : MultibootInfo) : mbiTotalPages mbi ≤ pmmPagesMax := by
  unfold mbiTotalPages
  dsimp only
  split_ifs <;> omega

/-- The walk of the memory map keeps `total_pages`. -/
theorem totalPages_of_loop {mem : Mem} {mbi : MultibootInfo} {fuel : ℕ} {s : ℕ × PmmState}
    (h : loop (mmapTurn mem mbi) fuel s = some p) : p.totalPages = s.2.totalPages := by
  induction fuel generalizing s with
  | zero => cases h
  | succ fuel ih =>
    by_cases hlt : s.1 < mbi.mmapLength
    · rw [loop_of_inl (by simp only [mmapTurn, if_pos hlt]; rfl)] at h
      rw [ih h, totalPages_freeMmapEntry]
    · rw [loop_of_inr (by simp only [mmapTurn, if_neg hlt]; rfl)] at h
      exact (congrArg PmmState.totalPages (Option.some.inj h)).symm

/-- The number of frames is computed once, from the multiboot header. -/
theorem totalPages_pmmInit {fuel : ℕ} {mem : Mem} {mbi : MultibootInfo} {ks ke : ℕ}
    (h : pmmInit fuel mem mbi ks ke = some p) : p.totalPages = mbiTotalPages mbi := by
  obtain ⟨q, hq, rfl⟩ := Option.map_eq_some_iff.mp h
  unfold pmmProtect pmmMarkRegionUsed
  rw [totalPages_foldl totalPages_markFrame, totalPages_markFrame]
  unfold pmmFreeAvailable at hq
  dsimp only at hq
  split at hq
  · exact totalPages_of_loop hq
  · rw [← Option.some.inj hq, pmmFreeRegion, totalPages_foldl totalPages_freeFrame]
    rfl

/-- Whatever was freed before, frame 0 and the kernel image are marked used at the end. -/
theorem bitTest_pmmProtect (q : PmmState) {ks ke : ℕ} (hle : ks ≤ ke) (hmax : ke ≤ 2 ^ 28) :
    (pmmProtect q ks ke).bitTest 0 = true ∧
      ∀ x, ks ≤ x → x < ke → (pmmProtect q ks ke).bitTest (x / pmmPageSize) = true := by
  have hlen : sub32 ke ks = ke - ks := sub32_eq (by omega) hle
  have hsum : add32 ks (ke - ks) = ke := by rw [add32_eq (by omega)]; omega
  have hstop : sub32 (add32 ke pmmPageSize) 1 = ke + 4095 := by
    rw [pmmPageSize, add32_eq (by omega), sub32_eq (by omega) (by omega)]
    omega
  simp only [pmmProtect, pmmMarkRegionUsed, bitTest_foldl_markFrame, bitTest_markFrame, hlen,
    hsum, hstop]
  refine ⟨by simp, fun x hx hxe => ?_⟩
  have hmem : x / pmmPageSize ∈ pageRange (ks / pmmPageSize) ((ke + 4095) / pmmPageSize) := by
    rw [mem_pageRange]
    simp only [pmmPageSize, pmmPagesMax]
    omega
  simp [hmem]

/-! ## The search of `pmm_alloc_page` -/

/-- A frame taken: its bit is set and `used_pages` goes up. -/
def PmmState.take (p : PmmState) (page : ℕ) : PmmState :=
  { p.bitSet page with usedPages := add32 p.usedPages 1 }

/-- The inner loop: it returns the first free frame of the word, or `NULL` past `total_pages`,
or falls through when every frame of the word is used. -/
theorem scanBits_spec (p : PmmState) (i bit n : ℕ) :
    (scanBits p i bit n = none ∧
        ∀ b, bit ≤ b → b < bit + n → p.bitTest (i * 32 + b) = true) ∨
      (∃ b, b < bit + n ∧ scanBits p i bit n = some (0, p) ∧ p.totalPages ≤ i * 32 + b ∧
        ∀ c, bit ≤ c → c < b → p.bitTest (i * 32 + c) = true) ∨
      (∃ b, bit ≤ b ∧ b < bit + n ∧ i * 32 + b < p.totalPages ∧
        scanBits p i bit n =
          some (mul32 (i * 32 + b) pmmPageSize, p.take (i * 32 + b)) ∧
        p.bitTest (i * 32 + b) = false ∧
        ∀ c, bit ≤ c → c < b → p.bitTest (i * 32 + c) = true) := by
  induction n generalizing bit with
  | zero => exact Or.inl ⟨rfl, fun b h1 h2 => by omega⟩
  | succ n ih =>
    rw [scanBits]
    by_cases htot : p.totalPages ≤ i * 32 + bit
    · -- The source returns `NULL` here without looking at the words that follow.
      refine Or.inr (Or.inl ⟨bit, by omega, ?_, htot, fun c h1 h2 => by omega⟩)
      simp [htot]
    · cases hbit : p.bitTest (i * 32 + bit) with
      | false =>
        refine Or.inr (Or.inr ⟨bit, le_refl _, by omega, by omega, ?_, hbit,
          fun c h1 h2 => by omega⟩)
        simp [htot, PmmState.take]
      | true =>
        -- The frame is used: the rest of the word decides.
        have hextend : ∀ b, (∀ c, bit + 1 ≤ c → c < b → p.bitTest (i * 32 + c) = true) →
            ∀ c, bit ≤ c → c < b → p.bitTest (i * 32 + c) = true := by
          intro b hb c h1 h2
          rcases Nat.eq_or_lt_of_le h1 with rfl | h1
          · exact hbit
          · exact hb c h1 h2
        simp only [if_neg htot, ↓reduceIte]
        rcases ih (bit + 1) with ⟨hscan, hall⟩ | ⟨b, hb, hscan, hge, hall⟩ |
          ⟨b, hb1, hb2, hlt, hscan, hfree, hall⟩
        · exact Or.inl ⟨hscan, hextend _ fun c h1 h2 => hall c h1 (by omega)⟩
        · exact Or.inr (Or.inl ⟨b, by omega, hscan, hge, hextend b hall⟩)
        · exact Or.inr (Or.inr ⟨b, by omega, by omega, hlt, hscan, hfree, hextend b hall⟩)

/-- The outer loop, when all frames below word `i` are used: it takes the lowest free frame, or
every frame it may hand out is used. -/
theorem scanWords_spec (p : PmmState) (i n : ℕ) (hbelow : ∀ j < i * 32, p.bitTest j = true) :
    (scanWords p i n = (0, p) ∧
        ∀ j < p.totalPages, j < (i + n) * 32 → p.bitTest j = true) ∨
      (∃ page, page < p.totalPages ∧ page < (i + n) * 32 ∧
        scanWords p i n = (mul32 page pmmPageSize, p.take page) ∧
        p.bitTest page = false ∧ ∀ j < page, p.bitTest j = true) := by
  induction n generalizing i with
  | zero => exact Or.inl ⟨rfl, fun j _ hj => hbelow j (by omega)⟩
  | succ n ih =>
    -- What is known below word `i` is extended by the frames of that word that are known.
    have hupto (k : ℕ) (hword : ∀ b < k, p.bitTest (i * 32 + b) = true) :
        ∀ j < i * 32 + k, p.bitTest j = true := by
      intro j hj
      by_cases hlt : j < i * 32
      · exact hbelow j hlt
      · have := hword (j - i * 32) (by omega)
        rwa [Nat.add_sub_cancel' (by omega)] at this
    have hnext (hword : ∀ b < 32, p.bitTest (i * 32 + b) = true) :
        ∀ j < (i + 1) * 32, p.bitTest j = true := fun j hj => hupto 32 hword j (by omega)
    have hsum : i + 1 + n = i + (n + 1) := by omega
    rw [scanWords]
    by_cases hfull : p.bitmap i = 0xFFFFFFFF#32
    · -- The test of the whole word is a shortcut for the test of its 32 bits.
      rw [if_pos hfull]
      simpa only [hsum] using ih (i + 1) (hnext fun b hb => Bitmap.test_of_word_full hfull hb)
    · rw [if_neg hfull]
      rcases scanBits_spec p i 0 32 with ⟨hscan, hall⟩ | ⟨b, hb, hscan, hge, hall⟩ |
        ⟨b, -, hb, hlt, hscan, hfree, hall⟩
      · rw [hscan]
        simpa only [hsum] using ih (i + 1) (hnext fun b hb => hall b (by omega) (by omega))
      · rw [hscan]
        exact Or.inl ⟨rfl, fun j hj _ =>
          hupto b (fun c hc => hall c (Nat.zero_le c) hc) j (by omega)⟩
      · rw [hscan]
        exact Or.inr ⟨i * 32 + b, hlt, by omega, rfl, hfree,
          hupto b fun c hc => hall c (Nat.zero_le c) hc⟩

/-- `pmm_alloc_page` takes the lowest free frame below `total_pages`; it returns `NULL` and
changes nothing when there is none. -/
theorem pmmAllocPage_spec (p : PmmState) (hmax : p.totalPages ≤ pmmPagesMax) :
    (pmmAllocPage p = (0, p) ∧ ∀ j < p.totalPages, p.bitTest j = true) ∨
      (∃ page, page < p.totalPages ∧ pmmAllocPage p = (page * pmmPageSize, p.take page) ∧
        p.bitTest page = false ∧ ∀ j < page, p.bitTest j = true) := by
  simp only [pmmPagesMax] at hmax
  rcases scanWords_spec p 0 (pmmPagesMax / 32) (fun j hj => by omega) with
    ⟨hscan, hall⟩ | ⟨page, hlt, -, hscan, hfree, hlow⟩
  · refine Or.inl ⟨hscan, fun j hj => hall j hj ?_⟩
    simp only [pmmPagesMax]
    omega
  · refine Or.inr ⟨page, hlt, ?_, hfree, hlow⟩
    have hmul : mul32 page pmmPageSize = page * pmmPageSize := by
      simp only [mul32, pmmPageSize]
      omega
    rw [← hmul]
    exact hscan

/-! ## Ownership -/

/-- The allocator together with the frames its callers hold: the non-`NULL` addresses that
`pmm_alloc_page` has returned and that have not been freed since. -/
structure PmmOwners where
  /-- The allocator. -/
  pmm : PmmState
  /-- The addresses that were handed out and not freed. -/
  held : Finset ℕ

/-- A call to the allocator: an allocation with the address it returned, or the return of a
frame. -/
inductive PmmOp
  | allocPage (addr : ℕ)
  | freePage (addr : ℕ)
deriving DecidableEq, Repr

/-- One call. Callers free only what they hold. -/
def PmmStep (s : PmmOwners) : PmmOp → PmmOwners → Prop
  | .allocPage r, t =>
    pmmAllocPage s.pmm = (r, t.pmm) ∧ t.held = if r = 0 then s.held else insert r s.held
  | .freePage a, t => a ∈ s.held ∧ t.pmm = pmmFreePage s.pmm a ∧ t.held = s.held.erase a

/-- A call does nothing, takes a free frame, or gives a held one back. -/
theorem PmmStep.cases {s t : PmmOwners} {op : PmmOp} (hmax : s.pmm.totalPages ≤ pmmPagesMax)
    (hstep : PmmStep s op t) :
    t = s ∨
      (∃ page < s.pmm.totalPages, s.pmm.bitTest page = false ∧ t = ⟨s.pmm.take page,
        if page * pmmPageSize = 0 then s.held else insert (page * pmmPageSize) s.held⟩) ∨
      ∃ a ∈ s.held, t = ⟨pmmFreePage s.pmm a, s.held.erase a⟩ := by
  obtain ⟨q, held⟩ := t
  cases op with
  | allocPage r =>
    obtain ⟨halloc, hheld⟩ := hstep
    dsimp only at halloc hheld
    rcases pmmAllocPage_spec s.pmm hmax with ⟨hnull, -⟩ | ⟨page, hlt, hpage, hfree, -⟩
    · -- Memory is full, and nothing is handed out.
      obtain ⟨rfl, rfl⟩ := Prod.mk.inj (hnull.symm.trans halloc)
      exact .inl (by rw [hheld, if_pos rfl])
    · obtain ⟨rfl, rfl⟩ := Prod.mk.inj (hpage.symm.trans halloc)
      exact .inr (.inl ⟨page, hlt, hfree, by rw [hheld]⟩)
  | freePage a =>
    obtain ⟨ha, hfree, hheld⟩ := hstep
    dsimp only at hfree hheld
    exact .inr (.inr ⟨a, ha, by rw [hfree, hheld]⟩)

/-- Frame 0, the frames of the kernel image `[ks, ke)` and every held frame are marked used,
and no held frame is one of the former. -/
structure PmmInv (ks ke : ℕ) (s : PmmOwners) : Prop where
  /-- The frames are in the bitmap. -/
  total_le : s.pmm.totalPages ≤ pmmPagesMax
  /-- Page zero is never free. -/
  zero_used : s.pmm.bitTest 0 = true
  /-- The kernel image is never free. -/
  kernel_used : ∀ x, ks ≤ x → x < ke → s.pmm.bitTest (x / pmmPageSize) = true
  /-- What was handed out is a used frame, neither page zero nor in the kernel image. -/
  held_frame : ∀ a ∈ s.held, ∃ page, a = page * pmmPageSize ∧ page ≠ 0 ∧
    page < s.pmm.totalPages ∧ s.pmm.bitTest page = true ∧
    ∀ x, ks ≤ x → x < ke → x / pmmPageSize ≠ page

/-- `pmm_init` establishes the invariant. -/
theorem pmmInv_pmmInit {fuel : ℕ} {mem : Mem} {mbi : MultibootInfo} {ks ke : ℕ}
    (hle : ks ≤ ke) (hmax : ke ≤ 2 ^ 28) (h : pmmInit fuel mem mbi ks ke = some p) :
    PmmInv ks ke ⟨p, ∅⟩ := by
  have htot := totalPages_pmmInit h
  obtain ⟨q, -, rfl⟩ := Option.map_eq_some_iff.mp h
  obtain ⟨hzero, hkernel⟩ := bitTest_pmmProtect q hle hmax
  exact ⟨htot.trans_le (mbiTotalPages_le mbi), hzero, hkernel, by simp⟩

/-- A frame that `pmm_alloc_page` may hand out is no frame of the kernel image. -/
theorem PmmInv.ne_kernel {ks ke : ℕ} {s : PmmOwners} (hi : PmmInv ks ke s)
    (hfree : s.pmm.bitTest page = false) (x : ℕ) (hx : ks ≤ x) (hxe : x < ke) :
    x / pmmPageSize ≠ page := by
  rintro rfl
  rw [hi.kernel_used x hx hxe] at hfree
  cases hfree

/-- A free frame is not page zero. -/
theorem PmmInv.ne_zero {ks ke : ℕ} {s : PmmOwners} (hi : PmmInv ks ke s)
    (hfree : s.pmm.bitTest page = false) : page ≠ 0 := by
  rintro rfl
  rw [hi.zero_used] at hfree
  cases hfree

/-- Taking a free frame keeps the invariant, with the frame held. -/
theorem PmmInv.take {ks ke : ℕ} {s : PmmOwners} (hi : PmmInv ks ke s)
    (hlt : page < s.pmm.totalPages) (hfree : s.pmm.bitTest page = false) :
    PmmInv ks ke ⟨s.pmm.take page, insert (page * pmmPageSize) s.held⟩ := by
  have hmono : ∀ j, s.pmm.bitTest j = true → (s.pmm.take page).bitTest j = true := by
    intro j hj
    exact (bitTest_bitSet s.pmm page j).trans (by simp [hj])
  refine ⟨hi.total_le, hmono 0 hi.zero_used,
    fun x hx hxe => hmono _ (hi.kernel_used x hx hxe), fun a ha => ?_⟩
  rcases Finset.mem_insert.mp ha with rfl | ha
  · exact ⟨page, rfl, hi.ne_zero hfree, hlt,
      (bitTest_bitSet s.pmm page page).trans (by simp), hi.ne_kernel hfree⟩
  · obtain ⟨j, rfl, hj0, hjt, hjset, hjk⟩ := hi.held_frame a ha
    exact ⟨j, rfl, hj0, hjt, hmono j hjset, hjk⟩

/-- Returning a held frame clears its bit and no other. -/
theorem PmmInv.free {ks ke a : ℕ} {s : PmmOwners} (hi : PmmInv ks ke s) (ha : a ∈ s.held) :
    PmmInv ks ke ⟨pmmFreePage s.pmm a, s.held.erase a⟩ := by
  obtain ⟨page, rfl, hpage0, hlt, hset, hkernel⟩ := hi.held_frame a ha
  have hframe : page * pmmPageSize / pmmPageSize = page := Nat.mul_div_cancel _ (by decide)
  have hfree : pmmFreePage s.pmm (page * pmmPageSize) =
      { s.pmm.bitClear page with usedPages := sub32 s.pmm.usedPages 1 } := by
    unfold pmmFreePage
    simp only [hframe, if_neg (Nat.not_le.mpr hlt), if_pos hset]
  -- The bits of frame 0, of the kernel and of the other pages held are not the one that is cleared.
  have hother : ∀ j, j ≠ page → s.pmm.bitTest j = true →
      (pmmFreePage s.pmm (page * pmmPageSize)).bitTest j = true := by
    intro j hj hjset
    rw [PmmState.bitTest] at hjset
    simp [hfree, PmmState.bitTest, PmmState.bitClear, hj, hjset]
  have htot : (pmmFreePage s.pmm (page * pmmPageSize)).totalPages = s.pmm.totalPages := by
    rw [hfree]
    rfl
  refine ⟨htot.trans_le hi.total_le, hother 0 hpage0.symm hi.zero_used,
    fun x hx hxe => hother _ (hkernel x hx hxe) (hi.kernel_used x hx hxe), fun b hb => ?_⟩
  obtain ⟨hne, hb⟩ := Finset.mem_erase.mp hb
  obtain ⟨j, rfl, hj0, hjt, hjset, hjk⟩ := hi.held_frame b hb
  have hj : j ≠ page := fun h => hne (by rw [h])
  exact ⟨j, rfl, hj0, htot.symm ▸ hjt, hother j hj hjset, hjk⟩

/-- Every call keeps the invariant. -/
theorem PmmInv.step {ks ke : ℕ} {s t : PmmOwners} {op : PmmOp} (hi : PmmInv ks ke s)
    (hstep : PmmStep s op t) : PmmInv ks ke t := by
  rcases hstep.cases hi.total_le with rfl | ⟨page, hlt, hfree, rfl⟩ | ⟨a, ha, rfl⟩
  · exact hi
  · have hne : page * pmmPageSize ≠ 0 := Nat.mul_ne_zero (hi.ne_zero hfree) (by decide)
    rw [if_neg hne]
    exact hi.take hlt hfree
  · exact hi.free ha

/-- Exclusive ownership of frames: after `pmm_init` and any calls in which callers free only
frames they hold, a non-`NULL` address returned by `pmm_alloc_page` is page aligned, below
`total_pages`, not frame 0, disjoint from the kernel image, and held by nobody else. -/
theorem pmmAllocPage_exclusive_of_run {fuel : ℕ} {mem : Mem} {mbi : MultibootInfo} {ks ke : ℕ}
    (hle : ks ≤ ke) (hmax : ke ≤ 256 * 1024 * 1024) {p₀ : PmmState}
    (hinit : pmmInit fuel mem mbi ks ke = some p₀) {ops : List PmmOp} {s : PmmOwners}
    (hrun : Run PmmStep ⟨p₀, ∅⟩ ops s) {r : ℕ} {p' : PmmState}
    (halloc : pmmAllocPage s.pmm = (r, p')) (hr : r ≠ 0) :
    pmmPageSize ∣ r ∧ r / pmmPageSize < s.pmm.totalPages ∧ r / pmmPageSize ≠ 0 ∧
      (∀ x, r ≤ x → x < r + pmmPageSize → ¬(ks ≤ x ∧ x < ke)) ∧ r ∉ s.held := by
  have hi : PmmInv ks ke s := hrun.invariant (fun _ s => PmmInv ks ke s)
    (pmmInv_pmmInit hle hmax hinit) fun _ _ _ _ hi hstep => hi.step hstep
  rcases pmmAllocPage_spec s.pmm hi.total_le with ⟨hnull, -⟩ | ⟨page, hlt, hpage, hfree, -⟩
  · exact absurd (Prod.mk.inj (halloc.symm.trans hnull)).1 hr
  · obtain ⟨rfl, -⟩ := Prod.mk.inj (halloc.symm.trans hpage)
    have hframe : page * pmmPageSize / pmmPageSize = page := Nat.mul_div_cancel _ (by decide)
    refine ⟨Nat.dvd_mul_left _ _, by rwa [hframe], by rw [hframe]; exact hi.ne_zero hfree,
      ?_, ?_⟩
    · -- An address in the page and in the image would be in a frame that is marked used.
      rintro x h1 h2 ⟨hx, hxe⟩
      refine hi.ne_kernel hfree x hx hxe ?_
      simp only [pmmPageSize] at h1 h2 ⊢
      omega
    · -- A held frame is marked used, and the allocator took a free one.
      intro hheld
      obtain ⟨j, hj, -, -, hjset, -⟩ := hi.held_frame _ hheld
      have hjp : page = j := Nat.eq_of_mul_eq_mul_right (by decide) hj
      rw [hjp, hjset] at hfree
      cases hfree

/-- A memory map with one available region, frames 1 to 3. -/
def threeFrameMap : Mem :=
  (((Mem.store32 (fun _ => 0) 0x9000 20).store32 0x9004 0x1000).store32 0x900C 0x3000).store32
    0x9014 1

/-- `pmm_init` on `threeFrameMap`, with the kernel image in frame 2. -/
def threeFrameInit : Option PmmState :=
  pmmInit 2 threeFrameMap ⟨mbootFlagMem + mbootFlagMmap, 0, 24, 0x9000⟩ 0x2000 0x3000

/-- On `threeFrameMap` the second allocation skips the kernel's frame and returns frame 3, while
frame 1 is held. -/
theorem pmmAllocPage_exclusive_of_run_second :
    ∃ p₀ s p', threeFrameInit = some p₀ ∧ Run PmmStep ⟨p₀, ∅⟩ [.allocPage 0x1000] s ∧
      pmmAllocPage s.pmm = (0x3000, p') ∧ 0x3000 ∉ s.held := by
  obtain ⟨p₀, hinit⟩ := Option.isSome_iff_exists.mp (show threeFrameInit.isSome by decide +kernel)
  have hall : ∀ q ∈ threeFrameInit, (pmmAllocPage q).1 = 0x1000 ∧
      (pmmAllocPage (pmmAllocPage q).2).1 = 0x3000 := by decide +kernel
  have hfirst : pmmAllocPage p₀ = (0x1000, (pmmAllocPage p₀).2) :=
    Prod.ext (hall p₀ hinit).1 rfl
  have hsecond : pmmAllocPage (pmmAllocPage p₀).2 =
      (0x3000, (pmmAllocPage (pmmAllocPage p₀).2).2) := Prod.ext (hall p₀ hinit).2 rfl
  have hrun : Run PmmStep ⟨p₀, ∅⟩ ([] ++ [.allocPage 0x1000])
      ⟨(pmmAllocPage p₀).2, {0x1000}⟩ := .snoc (.nil _) ⟨hfirst, rfl⟩
  have hown := pmmAllocPage_exclusive_of_run (by decide) (by decide) hinit hrun hsecond (by decide)
  exact ⟨p₀, _, _, hinit, hrun, hsecond, hown.2.2.2.2⟩

end Lightstreak
