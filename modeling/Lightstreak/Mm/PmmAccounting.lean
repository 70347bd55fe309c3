import Lightstreak.Mm.PmmOwnership

/-!
# Frame accounting of the physical memory manager

`pmm_init` takes the number of frames it manages from `mem_upper`, and the frames it frees from
the memory map. `used_pages` counts every frame of the bitmap, those behind `total_pages`
included, so that the statistics are right exactly when the map frees no frame there.

* `bitTest_pmmInit`: which frames are free after `pmm_init`, in terms of the memory map;
* `Accounted`: `used_pages` and the free frames of the whole bitmap add up to `total_pages`, modulo
  2^32, after every call with every argument (`accounted_of_calls`);
* `frameStats_iff`: the statistics are exact in every later state if and only if no frame behind
  `total_pages` is freed.
-/

namespace Lightstreak

open SysLib

variable {p q : PmmState} {mem : Mem} {mbi : MultibootInfo} {fuel off ks ke f i : ℕ}

/-! ## Statistics -/

/-- `pmm_get_total_pages()` -/
def pmmGetTotalPages (p : PmmState) : ℕ := p.totalPages

/-- `pmm_get_free_pages()` -/
def pmmGetFreePages (p : PmmState) : ℕ := sub32 p.totalPages p.usedPages

/-- `pmm_get_used_pages()` -/
def pmmGetUsedPages (p : PmmState) : ℕ := p.usedPages

/-- `meminfo_t` -/
structure Meminfo where
  /-- All frames. -/
  totalPages : ℕ
  /-- The frames that are free. -/
  freePages : ℕ
  /-- The frames that are used. -/
  usedPages : ℕ
deriving DecidableEq, Repr

/-- `sys_meminfo(info)` of `kernel/syscall/syscall.c`, with the record it is given, `none` for
`NULL`. -/
def sysMeminfo (p : PmmState) : Option Meminfo → ℤ × Option Meminfo
  | none => (-1, none)
  | some _ => (0, some ⟨pmmGetTotalPages p, pmmGetFreePages p, pmmGetUsedPages p⟩)

/-! ## The frames that `pmm_init` frees -/

/-- The frames of a memory-map entry that `pmm_init` frees. -/
def MmapEntry.freedFrames (e : MmapEntry) : List ℕ :=
  if e.type = mbootMmapTypeAvailable ∧ e.baseHigh = 0 then
    let length :=
      if e.lengthHigh = 0 then e.lengthLow else add32 (sub32 0xFFFFFFFF e.baseLow) 1
    pageRange (e.baseLow / pmmPageSize) (add32 e.baseLow length / pmmPageSize)
  else []

/-- The entries of the memory map from offset `off` on, as the walk of `pmm_init` visits them. -/
def MmapWalk (mem : Mem) (mbi : MultibootInfo) : ℕ → List MmapEntry → Prop
  | off, [] => mbi.mmapLength ≤ off
  | off, e :: es => off < mbi.mmapLength ∧ e = loadMmapEntry mem (add32 mbi.mmapAddr off) ∧
    MmapWalk mem mbi (add32 off (add32 e.size 4)) es

/-- The boot information says that frame `f` is available: an entry of the memory map does, or, if
there is no map, the frame lies between 1 MB and the end of memory. -/
def AvailableFrame (mem : Mem) (mbi : MultibootInfo) (f : ℕ) : Prop :=
  if mbi.flags &&& mbootFlagMmap ≠ 0 then
    ∃ es, MmapWalk mem mbi 0 es ∧ ∃ e ∈ es, f ∈ e.freedFrames
  else 256 ≤ f ∧ f < mbiTotalPages mbi

/-- The frames of the kernel image, as `pmm_init` marks them. -/
def kernelFrames (kernelStart kernelEnd : ℕ) : List ℕ :=
  pageRange (kernelStart / pmmPageSize)
    (sub32 (add32 (add32 kernelStart (sub32 kernelEnd kernelStart)) pmmPageSize) 1 / pmmPageSize)

/-- An entry of the map frees one frame after the other. -/
theorem freeMmapEntry_eq (p : PmmState) (e : MmapEntry) :
    freeMmapEntry p e = e.freedFrames.foldl PmmState.freeFrame p := by
  unfold freeMmapEntry MmapEntry.freedFrames
  by_cases htype : e.type = mbootMmapTypeAvailable
  · by_cases hbase : e.baseHigh = 0
    · by_cases hlen : e.lengthHigh = 0
      · simp [htype, hbase, hlen, pmmFreeRegion]
      · simp [htype, hbase, hlen, pmmFreeRegion]
    · simp [htype, hbase]
  · simp [htype]

/-- A memory has one memory map. -/
theorem MmapWalk.unique {es es' : List MmapEntry} (h : MmapWalk mem mbi off es)
    (h' : MmapWalk mem mbi off es') : es = es' := by
  induction es generalizing off es' with
  | nil =>
    cases es' with
    | nil => rfl
    | cons e' es' => exact absurd h'.1 (Nat.not_lt.mpr h)
  | cons e es ih =>
    cases es' with
    | nil => exact absurd h.1 (Nat.not_lt.mpr h')
    | cons e' es' =>
      obtain ⟨-, rfl, hrest⟩ := h
      obtain ⟨-, rfl, hrest'⟩ := h'
      rw [ih hrest hrest']

/-- A walk that ends has visited a finite map, and freed its entries one after the other. -/
theorem exists_mmapWalk (h : loop (mmapTurn mem mbi) fuel (off, p) = some q) :
    ∃ es, MmapWalk mem mbi off es ∧ q = es.foldl freeMmapEntry p := by
  induction fuel generalizing off p with
  | zero => cases h
  | succ fuel ih =>
    by_cases hlt : off < mbi.mmapLength
    · rw [loop_of_inl (by simp only [mmapTurn, if_pos hlt]; rfl)] at h
      obtain ⟨es, hwalk, rfl⟩ := ih h
      exact ⟨_ :: es, ⟨hlt, rfl, hwalk⟩, rfl⟩
    · rw [loop_of_inr (by simp only [mmapTurn, if_neg hlt]; rfl)] at h
      exact ⟨[], Nat.not_lt.mp hlt, (Option.some.inj h).symm⟩

/-- A walk of a finite map ends. -/
theorem MmapWalk.exists_pmmInit {es : List MmapEntry} (h : MmapWalk mem mbi 0 es) (ks ke : ℕ) :
    ∃ p, pmmInit (es.length + 1) mem mbi ks ke = some p := by
  -- One turn for each entry, and one that finds the end.
  have hloop : ∀ off p, MmapWalk mem mbi off es →
      ∃ q, loop (mmapTurn mem mbi) (es.length + 1) (off, p) = some q := by
    clear h
    induction es with
    | nil =>
      intro off p hend
      exact ⟨p, loop_of_inr (by simp only [mmapTurn, if_neg (Nat.not_lt.mpr hend)]) _⟩
    | cons e es ih =>
      rintro off p ⟨hlt, rfl, hrest⟩
      obtain ⟨q, hq⟩ := ih _ (freeMmapEntry p (loadMmapEntry mem (add32 mbi.mmapAddr off))) hrest
      exact ⟨q, (loop_of_inl (by simp only [mmapTurn, if_pos hlt]) _).trans hq⟩
  rw [pmmInit, pmmFreeAvailable]
  split
  · obtain ⟨q, hq⟩ := hloop 0 (pmmAllUsed mbi) h
    exact ⟨_, by rw [hq, Option.map_some]⟩
  · exact ⟨_, rfl⟩

/-- Freeing a frame clears its bit. -/
theorem bitTest_freeFrame (p : PmmState) (i j : ℕ) :
    (p.freeFrame i).bitTest j = (!decide (j = i) && p.bitTest j) := by
  unfold PmmState.freeFrame
  split
  next => exact Bitmap.test_clear p.bitmap i j
  next hclear =>
    by_cases hj : j = i
    · simp [hj, hclear]
    · simp [hj]

/-- Freeing a list of frames clears exactly those bits. -/
theorem bitTest_foldl_freeFrame (l : List ℕ) (p : PmmState) (j : ℕ) :
    (l.foldl PmmState.freeFrame p).bitTest j = (!decide (j ∈ l) && p.bitTest j) := by
  induction l generalizing p with
  | nil => simp
  | cons i l ih =>
    rw [List.foldl_cons, ih, bitTest_freeFrame]
    by_cases hj : j = i
    · simp [hj]
    · simp [hj]

/-- A frame is free after some entries if one of them frees it or it was free. -/
theorem bitTest_foldl_freeMmapEntry (es : List MmapEntry) (p : PmmState) (j : ℕ) :
    (es.foldl freeMmapEntry p).bitTest j = false ↔
      (∃ e ∈ es, j ∈ e.freedFrames) ∨ p.bitTest j = false := by
  induction es generalizing p with
  | nil => simp
  | cons e es ih =>
    rw [List.foldl_cons, ih, freeMmapEntry_eq, bitTest_foldl_freeFrame]
    simp only [Bool.and_eq_false_iff, Bool.not_eq_false', decide_eq_true_eq, List.mem_cons,
      exists_eq_or_imp, or_assoc, or_left_comm]

theorem bitTest_pmmAllUsed (mbi : MultibootInfo) (j : ℕ) : (pmmAllUsed mbi).bitTest j = true := by
  have hword := Bitmap.test_of_word_full (m := (pmmAllUsed mbi).bitmap) (i := j / 32) rfl
    (Nat.mod_lt j (by decide : 32 > 0))
  rwa [Nat.div_add_mod' j 32] at hword

/-- Without a memory map, the region that `pmm_init` frees ends with the last frame. -/
theorem mem_pageRange_noMap (mbi : MultibootInfo) :
    f ∈ pageRange (0x100000 / pmmPageSize) (add32 0x100000
        (mul32 (sub32 (mbiTotalPages mbi) 256) pmmPageSize) / pmmPageSize) ↔
      256 ≤ f ∧ f < mbiTotalPages mbi := by
  have hmax := mbiTotalPages_le mbi
  -- The number of bytes wraps if there is less than 1 MB, and then no frame is freed.
  rw [mem_pageRange]
  simp only [pmmPageSize, pmmPagesMax, add32, sub32, mul32] at *
  omega

/-- After the walk the frames of the available regions are free. -/
theorem bitTest_pmmFreeAvailable (h : pmmFreeAvailable fuel mem mbi = some p) (f : ℕ) :
    p.bitTest f = false ↔ AvailableFrame mem mbi f := by
  unfold pmmFreeAvailable at h
  unfold AvailableFrame
  by_cases hflag : mbi.flags &&& mbootFlagMmap ≠ 0
  · simp only [if_pos hflag] at h ⊢
    -- There is only one walk, so that its entries are those of the definition.
    obtain ⟨es, hwalk, rfl⟩ := exists_mmapWalk h
    rw [bitTest_foldl_freeMmapEntry, bitTest_pmmAllUsed]
    constructor
    · rintro (hfree | hfree)
      · exact ⟨es, hwalk, hfree⟩
      · cases hfree
    · rintro ⟨es', hwalk', hfree⟩
      exact .inl (hwalk.unique hwalk' ▸ hfree)
  · -- Without a map all memory from 1 MB on is freed.
    simp only [if_neg hflag, Option.some.injEq] at h ⊢
    have htot : (pmmAllUsed mbi).totalPages = mbiTotalPages mbi := rfl
    rw [htot] at h
    rw [← h, pmmFreeRegion, bitTest_foldl_freeFrame, bitTest_pmmAllUsed, ← mem_pageRange_noMap]
    simp

/-- After `pmm_init` a frame is free exactly if it is available and neither frame 0 nor a frame of
the kernel image. -/
theorem bitTest_pmmInit (h : pmmInit fuel mem mbi ks ke = some p) (f : ℕ) :
    p.bitTest f = false ↔ AvailableFrame mem mbi f ∧ f ≠ 0 ∧ f ∉ kernelFrames ks ke := by
  obtain ⟨q, hq, rfl⟩ := Option.map_eq_some_iff.mp h
  rw [← bitTest_pmmFreeAvailable hq f]
  simp only [pmmProtect, pmmMarkRegionUsed, bitTest_foldl_markFrame, bitTest_markFrame,
    kernelFrames, Bool.or_eq_false_iff, decide_eq_false_iff_not]
  tauto

/-! ## Accounting -/

/-- `used_pages` and the free frames of the whole bitmap add up to `total_pages`, modulo 2^32. -/
structure Accounted (p : PmmState) : Prop where
  /-- Each clear bit of the bitmap has been taken from the count. -/
  sum : add32 p.usedPages (p.bitmap.clearCount pmmPagesMax) = p.totalPages
  /-- The count is a word. -/
  used_lt : p.usedPages < 2 ^ 32
  /-- The frames are in the bitmap. -/
  total_le : p.totalPages ≤ pmmPagesMax

/-- Clearing a set bit and counting down keeps the account. -/
theorem Accounted.clearFrame (h : Accounted p) (hi : i < pmmPagesMax) (hset : p.bitTest i = true) :
    Accounted { p.bitClear i with usedPages := sub32 p.usedPages 1 } := by
  have hcount : (p.bitClear i).bitmap.clearCount pmmPagesMax = _ :=
    Bitmap.clearCount_clear hi hset
  have hsum := h.sum
  refine ⟨?_, Nat.mod_lt _ (by decide), h.total_le⟩
  show add32 (sub32 p.usedPages 1) ((p.bitClear i).bitmap.clearCount pmmPagesMax) = p.totalPages
  rw [hcount, ← hsum]
  simp only [add32, sub32]
  omega

/-- Taking a free frame keeps the account. -/
theorem Accounted.take (h : Accounted p) (hi : i < pmmPagesMax) (hclear : p.bitTest i = false) :
    Accounted (p.take i) := by
  have hcount : (p.bitSet i).bitmap.clearCount pmmPagesMax + 1 = _ :=
    Bitmap.clearCount_set hi hclear
  have hsum := h.sum
  refine ⟨?_, Nat.mod_lt _ (by decide), h.total_le⟩
  show add32 (add32 p.usedPages 1) ((p.bitSet i).bitmap.clearCount pmmPagesMax) = p.totalPages
  rw [← hsum, ← hcount]
  simp only [add32]
  omega

/-- Freeing a frame keeps the account. -/
theorem Accounted.freeFrame (h : Accounted p) (hi : i < pmmPagesMax) :
    Accounted (p.freeFrame i) := by
  unfold PmmState.freeFrame
  split
  next hset => exact h.clearFrame hi hset
  next => exact h

/-- Marking a frame as used keeps the account. -/
theorem Accounted.markFrame (h : Accounted p) (hi : i < pmmPagesMax) :
    Accounted (p.markFrame i) := by
  unfold PmmState.markFrame
  split
  next => exact h
  next hclear => exact h.take hi (by simpa using hclear)

/-- A loop over frames of the bitmap keeps the sum if its body does. -/
theorem Accounted.foldl {g : PmmState → ℕ → PmmState} (h : Accounted p)
    (hg : ∀ p i, Accounted p → i < pmmPagesMax → Accounted (g p i)) {l : List ℕ}
    (hl : ∀ i ∈ l, i < pmmPagesMax) : Accounted (l.foldl g p) := by
  induction l generalizing p with
  | nil => exact h
  | cons i l ih =>
    exact ih (hg p i h (hl i (by simp))) fun j hj => hl j (by simp [hj])

theorem lt_of_mem_pageRange {page stop : ℕ} (h : i ∈ pageRange page stop) : i < pmmPagesMax :=
  (mem_pageRange.mp h).2.2

/-- A frame that an entry frees is in the bitmap. -/
theorem lt_of_mem_freedFrames {e : MmapEntry} (h : i ∈ e.freedFrames) : i < pmmPagesMax := by
  unfold MmapEntry.freedFrames at h
  split at h
  · exact lt_of_mem_pageRange h
  · cases h

/-- At first all frames are accounted for. -/
theorem accounted_pmmAllUsed (mbi : MultibootInfo) : Accounted (pmmAllUsed mbi) := by
  have hmax := mbiTotalPages_le mbi
  have hlt : pmmPagesMax < 2 ^ 32 := by decide
  have hnone : (pmmAllUsed mbi).bitmap.clearCount pmmPagesMax = 0 := by
    rw [Bitmap.clearCount, Finset.card_eq_zero, Finset.eq_empty_iff_forall_notMem]
    intro j hj
    have := (Bitmap.mem_clearBits.mp hj).2.symm.trans (bitTest_pmmAllUsed mbi j)
    cases this
  refine ⟨?_, ?_, hmax⟩
  · rw [hnone]
    exact add32_eq (show mbiTotalPages mbi + 0 < 2 ^ 32 by omega)
  · exact Nat.lt_of_le_of_lt hmax hlt

theorem Accounted.foldl_freeFrame {l : List ℕ} (hl : ∀ i ∈ l, i < pmmPagesMax)
    (h : Accounted p) : Accounted (l.foldl PmmState.freeFrame p) :=
  h.foldl (fun _ _ hp hi => hp.freeFrame hi) hl

/-- Freeing some regions keeps the account. -/
theorem Accounted.foldl_freeMmapEntry (es : List MmapEntry) (h : Accounted p) :
    Accounted (es.foldl freeMmapEntry p) := by
  induction es generalizing p with
  | nil => exact h
  | cons e es ih =>
    rw [List.foldl_cons, freeMmapEntry_eq]
    exact ih (h.foldl_freeFrame fun i hi => lt_of_mem_freedFrames hi)

/-- After `pmm_init` all frames are accounted for. -/
theorem accounted_pmmInit (h : pmmInit fuel mem mbi ks ke = some p) : Accounted p := by
  obtain ⟨q, hq, rfl⟩ := Option.map_eq_some_iff.mp h
  have hall := accounted_pmmAllUsed mbi
  have hacc : Accounted q := by
    unfold pmmFreeAvailable at hq
    dsimp only at hq
    split at hq
    · obtain ⟨es, -, rfl⟩ := exists_mmapWalk hq
      exact hall.foldl_freeMmapEntry es
    · rw [← Option.some.inj hq]
      exact hall.foldl_freeFrame fun i hi => lt_of_mem_pageRange hi
  exact (hacc.markFrame (by decide)).foldl (fun _ _ hp hi => hp.markFrame hi)
    fun i hi => lt_of_mem_pageRange hi

/-! ## Calls -/

/-- A call to the allocator with any argument. -/
inductive PmmCall
  | allocPage
  | freePage (addr : UInt32)
deriving DecidableEq, Repr

/-- The state after a call. -/
def PmmCall.exec (p : PmmState) : PmmCall → PmmState
  | .allocPage => (pmmAllocPage p).2
  | .freePage addr => pmmFreePage p addr.toNat

/-- A call takes a free frame, or gives back a used one, below `total_pages`, or does nothing. -/
theorem PmmCall.exec_cases (hmax : p.totalPages ≤ pmmPagesMax) (c : PmmCall) :
    c.exec p = p ∨
      (∃ i < p.totalPages, p.bitTest i = false ∧ c.exec p = p.take i) ∨
      ∃ i < p.totalPages, p.bitTest i = true ∧
        c.exec p = { p.bitClear i with usedPages := sub32 p.usedPages 1 } := by
  cases c with
  | allocPage =>
    rcases pmmAllocPage_spec p hmax with ⟨hnull, -⟩ | ⟨i, hlt, hpage, hfree, -⟩
    · exact .inl (congrArg Prod.snd hnull)
    · exact .inr (.inl ⟨i, hlt, hfree, congrArg Prod.snd hpage⟩)
  | freePage addr =>
    simp only [PmmCall.exec, pmmFreePage]
    by_cases hge : p.totalPages ≤ addr.toNat / pmmPageSize
    · exact .inl (if_pos hge)
    · by_cases hset : p.bitTest (addr.toNat / pmmPageSize) = true
      · refine .inr (.inr ⟨_, Nat.not_le.mp hge, hset, ?_⟩)
        rw [if_neg hge, if_pos hset]
      · -- A page that is free already.
        rw [if_neg hge, if_neg hset]
        exact .inl rfl

/-- Every call keeps the account. -/
theorem Accounted.exec (h : Accounted p) (c : PmmCall) : Accounted (c.exec p) := by
  have hmax := h.total_le
  rcases c.exec_cases hmax with heq | ⟨i, hlt, hclear, heq⟩ | ⟨i, hlt, hset, heq⟩
  · rwa [heq]
  · rw [heq]
    exact h.take (by omega) hclear
  · rw [heq]
    exact h.clearFrame (by omega) hset

/-- A call never touches the frames behind `total_pages`, nor `total_pages` itself. -/
theorem PmmCall.exec_frame (hmax : p.totalPages ≤ pmmPagesMax) (c : PmmCall) :
    (c.exec p).totalPages = p.totalPages ∧
      ∀ j, p.totalPages ≤ j → (c.exec p).bitTest j = p.bitTest j := by
  rcases c.exec_cases hmax with heq | ⟨i, hlt, -, heq⟩ | ⟨i, hlt, -, heq⟩
  · rw [heq]
    exact ⟨rfl, fun _ _ => rfl⟩
  · rw [heq]
    refine ⟨rfl, fun j hj => ?_⟩
    have hne : j ≠ i := by omega
    exact (bitTest_bitSet p i j).trans (by simp [hne])
  · rw [heq]
    refine ⟨rfl, fun j hj => ?_⟩
    have hne : j ≠ i := by omega
    exact (Bitmap.test_clear p.bitmap i j).trans (by simp [hne, PmmState.bitTest])

/-- The sum is kept by any calls with any arguments, and so are the frames behind
`total_pages`. -/
theorem accounted_of_calls (h : Accounted p) (calls : List PmmCall) :
    Accounted (calls.foldl PmmCall.exec p) ∧
      (calls.foldl PmmCall.exec p).totalPages = p.totalPages ∧
      ∀ j, p.totalPages ≤ j → (calls.foldl PmmCall.exec p).bitTest j = p.bitTest j := by
  induction calls generalizing p with
  | nil => exact ⟨h, rfl, fun _ _ => rfl⟩
  | cons c calls ih =>
    obtain ⟨htot, hbits⟩ := c.exec_frame h.total_le
    obtain ⟨hacc, htot', hbits'⟩ := ih (h.exec c)
    refine ⟨hacc, htot'.trans htot, fun j hj => ?_⟩
    rw [List.foldl_cons, hbits' j (by omega), hbits j hj]

/-! ## Exact statistics -/

/-- The statistics are those of the frames below `total_pages`: `used_pages` is the number of set
bits, the free pages are the frames that can be allocated, and no subtraction wraps. -/
structure FrameStats (p : PmmState) : Prop where
  /-- The count is the number of set bits. -/
  used : p.usedPages = p.bitmap.setCount p.totalPages
  /-- There are not more used frames than frames. -/
  used_le : p.usedPages ≤ p.totalPages
  /-- The free frames are the clear bits. -/
  free : pmmGetFreePages p = p.bitmap.clearCount p.totalPages
  /-- The system call reports these numbers. -/
  meminfo : ∀ info, sysMeminfo p (some info) = (0, some ⟨p.totalPages,
    p.bitmap.clearCount p.totalPages, p.bitmap.setCount p.totalPages⟩)

/-- The statistics are exact as soon as the count of used frames is. -/
theorem Accounted.frameStats (h : Accounted p)
    (hused : p.usedPages = p.bitmap.setCount p.totalPages) : FrameStats p := by
  have hadd := p.bitmap.setCount_add_clearCount p.totalPages
  have hlt := h.used_lt
  have hmax : p.totalPages ≤ 65536 := h.total_le
  have hfree : pmmGetFreePages p = p.bitmap.clearCount p.totalPages := by
    rw [pmmGetFreePages, sub32_eq (by omega) (by omega)]
    omega
  refine ⟨hused, by omega, hfree, fun info => ?_⟩
  rw [sysMeminfo, hfree, pmmGetUsedPages, hused, pmmGetTotalPages]

/-- The count of used frames is exact if and only if no frame behind `total_pages` is free. -/
theorem Accounted.used_eq_iff (h : Accounted p) :
    p.usedPages = p.bitmap.setCount p.totalPages ↔
      ∀ j, p.totalPages ≤ j → j < pmmPagesMax → p.bitTest j = true := by
  have hsum := h.sum
  have hlt := h.used_lt
  have hmax : p.totalPages ≤ pmmPagesMax := h.total_le
  have hadd := p.bitmap.setCount_add_clearCount p.totalPages
  have hle := p.bitmap.clearCount_le pmmPagesMax
  have hmono := Bitmap.clearCount_mono (m := p.bitmap) hmax
  have hcap : pmmPagesMax = 65536 := rfl
  refine Iff.trans ?_ (Bitmap.clearCount_eq_iff hmax)
  unfold add32 at hsum
  constructor <;> intro <;> omega

/-- Frame accounting: the statistics are exact after `pmm_init` and any calls with any arguments,
if and only if the boot information makes no frame available behind `total_pages` that is not a
frame of the kernel image. -/
theorem frameStats_iff (hinit : pmmInit fuel mem mbi ks ke = some p) :
    (∀ calls : List PmmCall, FrameStats (calls.foldl PmmCall.exec p)) ↔
      ∀ f, mbiTotalPages mbi ≤ f → f < pmmPagesMax → AvailableFrame mem mbi f →
        f = 0 ∨ f ∈ kernelFrames ks ke := by
  have hacc := accounted_pmmInit hinit
  have htot := totalPages_pmmInit hinit
  -- What the condition says of the state after `pmm_init`.
  have hcond : (∀ f, mbiTotalPages mbi ≤ f → f < pmmPagesMax → AvailableFrame mem mbi f →
      f = 0 ∨ f ∈ kernelFrames ks ke) ↔
      ∀ f, p.totalPages ≤ f → f < pmmPagesMax → p.bitTest f = true := by
    rw [htot]
    refine forall₃_congr fun f _ _ => ?_
    rw [← not_iff_not, Bool.not_eq_true, bitTest_pmmInit hinit]
    tauto
  rw [hcond]
  constructor
  · intro hstats
    exact hacc.used_eq_iff.mp (hstats []).used
  · intro hset calls
    obtain ⟨hacc', htot', hbits⟩ := accounted_of_calls hacc calls
    refine hacc'.frameStats (hacc'.used_eq_iff.mpr fun j hj hlt => ?_)
    rw [hbits j (by omega)]
    exact hset j (by omega) hlt

/-- A memory map with 256 KB of available memory at `0x180000`, and as much that is reserved behind
it. -/
def twoEntryMap : Mem :=
  Mem.store32 (fun _ => 0) 0x9000 20 |>.store32 0x9004 0x180000 |>.store32 0x900C 0x40000
    |>.store32 0x9014 1 |>.store32 0x9018 20 |>.store32 0x901C 0x1C0000 |>.store32 0x9024 0x40000
    |>.store32 0x902C 2

/-- The boot information that goes with `twoEntryMap`, with 1 MB of upper memory. -/
def twoEntryInfo : MultibootInfo := ⟨mbootFlagMem + mbootFlagMmap, 1024, 48, 0x9000⟩

/-- The available memory of `twoEntryMap` lies below the end of memory, and the statistics are
exact. -/
theorem frameStats_iff_twoEntryMap :
    ∃ p, pmmInit 3 twoEntryMap twoEntryInfo 0x100000 0x110000 = some p ∧
      pmmGetFreePages p = 64 ∧ ∀ calls : List PmmCall, FrameStats (calls.foldl PmmCall.exec p) := by
  have hsecond : add32 0 (add32 (loadMmapEntry twoEntryMap 0x9000).size 4) = 24 := by
    decide +kernel
  have hend : add32 24 (add32 (loadMmapEntry twoEntryMap 0x9018).size 4) = 48 := by decide +kernel
  have hwalk : MmapWalk twoEntryMap twoEntryInfo 0
      [loadMmapEntry twoEntryMap 0x9000, loadMmapEntry twoEntryMap 0x9018] := by
    refine ⟨by decide, rfl, ?_⟩
    rw [hsecond]
    refine ⟨by decide, rfl, ?_⟩
    rw [hend]
    exact Nat.le_refl 48
  have hfreed : ∀ e ∈ [loadMmapEntry twoEntryMap 0x9000, loadMmapEntry twoEntryMap 0x9018],
      ∀ f ∈ e.freedFrames, f < mbiTotalPages twoEntryInfo := by decide +kernel
  have hfree : ∀ q ∈ pmmInit 3 twoEntryMap twoEntryInfo 0x100000 0x110000,
      pmmGetFreePages q = 64 := by decide +kernel
  obtain ⟨p, hinit⟩ := hwalk.exists_pmmInit 0x100000 0x110000
  refine ⟨p, hinit, hfree p hinit, (frameStats_iff hinit).mpr fun f hge _ havail => ?_⟩
  rw [AvailableFrame, if_pos (by decide)] at havail
  obtain ⟨es, hes, e, he, hf⟩ := havail
  obtain rfl := hes.unique hwalk
  exact absurd (hfreed e he f hf) (Nat.not_lt.mpr hge)

/-- A memory map with one available region, two frames at 16 MB. -/
def holeMap : Mem :=
  (((Mem.store32 (fun _ => 0) 0x9000 20).store32 0x9004 0x1000000).store32 0x900C 0x2000).store32
    0x9014 1

/-- `pmm_init` on `holeMap`, when the boot loader reports 1 MB of upper memory because a hole
follows it. -/
def holeInit : Option PmmState :=
  pmmInit 2 holeMap ⟨mbootFlagMem + mbootFlagMmap, 1024, 24, 0x9000⟩ 0x100000 0x110000

/-- The two frames behind the hole are counted as free: all 512 frames are used, `used_pages` is
510, and an allocation fails although two pages are reported free. -/
theorem not_frameStats_holeInit :
    ∃ p, holeInit = some p ∧ ¬FrameStats p ∧ p.totalPages = 512 ∧
      p.bitmap.setCount 512 = 512 ∧ p.usedPages = 510 ∧ pmmGetFreePages p = 2 ∧
      (pmmAllocPage p).1 = 0 := by
  obtain ⟨p, hinit⟩ := Option.isSome_iff_exists.mp (show holeInit.isSome by decide +kernel)
  have hall : ∀ q ∈ holeInit, q.totalPages = 512 ∧ q.bitmap.setCount 512 = 512 ∧
      q.usedPages = 510 ∧ pmmGetFreePages q = 2 ∧ (pmmAllocPage q).1 = 0 := by decide +kernel
  obtain ⟨htot, hset, hused, hfree, hnull⟩ := hall p hinit
  refine ⟨p, hinit, fun hstats => ?_, htot, hset, hused, hfree, hnull⟩
  have heq := hstats.used
  rw [htot, hset, hused] at heq
  cases heq

end Lightstreak
