import Mathlib.Data.Set.Finite.Basic
import Mathlib.Order.CompletePartialOrder
import Mathlib.Order.Interval.Set.Disjoint
import Mathlib.Order.Interval.Set.LinearOrder
import Lightstreak.Mm.PmmSearch

/-!
# Memory maps and the frames they free

The entries of a Multiboot memory map are byte ranges with 64-bit bounds; `pmm_init` turns the
available ones into frames in 32-bit arithmetic. It rounds their base down, it never looks at the
other entries, and an entry that reaches the 4 GB boundary frees nothing, because its end wraps to
an address below its base. The step of the walk is a sum of an entry's `size` and 4, which may be 0.

* `mem_freedFrames_iff`: the frames an entry frees, in terms of its 64-bit bounds;
* `freesOnlyRam_iff`: only available memory is freed exactly when the partial first frames are
  available too and no entry of another type touches the frames of an available one;
* `findsAllRam_iff`: all available memory is found exactly when the size in bytes does not wrap
  below 256 MB and entries that reach 4 GB are not needed;
* `mmapWalk_ends_iff`: the walk ends exactly when it visits no offset twice.
-/

namespace Lightstreak

open SysLib

variable {p : PmmState} {mem : Mem} {mbi : MultibootInfo} {e : MmapEntry} {es : List MmapEntry}
  {off ks ke f x : ℕ}

/-! ## Byte ranges -/

namespace MmapEntry

/-- The 64-bit base of the entry. -/
def base (e : MmapEntry) : ℕ := e.baseHigh * 2 ^ 32 + e.baseLow

/-- The first address behind the entry. -/
def limit (e : MmapEntry) : ℕ := e.base + (e.lengthHigh * 2 ^ 32 + e.lengthLow)

/-- The bytes of the entry. -/
def bytes (e : MmapEntry) : Set ℕ := Set.Ico e.base e.limit

/-- The entry is usable memory. -/
def Available (e : MmapEntry) : Prop := e.type = mbootMmapTypeAvailable

instance (e : MmapEntry) : Decidable e.Available :=
  inferInstanceAs (Decidable (e.type = mbootMmapTypeAvailable))

/-- The frame lies in the range that `pmm_init` computes for the entry, from its base rounded down
to its limit rounded down. -/
def InRange (e : MmapEntry) (f : ℕ) : Prop :=
  e.base / pmmPageSize ≤ f ∧ f < e.limit / pmmPageSize

/-- The fields are 32-bit words. -/
structure Words (e : MmapEntry) : Prop where
  /-- The low half of the base is a word. -/
  baseLow_lt : e.baseLow < 2 ^ 32
  /-- The low half of the length is a word. -/
  lengthLow_lt : e.lengthLow < 2 ^ 32

end MmapEntry

/-- The bytes of a frame. -/
def frameBytes (f : ℕ) : Set ℕ := Set.Ico (f * pmmPageSize) ((f + 1) * pmmPageSize)

/-- The fields that the walk reads are words. -/
theorem MmapWalk.words (h : MmapWalk mem mbi off es) : ∀ e ∈ es, e.Words := by
  induction es generalizing off with
  | nil => simp
  | cons e es ih =>
    obtain ⟨-, rfl, hrest⟩ := h
    exact List.forall_mem_cons.mpr ⟨⟨mem.load32_lt _, mem.load32_lt _⟩, ih hrest⟩

/-- An available entry frees its range if it ends below 4 GB, and otherwise nothing. -/
theorem mem_freedFrames_iff (hw : e.Words) :
    f ∈ e.freedFrames ↔ e.Available ∧ e.limit < 2 ^ 32 ∧ e.InRange f ∧ f < pmmPagesMax := by
  obtain ⟨hb, hl⟩ := hw
  unfold MmapEntry.freedFrames MmapEntry.Available MmapEntry.InRange MmapEntry.limit MmapEntry.base
  by_cases htype : e.type = mbootMmapTypeAvailable
  · by_cases hbase : e.baseHigh = 0
    · by_cases hlen : e.lengthHigh = 0
      · -- The sum of base and length wraps exactly if the entry reaches 4 GB.
        simp only [htype, hbase, hlen, and_self, ↓reduceIte, mem_pageRange, true_and, add32,
          pmmPageSize]
        omega
      · -- The 32-bit part is cut so that it ends at 4 GB, which wraps to 0.
        have hwrap : add32 e.baseLow (add32 (sub32 0xFFFFFFFF e.baseLow) 1) = 0 := by
          simp only [add32, sub32]
          omega
        simp only [htype, hbase, hlen, and_self, ↓reduceIte, mem_pageRange, true_and, hwrap,
          pmmPageSize]
        omega
    · simp only [htype, hbase, and_false, ↓reduceIte, List.not_mem_nil, true_and, false_iff]
      omega
  · simp [htype]

theorem mem_frameBytes : x ∈ frameBytes f ↔ x / pmmPageSize = f := by
  simp only [frameBytes, Set.mem_Ico, pmmPageSize]
  omega

/-- A frame lies wholly in an entry. -/
theorem frameBytes_subset_iff :
    frameBytes f ⊆ e.bytes ↔ e.base ≤ f * pmmPageSize ∧ (f + 1) * pmmPageSize ≤ e.limit := by
  rw [frameBytes, MmapEntry.bytes, Set.Ico_subset_Ico_iff (by simp only [pmmPageSize]; omega)]

/-- After `pmm_init` the free frames are those that some entry frees, without frame 0 and the
kernel image. -/
theorem bitTest_pmmInit_of_walk (hflag : mbi.flags &&& mbootFlagMmap ≠ 0)
    (hwalk : MmapWalk mem mbi 0 es) {fuel : ℕ} (h : pmmInit fuel mem mbi ks ke = some p) (f : ℕ) :
    p.bitTest f = false ↔
      (∃ e ∈ es, e.Available ∧ e.limit < 2 ^ 32 ∧ e.InRange f ∧ f < pmmPagesMax) ∧
        f ≠ 0 ∧ f ∉ kernelFrames ks ke := by
  rw [bitTest_pmmInit h, AvailableFrame, if_pos hflag]
  refine and_congr_left fun _ => ?_
  constructor
  · rintro ⟨es', hwalk', e, he, hf⟩
    obtain rfl := hwalk.unique hwalk'
    exact ⟨e, he, (mem_freedFrames_iff (hwalk.words e he)).mp hf⟩
  · rintro ⟨e, he, hf⟩
    exact ⟨es, hwalk, e, he, (mem_freedFrames_iff (hwalk.words e he)).mpr hf⟩

/-! ## Only available memory is freed -/

/-- Every free frame lies in the union of the available entries and meets no other entry. -/
def FreesOnlyRam (es : List MmapEntry) (p : PmmState) : Prop :=
  ∀ f, p.bitTest f = false →
    (∀ x ∈ frameBytes f, ∃ e ∈ es, e.Available ∧ x ∈ e.bytes) ∧
      ∀ e ∈ es, ¬e.Available → Disjoint (frameBytes f) e.bytes

/-- Whenever an available entry that ends below 4 GB has a frame in its range that is neither frame
0 nor one of the kernel image: the bytes of the frame before the entry, which are there if the entry
starts inside the frame, belong to available entries, and no entry of another type reaches into the
frame. -/
def CleanMap (ks ke : ℕ) (es : List MmapEntry) : Prop :=
  ∀ e ∈ es, e.Available → e.limit < 2 ^ 32 → ∀ f, e.InRange f → f < pmmPagesMax → f ≠ 0 →
    f ∉ kernelFrames ks ke →
      (∀ x, f * pmmPageSize ≤ x → x < e.base → ∃ e' ∈ es, e'.Available ∧ x ∈ e'.bytes) ∧
        ∀ e' ∈ es, ¬e'.Available → e'.bytes = ∅ ∨ e'.limit ≤ f * pmmPageSize ∨
          (f + 1) * pmmPageSize ≤ e'.base

/-- A frame and a region are disjoint if one ends before the other begins. -/
theorem disjoint_frameBytes_iff : Disjoint (frameBytes f) e.bytes ↔
    e.bytes = ∅ ∨ e.limit ≤ f * pmmPageSize ∨ (f + 1) * pmmPageSize ≤ e.base := by
  rw [frameBytes, MmapEntry.bytes, Set.Ico_disjoint_Ico, Set.Ico_eq_empty_iff]
  simp only [pmmPageSize]
  omega

/-- `pmm_init` frees only usable memory if and only if the map is clean: it rounds the base of an
available entry down, so that the rest of its first frame has to be available too, and it does not
look at the entries of other types. -/
theorem freesOnlyRam_iff (hflag : mbi.flags &&& mbootFlagMmap ≠ 0)
    (hwalk : MmapWalk mem mbi 0 es) (ks ke : ℕ) :
    ∃ p, pmmInit (es.length + 1) mem mbi ks ke = some p ∧
      (FreesOnlyRam es p ↔ CleanMap ks ke es) := by
  obtain ⟨p, hinit⟩ := hwalk.exists_pmmInit ks ke
  refine ⟨p, hinit, ?_⟩
  have hfree := bitTest_pmmInit_of_walk hflag hwalk hinit
  constructor
  · intro h e he hav hlim f hrange hmax hzero hker
    obtain ⟨hin, hout⟩ := h f ((hfree f).mpr ⟨⟨e, he, hav, hlim, hrange, hmax⟩, hzero, hker⟩)
    refine ⟨fun x hx hxe => hin x ?_, fun e' he' hn => disjoint_frameBytes_iff.mp (hout e' he' hn)⟩
    -- The base lies in the frame, or before it.
    rw [mem_frameBytes]
    have := hrange.1
    simp only [pmmPageSize] at *
    omega
  · intro h f hclear
    obtain ⟨⟨e, he, hav, hlim, hrange, hmax⟩, hzero, hker⟩ := (hfree f).mp hclear
    obtain ⟨hhead, hother⟩ := h e he hav hlim f hrange hmax hzero hker
    refine ⟨fun x hx => ?_, fun e' he' hn => disjoint_frameBytes_iff.mpr (hother e' he' hn)⟩
    obtain ⟨hlo, hhi⟩ := hx
    by_cases hxe : x < e.base
    · exact hhead x hlo hxe
    · -- The end of the entry is rounded down, so that the frame ends before it.
      refine ⟨e, he, hav, Nat.not_lt.mp hxe, ?_⟩
      have := hrange.2
      simp only [pmmPageSize] at *
      omega

/-- The boot information that goes with `threeFrameMap`. -/
def threeFrameInfo : MultibootInfo := ⟨mbootFlagMem + mbootFlagMmap, 0, 24, 0x9000⟩

/-- The one entry of `threeFrameMap`. -/
theorem mmapWalk_threeFrameMap :
    ∃ e, MmapWalk threeFrameMap threeFrameInfo 0 [e] ∧ e.base = 0x1000 ∧ e.limit = 0x4000 ∧
      e.Available := by
  refine ⟨loadMmapEntry threeFrameMap 0x9000, ⟨by decide, rfl, ?_⟩, ?_, ?_, ?_⟩
  · show 24 ≤ add32 0 (add32 (loadMmapEntry threeFrameMap 0x9000).size 4)
    decide +kernel
  all_goals decide +kernel

/-- On `threeFrameMap` the free frames are available. -/
theorem freesOnlyRam_iff_threeFrames :
    ∃ e p, MmapWalk threeFrameMap threeFrameInfo 0 [e] ∧
      pmmInit 2 threeFrameMap threeFrameInfo 0x2000 0x3000 = some p ∧ FreesOnlyRam [e] p := by
  obtain ⟨e, hwalk, hbase, hlimit, hav⟩ := mmapWalk_threeFrameMap
  obtain ⟨p, hinit, hiff⟩ := freesOnlyRam_iff (by decide) hwalk 0x2000 0x3000
  refine ⟨e, p, hwalk, hinit, hiff.mpr ?_⟩
  intro e' he' _ _ f hrange _ _ _
  obtain rfl := List.mem_singleton.mp he'
  refine ⟨fun x hx hxe => ?_, fun e' he' hn => ?_⟩
  · -- The entry starts with a frame.
    have := hrange.1
    rw [hbase] at this hxe
    simp only [pmmPageSize] at *
    omega
  · obtain rfl := List.mem_singleton.mp he'
    exact absurd hav hn

/-- A memory map with an available entry from `0x1800` to `0x4000` and a reserved one from `0x3000`
to `0x3400`. -/
def raggedMap : Mem :=
  (((((((Mem.store32 (fun _ => 0) 0x9000 20).store32 0x9004 0x1800).store32 0x900C 0x2800).store32
    0x9014 1).store32 0x9018 20).store32 0x901C 0x3000).store32 0x9024 0x400).store32 0x902C 2

/-- The boot information that goes with `raggedMap`. -/
def raggedInfo : MultibootInfo := ⟨mbootFlagMem + mbootFlagMmap, 0, 48, 0x9000⟩

/-- Frame 1 is freed although its first half belongs to no entry, and frame 3 although its first
bytes are reserved. -/
theorem not_freesOnlyRam_raggedMap :
    ∃ es p, MmapWalk raggedMap raggedInfo 0 es ∧
      es.map (fun e => (e.base, e.limit, e.type)) = [(0x1800, 0x4000, 1), (0x3000, 0x3400, 2)] ∧
      pmmInit 3 raggedMap raggedInfo 0x100000 0x110000 = some p ∧
      p.bitTest 1 = false ∧ p.bitTest 3 = false ∧ ¬FreesOnlyRam es p := by
  have hnext : add32 0 (add32 (loadMmapEntry raggedMap 0x9000).size 4) = 24 := by decide +kernel
  have hend : raggedInfo.mmapLength ≤
      add32 24 (add32 (loadMmapEntry raggedMap 0x9018).size 4) := by decide +kernel
  have hwalk : MmapWalk raggedMap raggedInfo 0
      [loadMmapEntry raggedMap 0x9000, loadMmapEntry raggedMap 0x9018] := by
    refine ⟨by decide, rfl, ?_⟩
    rw [hnext]
    exact ⟨by decide, rfl, hend⟩
  have hall : ∀ q ∈ pmmInit 3 raggedMap raggedInfo 0x100000 0x110000,
      q.bitTest 1 = false ∧ q.bitTest 3 = false := by decide +kernel
  obtain ⟨p, hinit⟩ := hwalk.exists_pmmInit 0x100000 0x110000
  obtain ⟨hone, hthree⟩ := hall p hinit
  refine ⟨_, p, hwalk, by decide +kernel, hinit, hone, hthree, fun h => ?_⟩
  -- The first byte of frame 1 would have to be in an available entry.
  obtain ⟨e, he, -, hx⟩ := (h 1 hone).1 0x1000 (mem_frameBytes.mpr rfl)
  have hbase : ∀ e ∈ [loadMmapEntry raggedMap 0x9000, loadMmapEntry raggedMap 0x9018],
      0x1000 < e.base := by decide +kernel
  exact absurd hx.1 (Nat.not_le.mpr (hbase e he))

/-! ## All available memory is found -/

/-- `total_pages` is the number of frames that `mem_upper` gives, at most those of the bitmap, and
every frame below it that lies wholly in an available entry is free, unless it is frame 0 or meets
the kernel image `[ks, ke)`. -/
structure FindsAllRam (mbi : MultibootInfo) (ks ke : ℕ) (es : List MmapEntry) (p : PmmState) :
    Prop where
  /-- The number of frames is that of the memory, up to 256 MB. -/
  total : mbi.flags &&& mbootFlagMem ≠ 0 →
    p.totalPages = min pmmPagesMax ((mbi.memUpper + 1024) / 4)
  /-- Every frame that is inside an available region, and neither page zero nor in the kernel, is
  free. -/
  free : ∀ f < p.totalPages, (∃ e ∈ es, e.Available ∧ frameBytes f ⊆ e.bytes) → f ≠ 0 →
    Disjoint (frameBytes f) (Set.Ico ks ke) → p.bitTest f = false

/-- The size in bytes does not wrap, or wraps to 256 MB or more. -/
def SizeFits (mbi : MultibootInfo) : Prop :=
  mbi.flags &&& mbootFlagMem ≠ 0 →
    mbi.memUpper + 1024 < 2 ^ 22 ∨ 2 ^ 18 ≤ (mbi.memUpper + 1024) % 2 ^ 22

/-- Every frame that an available entry reaching 4 GB has, is also in the range of one that ends
below, if it is to be freed at all. -/
def LowEntriesSuffice (mbi : MultibootInfo) (ks ke : ℕ) (es : List MmapEntry) : Prop :=
  ∀ f < mbiTotalPages mbi, f ≠ 0 → Disjoint (frameBytes f) (Set.Ico ks ke) →
    ∀ e ∈ es, e.Available → 2 ^ 32 ≤ e.limit → frameBytes f ⊆ e.bytes →
      ∃ e' ∈ es, e'.Available ∧ e'.limit < 2 ^ 32 ∧ e'.InRange f

/-- The computation of the number of frames is exact if it does not overflow. -/
theorem mbiTotalPages_eq_iff : (mbi.flags &&& mbootFlagMem ≠ 0 →
    mbiTotalPages mbi = min pmmPagesMax ((mbi.memUpper + 1024) / 4)) ↔ SizeFits mbi := by
  refine imp_congr_right fun hflag => ?_
  simp only [mbiTotalPages, if_pos hflag, add32, mul32, pmmPagesMax, pmmPageSize]
  split <;> omega

/-- The frames of the kernel are those that meet the image. -/
theorem mem_kernelFrames_iff (hlt : ks < ke) (hmax : ke ≤ 2 ^ 28) :
    f ∈ kernelFrames ks ke ↔ ¬Disjoint (frameBytes f) (Set.Ico ks ke) := by
  have hsum : add32 ks (sub32 ke ks) = ke := by
    rw [sub32_eq (by omega) hlt.le, add32_eq (by omega)]
    omega
  have hstop : sub32 (add32 ke pmmPageSize) 1 = ke + 4095 := by
    rw [pmmPageSize, add32_eq (by omega), sub32_eq (by omega) (by omega)]
    omega
  rw [kernelFrames, hsum, hstop, mem_pageRange, frameBytes, Set.Ico_disjoint_Ico]
  simp only [pmmPageSize, pmmPagesMax]
  omega

/-- A frame that lies wholly in an entry is in the entry's range. -/
theorem inRange_of_subset (h : frameBytes f ⊆ e.bytes) : e.InRange f := by
  obtain ⟨hlo, hhi⟩ := frameBytes_subset_iff.mp h
  simp only [MmapEntry.InRange, pmmPageSize] at *
  omega

/-- `pmm_init` finds all usable memory if and only if the number of frames does not wrap below the
size of the bitmap, and the available entries that reach 4 GB are not needed. -/
theorem findsAllRam_iff (hflag : mbi.flags &&& mbootFlagMmap ≠ 0)
    (hwalk : MmapWalk mem mbi 0 es) (hlt : ks < ke) (hmax : ke ≤ 256 * 1024 * 1024) :
    ∃ p, pmmInit (es.length + 1) mem mbi ks ke = some p ∧
      (FindsAllRam mbi ks ke es p ↔ SizeFits mbi ∧ LowEntriesSuffice mbi ks ke es) := by
  obtain ⟨p, hinit⟩ := hwalk.exists_pmmInit ks ke
  refine ⟨p, hinit, ?_⟩
  have htot := totalPages_pmmInit hinit
  have hle := mbiTotalPages_le mbi
  have hfree := bitTest_pmmInit_of_walk hflag hwalk hinit
  constructor
  · intro h
    refine ⟨mbiTotalPages_eq_iff.mp (htot ▸ h.total), fun f hf hzero hker e he hav _ hsub => ?_⟩
    have hclear := h.free f (htot ▸ hf) ⟨e, he, hav, hsub⟩ hzero hker
    obtain ⟨⟨e', he', hav', hlim', hrange', -⟩, -⟩ := (hfree f).mp hclear
    exact ⟨e', he', hav', hlim', hrange'⟩
  · rintro ⟨hsize, hlow⟩
    refine ⟨htot ▸ mbiTotalPages_eq_iff.mpr hsize, fun f hf hin hzero hker => ?_⟩
    obtain ⟨e, he, hav, hsub⟩ := hin
    rw [htot] at hf
    have hnot : f ∉ kernelFrames ks ke := fun h => (mem_kernelFrames_iff hlt hmax).mp h hker
    refine (hfree f).mpr ⟨?_, hzero, hnot⟩
    -- The entry itself frees the frame if it ends below 4 GB.
    by_cases hlim : e.limit < 2 ^ 32
    · exact ⟨e, he, hav, hlim, inRange_of_subset hsub, by omega⟩
    · obtain ⟨e', he', hav', hlim', hrange'⟩ := hlow f hf hzero hker e he hav (by omega) hsub
      exact ⟨e', he', hav', hlim', hrange', by omega⟩

/-- On `threeFrameMap` all memory is found. -/
theorem findsAllRam_iff_threeFrames :
    ∃ e p, MmapWalk threeFrameMap threeFrameInfo 0 [e] ∧
      pmmInit 2 threeFrameMap threeFrameInfo 0x2000 0x3000 = some p ∧
      FindsAllRam threeFrameInfo 0x2000 0x3000 [e] p := by
  obtain ⟨e, hwalk, -, hlimit, -⟩ := mmapWalk_threeFrameMap
  obtain ⟨p, hinit, hiff⟩ := findsAllRam_iff (by decide) hwalk
    (show 0x2000 < 0x3000 by decide) (by decide)
  refine ⟨e, p, hwalk, hinit, hiff.mpr ⟨fun _ => .inl (by decide), ?_⟩⟩
  -- Its entry ends far below 4 GB.
  intro f _ _ _ e' he' _ hlim
  obtain rfl := List.mem_singleton.mp he'
  omega

/-- A memory map with one available entry of 4 GB at `0x1000`. -/
def wideMap : Mem :=
  (((Mem.store32 (fun _ => 0) 0x9000 20).store32 0x9004 0x1000).store32 0x9010 1).store32 0x9014 1

/-- Boot information for `wideMap`, with 4 GB above the first megabyte. -/
def wideInfo : MultibootInfo := ⟨mbootFlagMem + mbootFlagMmap, 0x400000, 24, 0x9000⟩

/-- With 4 GB of memory `total_pages` is 256 and not 65536, and no frame is free although frame 1
lies wholly in the available entry. -/
theorem not_findsAllRam_wideMap :
    ∃ e p, MmapWalk wideMap wideInfo 0 [e] ∧ e.base = 0x1000 ∧ e.limit = 0x100001000 ∧
      e.Available ∧ pmmInit 2 wideMap wideInfo 0x100000 0x110000 = some p ∧
      p.totalPages = 256 ∧ min pmmPagesMax ((wideInfo.memUpper + 1024) / 4) = 65536 ∧
      frameBytes 1 ⊆ e.bytes ∧ p.bitTest 1 = true ∧
      ¬FindsAllRam wideInfo 0x100000 0x110000 [e] p := by
  have hbase : (loadMmapEntry wideMap 0x9000).base = 0x1000 := by decide +kernel
  have hlimit : (loadMmapEntry wideMap 0x9000).limit = 0x100001000 := by decide +kernel
  have hend : wideInfo.mmapLength ≤
      add32 0 (add32 (loadMmapEntry wideMap 0x9000).size 4) := by decide +kernel
  have hwalk : MmapWalk wideMap wideInfo 0 [loadMmapEntry wideMap 0x9000] :=
    ⟨by decide, rfl, hend⟩
  have hall : ∀ q ∈ pmmInit 2 wideMap wideInfo 0x100000 0x110000,
      q.totalPages = 256 ∧ q.bitTest 1 = true := by decide +kernel
  obtain ⟨p, hinit⟩ := hwalk.exists_pmmInit 0x100000 0x110000
  obtain ⟨htot, hset⟩ := hall p hinit
  refine ⟨_, p, hwalk, hbase, hlimit, by decide +kernel, hinit, htot, by decide, ?_, hset,
    fun h => ?_⟩
  · rw [frameBytes_subset_iff, hbase, hlimit]
    decide
  · have := (h.total (by decide)).symm.trans htot
    exact absurd this (by decide)

/-! ## The walk of the map -/

/-- The offset of the entry that follows the one at `off`. -/
def mmapNext (mem : Mem) (mbi : MultibootInfo) (off : ℕ) : ℕ :=
  add32 off (add32 (loadMmapEntry mem (add32 mbi.mmapAddr off)).size 4)

/-- The offset after `k` turns of the walk. -/
def mmapOffset (mem : Mem) (mbi : MultibootInfo) (k : ℕ) : ℕ := (mmapNext mem mbi)^[k] 0

/-- The step of the walk at `off` does not wrap. -/
def StepFits (mem : Mem) (mbi : MultibootInfo) (off : ℕ) : Prop :=
  off + ((loadMmapEntry mem (add32 mbi.mmapAddr off)).size + 4) < 2 ^ 32

/-- What a turn that does not end the walk leaves. -/
def mmapStep (mem : Mem) (mbi : MultibootInfo) (s : ℕ × PmmState) : ℕ × PmmState :=
  (mmapNext mem mbi s.1, freeMmapEntry s.2 (loadMmapEntry mem (add32 mbi.mmapAddr s.1)))

/-- The offsets do not depend on the bitmap. -/
theorem iterate_mmapStep_fst (k : ℕ) (s : ℕ × PmmState) :
    ((mmapStep mem mbi)^[k] s).1 = (mmapNext mem mbi)^[k] s.1 :=
  Function.Semiconj.iterate_right (f := Prod.fst) (fun _ => rfl) k s

/-- The walk goes on below `mmap_length`. -/
theorem mmapTurn_of_lt {s : ℕ × PmmState} (h : ¬mbi.mmapLength ≤ s.1) :
    mmapTurn mem mbi s = .inl (mmapStep mem mbi s) :=
  if_pos (Nat.not_le.mp h)

theorem mmapTurn_of_le {s : ℕ × PmmState} (h : mbi.mmapLength ≤ s.1) :
    ∃ r, mmapTurn mem mbi s = .inr r :=
  ⟨s.2, if_neg (Nat.not_lt.mpr h)⟩

/-- The walk reads the entry after `k` turns: it has not ended before. -/
def InWalk (mem : Mem) (mbi : MultibootInfo) (k : ℕ) : Prop :=
  ∀ j ≤ k, mmapOffset mem mbi j < mbi.mmapLength

/-- As long as no step of the walk wraps, each one advances by at least four bytes. -/
theorem le_mmapOffset
    (hfits : ∀ k, InWalk mem mbi k → StepFits mem mbi (mmapOffset mem mbi k)) (k : ℕ) :
    (∃ j ≤ k, mbi.mmapLength ≤ mmapOffset mem mbi j) ∨ 4 * k ≤ mmapOffset mem mbi k := by
  induction k with
  | zero => exact .inr (Nat.zero_le _)
  | succ k ih =>
    rcases ih with ⟨j, hj, hend⟩ | hle
    · exact .inl ⟨j, by omega, hend⟩
    · by_cases hin : InWalk mem mbi k
      · have hfit : _ < _ := hfits k hin
        refine .inr ?_
        rw [mmapOffset, Function.iterate_succ_apply', ← mmapOffset, mmapNext,
          add32_eq (a := (loadMmapEntry mem _).size) (by omega), add32_eq hfit]
        omega
      · -- The walk has ended, so that nothing is known of the step.
        simp only [InWalk, not_forall, Nat.not_lt] at hin
        obtain ⟨j, hj, hend⟩ := hin
        exact .inl ⟨j, by omega, hend⟩

/-- The walk of the memory map ends if and only if it does not come back to an offset below
`mmap_length` that it has visited. If no step of the walk wraps, it ends after at most one turn for
every four bytes of the map. -/
theorem mmapWalk_ends_iff (mem : Mem) (mbi : MultibootInfo) (p : PmmState) :
    ((∃ fuel q, loop (mmapTurn mem mbi) fuel (0, p) = some q) ↔
      ¬∃ i j, i < j ∧ mmapOffset mem mbi i = mmapOffset mem mbi j ∧
        ∀ k < j, mmapOffset mem mbi k < mbi.mmapLength) ∧
    ((∀ k, InWalk mem mbi k → StepFits mem mbi (mmapOffset mem mbi k)) →
      ∃ q, loop (mmapTurn mem mbi) (mbi.mmapLength / 4 + 2) (0, p) = some q) := by
  constructor
  · rw [exists_loop_iff (P := fun s => mbi.mmapLength ≤ s.1) (fun _ => mmapTurn_of_lt)
      (fun _ => mmapTurn_of_le)]
    simp only [iterate_mmapStep_fst, mmapOffset]
    -- There are only finitely many offsets below `mmap_length`.
    have hfin : Finite {off // off < mbi.mmapLength} := (Set.finite_lt_nat _).to_subtype
    simpa only [Nat.not_lt] using exists_not_iterate_iff (f := mmapNext mem mbi) hfin 0
  · intro hfits
    obtain ⟨k, hk, hend⟩ : ∃ k ≤ mbi.mmapLength / 4 + 1,
        mbi.mmapLength ≤ mmapOffset mem mbi k := by
      rcases le_mmapOffset hfits (mbi.mmapLength / 4 + 1) with h | h
      · exact h
      · exact ⟨_, le_rfl, by omega⟩
    rw [mmapOffset, ← iterate_mmapStep_fst k (0, p)] at hend
    obtain ⟨q, hq⟩ := exists_loop_of_iterate (P := fun s : ℕ × PmmState => mbi.mmapLength ≤ s.1)
      (fun _ => mmapTurn_of_lt) (fun _ => mmapTurn_of_le) hend
    exact ⟨q, loop_mono hq (by omega)⟩

/-- A memory map whose entry has size `0xFFFFFFFC`, so that the walk advances by 0. -/
def selfMap : Mem := Mem.store32 (fun _ => 0) 0x9000 0xFFFFFFFC

/-- The boot information that goes with `selfMap`. -/
def selfInfo : MultibootInfo := ⟨mbootFlagMmap, 0, 24, 0x9000⟩

/-- On `selfMap` the loop, and with it `pmm_init`, never ends. -/
theorem mmapWalk_endless_selfMap :
    (loadMmapEntry selfMap selfInfo.mmapAddr).size = 0xFFFFFFFC ∧
      (∀ fuel p, loop (mmapTurn selfMap selfInfo) fuel (0, p) = none) ∧
      ∀ fuel ks ke, pmmInit fuel selfMap selfInfo ks ke = none := by
  have hnext : mmapNext selfMap selfInfo 0 = 0 := by decide +kernel
  have hloop : ∀ fuel p, loop (mmapTurn selfMap selfInfo) fuel (0, p) = none := by
    intro fuel
    induction fuel with
    | zero => exact fun _ => rfl
    | succ fuel ih =>
      intro p
      rw [loop_of_inl (mmapTurn_of_lt (s := (0, p)) (show ¬24 ≤ 0 by decide)), mmapStep, hnext, ih]
  refine ⟨by decide +kernel, hloop, fun fuel ks ke => ?_⟩
  rw [pmmInit, pmmFreeAvailable, if_pos (by decide), hloop, Option.map_none]

end Lightstreak
