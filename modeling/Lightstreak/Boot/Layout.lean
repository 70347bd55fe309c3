import Mathlib.Order.CompletePartialOrder
import Mathlib.Order.Interval.Set.Disjoint
import Lightstreak.Mm.PmmAccounting
import Lightstreak.Mm.VmmIdentity
import Lightstreak.Proc.Exec

/-!
# Booting the memory (`kmain`, Stage 4)

`kmain` initialises the frame allocator from the Multiboot information, turns paging on, and places
a heap of 2 MB behind the kernel image and all modules. From then on memory is read through the page
tables, and Stage 4 completes only if everything it touches is mapped.

* `virtual_vmmInit`: what can be read after `vmm_init` is the first 8 MB;
* `kmainSafeEnd_eq_foldl`: the scan of the module list finds the largest end address;
* `bootLayout_iff`: the heap is apart from the kernel image, the modules and the load area of
  `exec`, and identity-mapped, if and only if the image and the modules end at 4 MB or below.
-/

namespace Lightstreak

open SysLib SysLib.Paging
open ReadMem (window Inside)

/-- `MBOOT_FLAG_MODS`: `mods_count` and `mods_addr` are valid. -/
def mbootFlagMods : ℕ := 8

/-- The size of the kernel heap. -/
def kernelHeapSize : ℕ := 2 * 1024 * 1024

/-- The two fields of `multiboot_mod_t` that the kernel reads. -/
structure MultibootMod where
  /-- The address of the first byte. -/
  modStart : ℕ
  /-- The address behind the last byte. -/
  modEnd : ℕ
deriving DecidableEq, Repr

/-- The fields that `pmm_init` reads of the `multiboot_info_t` at `mbi`. -/
def loadMultibootInfo (mem : Mem) (mbi : ℕ) : MultibootInfo where
  flags := mem.load32 mbi
  memUpper := mem.load32 (add32 mbi 8)
  mmapLength := mem.load32 (add32 mbi 44)
  mmapAddr := mem.load32 (add32 mbi 48)

/-- Memory as it can be read while paging is on. -/
def VmmState.virtual (s : VmmState) : ReadMem := fun va =>
  if va < 2 ^ 32 then (walk s.mem s.cr3 va).map fun tr => s.mem tr.phys else none

/-- The `n` bytes from `a` on can be written while paging is on. -/
def VmmState.Writable (s : VmmState) (a n : ℕ) : Prop :=
  ∀ i < n, ((walk s.mem s.cr3 (a + i)).any fun tr => tr.writable) = true

instance (s : VmmState) (a n : ℕ) : Decidable (s.Writable a n) := by
  unfold VmmState.Writable
  infer_instance

/-- One turn of the loop over the modules. -/
def scanMod (m : ReadMem) (mods safeEnd i : ℕ) : Option ℕ := do
  let modEnd ← m.load32 (add32 mods (16 * i + 4))
  return if safeEnd < modEnd then modEnd else safeEnd

/-- The end of the kernel image and of all modules, `safe_end`. -/
def kmainSafeEnd (m : ReadMem) (mbi kernelEnd : ℕ) : Option ℕ := do
  let flags ← m.load32 mbi
  if flags &&& mbootFlagMods = 0 then return kernelEnd
  let modsCount ← m.load32 (add32 mbi 20)
  if modsCount = 0 then return kernelEnd
  let mods ← m.load32 (add32 mbi 24)
  (List.range modsCount).foldlM (scanMod m mods) kernelEnd

/-- `heap_base`: the first page boundary from `safe_end` on. -/
def kmainHeapBase (m : ReadMem) (mbi kernelEnd : ℕ) : Option ℕ := do
  let safeEnd ← kmainSafeEnd m mbi kernelEnd
  return add32 safeEnd 0xFFF &&& 0xFFFFF000

/-- The kernel after Stage 4. -/
structure BootedMemory where
  /-- The frame allocator. -/
  pmm : PmmState
  /-- Page tables and control registers. -/
  vmm : VmmState
  /-- The heap. -/
  heap : HeapState

/-- Stage 4 of `kmain`. `none` if the walk of the memory map takes more than `fuel` turns, or if an
address is not mapped. -/
def kmainStage4 (fuel : ℕ) (l : VmmLayout) (kernelStart kernelEnd : ℕ) (s : VmmState) (mbi : ℕ) :
    Option BootedMemory := do
  let pmm ← pmmInit fuel s.mem (loadMultibootInfo s.mem mbi) kernelStart kernelEnd
  let vmm := vmmInit l s
  let heapBase ← kmainHeapBase vmm.virtual mbi kernelEnd
  -- `heap_init` writes the header of the first block.
  if vmm.Writable heapBase hdrSize then
    let heap := heapInit vmm.mem heapBase kernelHeapSize
    return ⟨pmm, { vmm with mem := heap.mem }, heap⟩
  else none

/-! ## Memory after `vmm_init` -/

variable {l : VmmLayout} {s : VmmState} {m m' : Mem} {mbi mods size ks ke e e' a n base : ℕ}

theorem cr3_vmmInit (l : VmmLayout) (s : VmmState) : (vmmInit l s).cr3 = l.kernelDir := rfl

theorem vmm_vmmBoot (l : VmmLayout) (s : VmmState) : (vmmBoot l s).vmm = vmmInit l s := rfl

/-- The first 8 MB are mapped to themselves. -/
theorem walk_vmmInit_low (l : VmmLayout) (s : VmmState) (hva : a < 8 * 1024 * 1024) :
    ∃ tr, walk (vmmInit l s).mem (vmmInit l s).cr3 a = some tr ∧ tr.phys = a ∧
      tr.writable = true := by
  obtain ⟨tr, hwalk, hphys, -, hw⟩ := identityMapped_vmmBoot l s l.kernelDir (.inl rfl) a hva
  rw [vmm_vmmBoot] at hwalk
  exact ⟨tr, hwalk, hphys, hw⟩

/-- Nothing else is mapped. -/
theorem walk_vmmInit_high (l : VmmLayout) (s : VmmState) (hva : 8 * 1024 * 1024 ≤ a)
    (hlt : a < 2 ^ 32) : walk (vmmInit l s).mem (vmmInit l s).cr3 a = none := by
  rw [cr3_vmmInit, ← vmm_vmmBoot]
  exact walk_high (vmmInv_vmmBoot l s) hva hlt

/-- After `vmm_init` the first 8 MB can be read, each address from itself. -/
theorem virtual_vmmInit (l : VmmLayout) (s : VmmState) :
    (vmmInit l s).virtual = window (vmmInit l s).mem 0 (8 * 1024 * 1024) := by
  funext va
  rw [VmmState.virtual, window]
  by_cases hlow : va < 8 * 1024 * 1024
  · obtain ⟨tr, hwalk, hphys, -⟩ := walk_vmmInit_low l s hlow
    rw [if_pos (show va < 2 ^ 32 by omega),
      if_pos (show 0 ≤ va ∧ va < 0 + 8 * 1024 * 1024 by omega), hwalk, Option.map_some, hphys]
  · rw [if_neg (show ¬(0 ≤ va ∧ va < 0 + 8 * 1024 * 1024) by omega)]
    by_cases hlt : va < 2 ^ 32
    · rw [if_pos hlt, walk_vmmInit_high l s (Nat.not_lt.mp hlow) hlt, Option.map_none]
    · rw [if_neg hlt]

/-- The first 8 MB can be written. -/
theorem writable_vmmInit (h : a + n ≤ 8 * 1024 * 1024) : (vmmInit l s).Writable a n := by
  intro i hi
  obtain ⟨tr, hwalk, -, hw⟩ := walk_vmmInit_low l s (show a + i < 8 * 1024 * 1024 by omega)
  rw [hwalk, Option.any_some, hw]

/-! ## The module list -/

/-- Entry `i` of the module list at `mods`. -/
def loadMod (m : Mem) (mods i : ℕ) : MultibootMod :=
  ⟨m.load32 (add32 mods (16 * i)), m.load32 (add32 mods (16 * i + 4))⟩

/-- The modules that the information at `mbi` lists. -/
def bootMods (m : Mem) (mbi : ℕ) : List MultibootMod :=
  if m.load32 mbi &&& mbootFlagMods = 0 then []
  else (List.range (m.load32 (add32 mbi 20))).map (loadMod m (m.load32 (add32 mbi 24)))

/-- The end of the kernel image and of some modules. -/
def safeEndOf (kernelEnd : ℕ) (ms : List MultibootMod) : ℕ :=
  ms.foldl (fun safeEnd mod => max safeEnd mod.modEnd) kernelEnd

/-- The safe end is the least address behind the kernel and all modules. -/
theorem safeEndOf_le_iff {ms : List MultibootMod} :
    safeEndOf ke ms ≤ e ↔ ke ≤ e ∧ ∀ mod ∈ ms, mod.modEnd ≤ e := by
  induction ms generalizing ke with
  | nil => simp [safeEndOf]
  | cons mod ms ih =>
    rw [safeEndOf, List.foldl_cons, ← safeEndOf, ih, List.forall_mem_cons, Nat.max_le, and_assoc]

/-- A turn of the scan reads one word of a module and keeps the greater end. -/
theorem scanMod_window_iff {i : ℕ} : scanMod (window m 0 size) mods e i = some e' ↔
    Inside 0 size (add32 mods (16 * i + 4)) 4 ∧ e' = max e (loadMod m mods i).modEnd := by
  have hmax : ∀ v : ℕ, (if e < v then v else e) = max e v := fun v => by split <;> omega
  constructor
  · intro h
    obtain ⟨v, hv, h⟩ := Option.bind_eq_some_iff.mp h
    obtain ⟨hin, rfl⟩ := ReadMem.inside_of_window_load32 hv
    exact ⟨hin, (Option.some.inj h).symm.trans (hmax _)⟩
  · rintro ⟨hin, rfl⟩
    rw [scanMod, ReadMem.window_load32 hin, Option.bind_eq_bind, Option.bind_some, hmax]
    rfl

/-- The loop over a list of modules. -/
theorem foldlM_scanMod_iff (is : List ℕ) :
    is.foldlM (scanMod (window m 0 size) mods) e = some e' ↔
      (∀ i ∈ is, Inside 0 size (add32 mods (16 * i + 4)) 4) ∧
        e' = safeEndOf e (is.map (loadMod m mods)) := by
  induction is generalizing e with
  | nil => simp [safeEndOf, eq_comm]
  | cons i is ih =>
    rw [List.foldlM_cons, Option.bind_eq_bind, Option.bind_eq_some_iff, List.forall_mem_cons]
    simp only [scanMod_window_iff, ih]
    constructor
    · rintro ⟨_, ⟨hin, rfl⟩, hrest, rfl⟩
      exact ⟨⟨hin, hrest⟩, rfl⟩
    · rintro ⟨⟨hin, hrest⟩, rfl⟩
      exact ⟨_, ⟨hin, rfl⟩, hrest, rfl⟩

/-- A scan that returns has found the largest end. -/
theorem kmainSafeEnd_eq_foldl (h : kmainSafeEnd (window m 0 size) mbi ke = some e) :
    e = safeEndOf ke (bootMods m mbi) := by
  obtain ⟨flags, hflags, h⟩ := Option.bind_eq_some_iff.mp h
  obtain ⟨-, rfl⟩ := ReadMem.inside_of_window_load32 hflags
  by_cases hbit : m.load32 mbi &&& mbootFlagMods = 0
  · rw [if_pos hbit] at h
    rw [bootMods, if_pos hbit]
    exact (Option.some.inj h).symm
  · rw [if_neg hbit] at h
    rw [bootMods, if_neg hbit]
    obtain ⟨count, hcount, h⟩ := Option.bind_eq_some_iff.mp h
    obtain ⟨-, rfl⟩ := ReadMem.inside_of_window_load32 hcount
    by_cases hzero : m.load32 (add32 mbi 20) = 0
    · -- Then `mods_addr` is not read, and the list is empty whatever it is.
      rw [if_pos hzero] at h
      rw [hzero]
      exact (Option.some.inj h).symm
    · rw [if_neg hzero] at h
      obtain ⟨addr, haddr, h⟩ := Option.bind_eq_some_iff.mp h
      obtain ⟨-, rfl⟩ := ReadMem.inside_of_window_load32 haddr
      exact ((foldlM_scanMod_iff _).mp h).2

/-- A scan of information and a list that can be read returns. -/
theorem kmainSafeEnd_of_inside (hinfo : mbi + 28 ≤ size) (hlt : size < 2 ^ 32)
    (hmods : ∀ i < m.load32 (add32 mbi 20),
      Inside 0 size (add32 (m.load32 (add32 mbi 24)) (16 * i + 4)) 4) :
    kmainSafeEnd (window m 0 size) mbi ke = some (safeEndOf ke (bootMods m mbi)) := by
  -- The reads of the header are inside, and those of the module list by assumption.
  have hflags : Inside 0 size mbi 4 := ⟨by omega, by omega⟩
  have hcount : Inside 0 size (add32 mbi 20) 4 := by
    rw [add32_eq (by omega)]
    exact ⟨by omega, by omega⟩
  have haddr : Inside 0 size (add32 mbi 24) 4 := by
    rw [add32_eq (by omega)]
    exact ⟨by omega, by omega⟩
  rw [kmainSafeEnd, bootMods, ReadMem.window_load32 hflags, Option.bind_eq_bind, Option.bind_some]
  by_cases hbit : m.load32 mbi &&& mbootFlagMods = 0
  · rw [if_pos hbit, if_pos hbit]
    rfl
  rw [if_neg hbit, if_neg hbit, ReadMem.window_load32 hcount, Option.bind_some]
  by_cases hzero : m.load32 (add32 mbi 20) = 0
  · rw [if_pos hzero, hzero]
    rfl
  rw [if_neg hzero, ReadMem.window_load32 haddr, Option.bind_some]
  exact (foldlM_scanMod_iff _).mpr ⟨fun i hi => hmods i (List.mem_range.mp hi), rfl⟩

/-! ## The layout -/

/-- The bytes of a heap at `base`. -/
def heapRegion (base : ℕ) : Set ℕ := Set.Ico base (base + kernelHeapSize)

/-- The heap at `base` is disjoint from the kernel image, from the modules and from the bytes that
`exec` writes, and it is mapped to itself. -/
structure BootLayout (s : VmmState) (ms : List MultibootMod) (kernelStart kernelEnd base : ℕ) :
    Prop where
  /-- The heap is not in the kernel image. -/
  kernel : Disjoint (heapRegion base) (Set.Ico kernelStart kernelEnd)
  /-- The heap is in no module. -/
  modules : ∀ mod ∈ ms, Disjoint (heapRegion base) (Set.Ico mod.modStart mod.modEnd)
  /-- The heap is not where programs are loaded. -/
  loadArea : Disjoint (heapRegion base) (Set.Ico userLoadAddr (userLoadAddr + execBufSize))
  /-- The heap is mapped to itself and can be written. -/
  mapped : ∀ va ∈ heapRegion base, ∃ tr, walk s.mem s.cr3 va = some tr ∧ tr.phys = va ∧
    tr.writable = true

/-- The heap begins on the first page boundary behind the kernel image and the modules. -/
theorem kmainHeapBase_eq (h : kmainHeapBase (window m 0 size) mbi ke = some base)
    (hlt : safeEndOf ke (bootMods m mbi) + 4095 < 2 ^ 32) :
    base = (safeEndOf ke (bootMods m mbi) + 4095) / 4096 * 4096 := by
  obtain ⟨e, hsafe, h⟩ := Option.bind_eq_some_iff.mp h
  obtain rfl := kmainSafeEnd_eq_foldl hsafe
  rw [← Option.some.inj h, add32_eq (by omega), and_mask_page (by omega)]

/-- The identity map of `vmm_init` ends at 8 MB. -/
theorem mapped_heapRegion_iff (hlt : base + kernelHeapSize ≤ 2 ^ 32) :
    (∀ va ∈ heapRegion base, ∃ tr, walk (vmmInit l s).mem (vmmInit l s).cr3 va = some tr ∧
      tr.phys = va ∧ tr.writable = true) ↔ base + kernelHeapSize ≤ 8 * 1024 * 1024 := by
  have hsize : kernelHeapSize = 0x200000 := rfl
  constructor
  · intro h
    by_contra hhigh
    -- The last byte of the heap would have to be mapped.
    obtain ⟨tr, hwalk, -⟩ := h (base + kernelHeapSize - 1) ⟨by omega, by omega⟩
    rw [walk_vmmInit_high l s (by omega) (by omega)] at hwalk
    cases hwalk
  · rintro h va ⟨-, hva⟩
    exact walk_vmmInit_low l s (by omega)

/-- The boot layout: for any end of the kernel image below `0x600000` and any module list with ends
below 8 MB, the heap that `kmain` places behind them is disjoint from the kernel image, from every
module and from the load area, and lies in the identity map, if and only if the image and all
modules end at 4 MB or below. -/
theorem bootLayout_iff (l : VmmLayout) (s : VmmState) (mbi ks : ℕ) {ke base : ℕ}
    (hke : ke < 0x600000) (hmods : ∀ mod ∈ bootMods (vmmInit l s).mem mbi,
      0 < mod.modEnd ∧ mod.modEnd < 8 * 1024 * 1024)
    (hbase : kmainHeapBase (vmmInit l s).virtual mbi ke = some base) :
    BootLayout (vmmInit l s) (bootMods (vmmInit l s).mem mbi) ks ke base ↔
      ke ≤ 0x400000 ∧ ∀ mod ∈ bootMods (vmmInit l s).mem mbi, mod.modEnd ≤ 0x400000 := by
  rw [virtual_vmmInit] at hbase
  generalize hm : (vmmInit l s).mem = m at hmods hbase ⊢
  -- All that matters of the image and the modules is the largest of their ends.
  have hsafe : safeEndOf ke (bootMods m mbi) ≤ 8 * 1024 * 1024 :=
    safeEndOf_le_iff.mpr ⟨by omega, fun mod hmod => (hmods mod hmod).2.le⟩
  obtain ⟨hkernel, hends⟩ := safeEndOf_le_iff.mp (Nat.le_refl (safeEndOf ke (bootMods m mbi)))
  have hbase := kmainHeapBase_eq hbase (by omega)
  rw [← safeEndOf_le_iff]
  generalize safeEndOf ke (bootMods m mbi) = e at *
  have hsize : kernelHeapSize = 0x200000 := rfl
  have hload : userLoadAddr = 0x600000 := rfl
  have hbuf : execBufSize = 0x8000 := rfl
  constructor
  · intro h
    -- The heap is in the identity map, so that it is not behind the load area but before it.
    have hmapped := (mapped_heapRegion_iff (by omega)).mp h.mapped
    have harea := h.loadArea
    rw [heapRegion, Set.Ico_disjoint_Ico] at harea
    omega
  · intro h
    refine ⟨?_, fun mod hmod => ?_, ?_, (mapped_heapRegion_iff (by omega)).mpr (by omega)⟩
    · rw [heapRegion, Set.Ico_disjoint_Ico]
      omega
    · have hend := hends mod hmod
      rw [heapRegion, Set.Ico_disjoint_Ico]
      omega
    · rw [heapRegion, Set.Ico_disjoint_Ico]
      omega

/-- Multiboot information at `0x9000` for 32 MB of memory: one module behind a kernel image that
ends at `0x313000`, and a memory map with one available region. -/
def bootWords (modEnd availBase availLength : ℕ) : List ℕ :=
  [0x49, 640, 31 * 1024, 0, 0, 1, 0x9034, 0, 0, 0, 0, 24, 0x9044,
    0x313000, modEnd, 0, 0,
    20, availBase, 0, availLength, 0, 1]

/-- Memory with that information. -/
def bootMem (modEnd availBase availLength : ℕ) : Mem :=
  Mem.ofWords 0x9000 (bootWords modEnd availBase availLength)

/-- The tables in a kernel image at 1 MB. -/
def imageLayout : VmmLayout where
  kernelDir := 0x101000
  identityPt0 := 0x102000
  identityPt1 := 0x103000
  isFrame_dir := ⟨by decide, by decide⟩
  isFrame_pt0 := ⟨by decide, by decide⟩
  isFrame_pt1 := ⟨by decide, by decide⟩
  dir_ne_pt0 := by decide
  dir_ne_pt1 := by decide
  pt0_ne_pt1 := by decide

/-- The machine before Stage 4. -/
def unpaged (mem : Mem) : VmmState := ⟨mem, 0, 0, []⟩

/-- Low memory is not written by `vmm_init`. -/
theorem load32_imageLayout (mem : Mem) (ha : a + 4 ≤ 0x101000) :
    (vmmInit imageLayout (unpaged mem)).mem.load32 a = mem.load32 a := by
  refine Mem.load32_congr fun x _ hx => vmmInit_mem_of_outside _ _ fun t ht => ?_
  rw [VmmLayout.mem_frames] at ht
  simp only [imageLayout] at ht
  omega

/-- What `kmain` finds in that information. -/
theorem kmain_bootMem (modEnd availBase availLength : ℕ) (hlt : modEnd < 2 ^ 32) :
    bootMods (vmmInit imageLayout (unpaged (bootMem modEnd availBase availLength))).mem
        0x9000 = [⟨0x313000, modEnd⟩] ∧
      kmainHeapBase
        (vmmInit imageLayout (unpaged (bootMem modEnd availBase availLength))).virtual
        0x9000 0x313000 = some (add32 (max 0x313000 modEnd) 0xFFF &&& 0xFFFFF000) := by
  have hload := fun i hi => (load32_imageLayout (a := 0x9000 + 4 * i) _ hi).trans
    (Mem.load32_ofWords 0x9000 (bootWords modEnd availBase availLength) i)
  rw [virtual_vmmInit]
  rw [← bootMem] at hload
  generalize (vmmInit imageLayout (unpaged (bootMem modEnd availBase availLength))).mem = m
    at hload
  -- The words that the scan reads.
  have hflags : m.load32 0x9000 = 0x49 := hload 0 (by decide)
  have hcount : m.load32 0x9014 = 1 := hload 5 (by decide)
  have haddr : m.load32 0x9018 = 0x9034 := hload 6 (by decide)
  have hstart : m.load32 0x9034 = 0x313000 := hload 13 (by decide)
  have hend : m.load32 0x9038 = modEnd := (hload 14 (by decide)).trans (Nat.mod_eq_of_lt hlt)
  have h20 : add32 0x9000 20 = 0x9014 := rfl
  have h24 : add32 0x9000 24 = 0x9018 := rfl
  have hmods : bootMods m 0x9000 = [⟨0x313000, modEnd⟩] := by
    rw [bootMods, hflags, if_neg (by decide), h20, h24, hcount, haddr]
    simp [loadMod, add32, hstart, hend]
  refine ⟨hmods, ?_⟩
  rw [kmainHeapBase, kmainSafeEnd_of_inside (by decide) (by decide), hmods, safeEndOf,
    List.foldl_cons, List.foldl_nil]
  · rfl
  · rw [h20, h24, hcount, haddr]
    decide

/-- A module of one page behind the image. -/
theorem bootLayout_iff_smallModule :
    ∃ base, kmainHeapBase
        (vmmInit imageLayout (unpaged (bootMem 0x314000 0x100000 0x1F00000))).virtual
        0x9000 0x313000 = some base ∧
      BootLayout (vmmInit imageLayout (unpaged (bootMem 0x314000 0x100000 0x1F00000)))
        [⟨0x313000, 0x314000⟩] 0x100000 0x313000 base := by
  obtain ⟨hmods, hbase⟩ := kmain_bootMem 0x314000 0x100000 0x1F00000 (by decide)
  have hiff := bootLayout_iff imageLayout (unpaged (bootMem 0x314000 0x100000 0x1F00000)) 0x9000
    0x100000 (by decide) (by rw [hmods]; decide) hbase
  rw [hmods] at hiff
  exact ⟨_, hbase, hiff.mpr (by decide)⟩

/-- A module that ends at `0x450000`: the heap goes to `0x650000`, over the load area of `exec`. -/
theorem not_bootLayout_bigModule :
    kmainHeapBase (vmmInit imageLayout (unpaged (bootMem 0x450000 0x100000 0x1F00000))).virtual
        0x9000 0x313000 = some 0x450000 ∧
      ¬Disjoint (heapRegion 0x450000) (Set.Ico userLoadAddr (userLoadAddr + execBufSize)) ∧
      ¬BootLayout (vmmInit imageLayout (unpaged (bootMem 0x450000 0x100000 0x1F00000)))
        [⟨0x313000, 0x450000⟩] 0x100000 0x313000 0x450000 := by
  obtain ⟨-, hbase⟩ := kmain_bootMem 0x450000 0x100000 0x1F00000 (by decide)
  have harea : ¬Disjoint (heapRegion 0x450000)
      (Set.Ico userLoadAddr (userLoadAddr + execBufSize)) := by
    rw [heapRegion, Set.Ico_disjoint_Ico]
    decide
  exact ⟨hbase, harea, fun h => harea h.loadArea⟩

end Lightstreak
