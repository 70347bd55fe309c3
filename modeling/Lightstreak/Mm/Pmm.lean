import Lightstreak.Lib.Bitmap
import Lightstreak.Lib.Memory
import Lightstreak.Lib.Run

/-!
# Physical memory manager (`kernel/mm/pmm.c`)

The bitmap allocator of 4 KB page frames: bit `i` of `bitmap` is set when frame `i` is in use.
`pmm_init` builds the map from the Multiboot information block: it marks everything used, frees
the regions of the memory map that are available, and marks frame 0 and the kernel image used
again. The statistics line it prints last is left out.

The memory map is read from physical memory, byte for byte as the boot loader left it. Its walk
advances by a size found in the map itself, so it need not end; `pmmInit` takes fuel for it.
-/

namespace Lightstreak

open SysLib

/-- `PMM_PAGE_SIZE` -/
def pmmPageSize : ℕ := 4096

/-- `PMM_PAGES_MAX`: the frames of 256 MB. -/
def pmmPagesMax : ℕ := 65536

/-- `MBOOT_FLAG_MEM`: `mem_lower` and `mem_upper` are valid. -/
def mbootFlagMem : ℕ := 1

/-- `MBOOT_FLAG_MMAP`: `mmap_length` and `mmap_addr` are valid. -/
def mbootFlagMmap : ℕ := 64

/-- `MBOOT_MMAP_TYPE_AVAILABLE` -/
def mbootMmapTypeAvailable : ℕ := 1

/-- The fields of `multiboot_info_t` that the memory manager reads. -/
structure MultibootInfo where
  /-- Which of the other fields are valid. -/
  flags : ℕ
  /-- The memory above 1 MB, in KB. -/
  memUpper : ℕ
  /-- The length of the memory map in bytes. -/
  mmapLength : ℕ
  /-- The address of the memory map. -/
  mmapAddr : ℕ

/-- `multiboot_mmap_entry_t` -/
structure MmapEntry where
  /-- The size of the entry without this field. -/
  size : ℕ
  /-- Bits 0 to 31 of the first address. -/
  baseLow : ℕ
  /-- Bits 32 to 63 of the first address. -/
  baseHigh : ℕ
  /-- Bits 0 to 31 of the length. -/
  lengthLow : ℕ
  /-- Bits 32 to 63 of the length. -/
  lengthHigh : ℕ
  /-- One for usable memory. -/
  type : ℕ

/-- The memory-map entry at address `a`. -/
def loadMmapEntry (mem : Mem) (a : ℕ) : MmapEntry where
  size := mem.load32 a
  baseLow := mem.load32 (a + 4)
  baseHigh := mem.load32 (a + 8)
  lengthLow := mem.load32 (a + 12)
  lengthHigh := mem.load32 (a + 16)
  type := mem.load32 (a + 20)

/-- The static variables of the memory manager. -/
structure PmmState where
  /-- One bit for each frame, set if the frame is used. -/
  bitmap : Bitmap
  /-- `total_pages` -/
  totalPages : ℕ
  /-- `used_pages` -/
  usedPages : ℕ

namespace PmmState

/-- `bit_set(frame)` -/
def bitSet (p : PmmState) (frame : ℕ) : PmmState := { p with bitmap := p.bitmap.set frame }

/-- `bit_clear(frame)` -/
def bitClear (p : PmmState) (frame : ℕ) : PmmState := { p with bitmap := p.bitmap.clear frame }

/-- `bit_test(frame)` -/
def bitTest (p : PmmState) (frame : ℕ) : Bool := p.bitmap.test frame

/-- The loop body of `pmm_free_region`. -/
def freeFrame (p : PmmState) (page : ℕ) : PmmState :=
  if p.bitTest page then { p.bitClear page with usedPages := sub32 p.usedPages 1 } else p

/-- The loop body of `pmm_mark_region_used`. -/
def markFrame (p : PmmState) (page : ℕ) : PmmState :=
  if p.bitTest page then p else { p.bitSet page with usedPages := add32 p.usedPages 1 }

end PmmState

/-- The pages of a loop `for (; page < end && page < PMM_PAGES_MAX; page++)`. -/
def pageRange (page stop : ℕ) : List ℕ := List.range' page (min stop pmmPagesMax - page)

/-- `pmm_free_region(base, length)` -/
def pmmFreeRegion (p : PmmState) (base length : ℕ) : PmmState :=
  (pageRange (base / pmmPageSize) (add32 base length / pmmPageSize)).foldl PmmState.freeFrame p

/-- `pmm_mark_region_used(base, length)`, which rounds the end up to a page boundary. -/
def pmmMarkRegionUsed (p : PmmState) (base length : ℕ) : PmmState :=
  (pageRange (base / pmmPageSize)
    (sub32 (add32 (add32 base length) pmmPageSize) 1 / pmmPageSize)).foldl PmmState.markFrame p

/-- What `pmm_init` does with one memory-map entry. -/
def freeMmapEntry (p : PmmState) (e : MmapEntry) : PmmState :=
  if e.type = mbootMmapTypeAvailable then
    if e.baseHigh = 0 ∧ e.lengthHigh = 0 then pmmFreeRegion p e.baseLow e.lengthLow
    else if e.baseHigh = 0 then
      -- The region crosses the 4 GB boundary: only its 32-bit part is freed.
      pmmFreeRegion p e.baseLow (add32 (sub32 0xFFFFFFFF e.baseLow) 1)
    else p
  else p

/-- One turn of the memory-map walk of `pmm_init`, at `offset`. -/
def mmapTurn (mem : Mem) (mbi : MultibootInfo) (s : ℕ × PmmState) :
    (ℕ × PmmState) ⊕ PmmState :=
  if s.1 < mbi.mmapLength then
    let e := loadMmapEntry mem (add32 mbi.mmapAddr s.1)
    .inl (add32 s.1 (add32 e.size 4), freeMmapEntry s.2 e)
  else .inr s.2

/-- The number of frames `pmm_init` manages, from the `mem_upper` field. -/
def mbiTotalPages (mbi : MultibootInfo) : ℕ :=
  let memKb := if mbi.flags &&& mbootFlagMem ≠ 0 then add32 mbi.memUpper 1024 else 64 * 1024
  let total := mul32 memKb 1024 / pmmPageSize
  if pmmPagesMax < total then pmmPagesMax else total

/-- Step 1 of `pmm_init`: every frame is used. -/
def pmmAllUsed (mbi : MultibootInfo) : PmmState where
  bitmap := fun _ => 0xFFFFFFFF#32
  totalPages := mbiTotalPages mbi
  usedPages := mbiTotalPages mbi

/-- Step 2 of `pmm_init`: free the available regions, or everything above 1 MB when there is no
memory map. -/
def pmmFreeAvailable (fuel : ℕ) (mem : Mem) (mbi : MultibootInfo) : Option PmmState :=
  let p := pmmAllUsed mbi
  if mbi.flags &&& mbootFlagMmap ≠ 0 then loop (mmapTurn mem mbi) fuel (0, p)
  else some (pmmFreeRegion p 0x100000 (mul32 (sub32 p.totalPages 256) pmmPageSize))

/-- Steps 3 and 4 of `pmm_init`: frame 0 and the kernel image are used. -/
def pmmProtect (p : PmmState) (kernelStart kernelEnd : ℕ) : PmmState :=
  pmmMarkRegionUsed (p.markFrame 0) kernelStart (sub32 kernelEnd kernelStart)

/-- `pmm_init(mbi)`, with the linker symbols `kernel_start` and `kernel_end`. `none` if the walk
of the memory map takes more than `fuel` turns. -/
def pmmInit (fuel : ℕ) (mem : Mem) (mbi : MultibootInfo) (kernelStart kernelEnd : ℕ) :
    Option PmmState :=
  (pmmFreeAvailable fuel mem mbi).map fun p => pmmProtect p kernelStart kernelEnd

/-! ## Allocation -/

/-- The inner loop of `pmm_alloc_page` over the bits of word `i`, from `bit` on with `n` bits to
go. `none` when the loop ends without returning. -/
def scanBits (p : PmmState) (i : ℕ) : ℕ → ℕ → Option (ℕ × PmmState)
  | _, 0 => none
  | bit, n + 1 =>
    let page := i * 32 + bit
    -- Past the last frame the function returns, whatever the words that follow hold.
    if p.totalPages ≤ page then some (0, p)
    else if p.bitTest page then scanBits p i (bit + 1) n
    else some (mul32 page pmmPageSize, { p.bitSet page with usedPages := add32 p.usedPages 1 })

/-- The outer loop of `pmm_alloc_page` over the words, from `i` on with `n` words to go. -/
def scanWords (p : PmmState) : ℕ → ℕ → ℕ × PmmState
  | _, 0 => (0, p)
  | i, n + 1 =>
    if p.bitmap i = 0xFFFFFFFF#32 then scanWords p (i + 1) n
    else
      match scanBits p i 0 32 with
      | some r => r
      | none => scanWords p (i + 1) n

/-- `pmm_alloc_page()`: the physical address of a frame, or `0` for `NULL`. -/
def pmmAllocPage (p : PmmState) : ℕ × PmmState := scanWords p 0 (pmmPagesMax / 32)

/-- `pmm_free_page(p)` -/
def pmmFreePage (p : PmmState) (addr : ℕ) : PmmState :=
  let frame := addr / pmmPageSize
  if p.totalPages ≤ frame then p
  else if p.bitTest frame then { p.bitClear frame with usedPages := sub32 p.usedPages 1 }
  else p

end Lightstreak
