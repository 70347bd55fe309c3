import Lightstreak.Lib.Paging

/-!
# Virtual memory manager (`kernel/mm/vmm.c`)

The page directories and page tables live in physical memory and are reached through their
physical addresses, as in the kernel, which runs on an identity map of the first 8 MB. That stays
so in the model when a call remaps a page of that region. The three static ones are placed by the
linker (`VmmLayout`); the others come from `pmm_alloc_page`. Each function that
allocates takes the address `pmm_alloc_page` returns, `0` for `NULL`.

The translation look-aside buffer is not modelled (`invlpg` is dropped): a page walk reads the
tables in memory.
-/

namespace Lightstreak

open SysLib SysLib.Paging

/-- `PAGE_PRESENT` -/
def pagePresent : ℕ := 1

/-- `PAGE_WRITE` -/
def pageWrite : ℕ := 2

/-- `PAGE_USER` -/
def pageUser : ℕ := 4

/-- `PAGE_SIZE` -/
def pageSize : ℕ := 4096

/-- `PAGE_MASK` -/
def pageMask : ℕ := frameMask

/-- `VMM_DIR_IDX(va)` -/
def vmmDirIdx (va : ℕ) : ℕ := va >>> 22 &&& 0x3FF

/-- `VMM_TBL_IDX(va)` -/
def vmmTblIdx (va : ℕ) : ℕ := va >>> 12 &&& 0x3FF

/-- Where the linker places `kernel_dir`, `identity_pt0` and `identity_pt1`: three different
aligned frames. -/
structure VmmLayout where
  /-- The address of the kernel directory. -/
  kernelDir : ℕ
  /-- The address of the table for the first 4 MB. -/
  identityPt0 : ℕ
  /-- The address of the table for the next 4 MB. -/
  identityPt1 : ℕ
  /-- The directory is aligned to a page. -/
  isFrame_dir : IsFrame kernelDir
  /-- The first table is aligned to a page. -/
  isFrame_pt0 : IsFrame identityPt0
  /-- The second table is aligned to a page. -/
  isFrame_pt1 : IsFrame identityPt1
  /-- The directory is not the first table. -/
  dir_ne_pt0 : kernelDir ≠ identityPt0
  /-- The directory is not the second table. -/
  dir_ne_pt1 : kernelDir ≠ identityPt1
  /-- The tables are two. -/
  pt0_ne_pt1 : identityPt0 ≠ identityPt1

/-- What `vmm_map_page` prints. -/
inductive VmmMsg
  | outOfFrames
deriving DecidableEq, Repr

/-- Physical memory and the two control registers. -/
structure VmmState where
  /-- Physical memory. -/
  mem : Mem
  /-- The directory that is loaded. -/
  cr3 : ℕ
  /-- Paging is on if the highest bit is set. -/
  cr0 : ℕ
  /-- The messages printed. -/
  log : List VmmMsg

/-- `vmm_switch_directory(dir)` -/
def vmmSwitchDirectory (s : VmmState) (dir : ℕ) : VmmState := { s with cr3 := dir }

/-- The entry `vmm_map_page` writes to a page table. -/
def mkPte (phys flags : ℕ) : ℕ := (phys &&& pageMask) ||| (flags &&& 0xFFF) ||| pagePresent

/-- `vmm_map_page(dir, virt, phys, flags)`, with the frame `pmm_alloc_page` returns if a page
table is needed. -/
def vmmMapPage (s : VmmState) (dir virt phys flags frame : ℕ) : VmmState :=
  let di := vmmDirIdx virt
  let ti := vmmTblIdx virt
  let pde := word s.mem dir di
  if pde &&& pagePresent = 0 then
    -- No page table yet: one is made, unless there is no frame for it.
    if frame = 0 then { s with log := s.log ++ [.outOfFrames] }
    else
      let m := fillWords s.mem frame (fun _ => 0) 1024
      let m := setWord m dir di (frame ||| pagePresent ||| pageWrite ||| pageUser)
      { s with mem := setWord m frame ti (mkPte phys flags) }
  else
    -- The table may be one that several directories share.
    { s with mem := setWord s.mem (pde &&& pageMask) ti (mkPte phys flags) }

/-- `vmm_unmap_page(dir, virt)` -/
def vmmUnmapPage (s : VmmState) (dir virt : ℕ) : VmmState :=
  let pde := word s.mem dir (vmmDirIdx virt)
  if pde &&& pagePresent = 0 then s
  else { s with mem := setWord s.mem (pde &&& pageMask) (vmmTblIdx virt) 0 }

/-- `vmm_init()` -/
def vmmInit (l : VmmLayout) (s : VmmState) : VmmState :=
  let m := fillWords s.mem l.identityPt0
    (fun i => i * pageSize ||| pagePresent ||| pageWrite) 1024
  let m := fillWords m l.identityPt1
    (fun i => (1024 + i) * pageSize ||| pagePresent ||| pageWrite) 1024
  let m := fillWords m l.kernelDir (fun _ => 0) 1024
  let m := setWord m l.kernelDir 0 (l.identityPt0 ||| pagePresent ||| pageWrite)
  let m := setWord m l.kernelDir 1 (l.identityPt1 ||| pagePresent ||| pageWrite)
  -- Load CR3, then turn paging on.
  let s := vmmSwitchDirectory { s with mem := m } l.kernelDir
  { s with cr0 := s.cr0 ||| 0x80000000 }

/-- `vmm_create_user_directory()`, with the frame `pmm_alloc_page` returns: the directory, or `0`
for `NULL`. -/
def vmmCreateUserDirectory (l : VmmLayout) (s : VmmState) (frame : ℕ) : ℕ × VmmState :=
  if frame = 0 then (0, s)
  else (frame, { s with mem := copyWords s.mem frame l.kernelDir 1024 })

end Lightstreak
