import Lightstreak.Lib.Memory
import Lightstreak.Lib.Run

/-!
# Kernel heap (`kernel/mm/heap.c`)

The free-list allocator of the kernel over byte-addressed memory. A block header is the i686
layout of `block_hdr_t`: `magic` at offset 0, `size` at 4, the byte `used` at 8 and `next` at 12,
sixteen bytes in all. Every field is read from and written to memory where the C code does so;
the three padding bytes after `used` are never touched.

Pointers and sizes are natural numbers, with 32-bit arithmetic where the code computes. The
chain walk of `kmalloc` is a `loop` with fuel for every 32-bit pointer value: a walk that is
still running after that many turns has come back to a header it has already seen.
-/

namespace Lightstreak

open SysLib

/-- `HEAP_MAGIC`, the canary in every block header. -/
def heapMagic : ℕ := 0xC0FFEE42

/-- `HDR_SIZE`: `sizeof(block_hdr_t)` on i686. -/
def hdrSize : ℕ := 16

/-- `ALIGN4(x)`, in 32-bit arithmetic: requests above `0xFFFFFFFC` wrap to zero. -/
def align4 (x : ℕ) : ℕ := add32 x 3 &&& 0xFFFFFFFC

/-- The number of distinct 32-bit pointers, and so the length of the longest pointer walk that
does not repeat itself. -/
def walkFuel : ℕ := 2 ^ 32

/-- The messages the allocator prints, with the values it prints in them. -/
inductive HeapMsg
  /-- `[HEAP] Initialised at 0x%x, size %u KB` -/
  | initialised (start kb : ℕ)
  /-- `[HEAP] CORRUPTION: bad magic at 0x%x` -/
  | corruption (blk : ℕ)
  /-- `[HEAP] Out of memory! Requested %u bytes` -/
  | outOfMemory (size : ℕ)
  /-- `[HEAP] kfree: bad magic at 0x%x — double-free or corruption` -/
  | badMagic (blk : ℕ)
  /-- `[HEAP] kfree: double-free detected at 0x%x` -/
  | doubleFree (ptr : ℕ)
deriving DecidableEq, Repr

/-- The memory the heap lives in, the allocator's static variables, and what it has printed. -/
structure HeapState where
  /-- Memory, with the headers in it. -/
  mem : Mem
  /-- The address of the first header. -/
  heapHead : ℕ
  /-- The first address of the heap. -/
  heapStartAddr : ℕ
  /-- The address behind the heap. -/
  heapEndAddr : ℕ
  /-- `heap_used`, the bytes that are allocated. -/
  heapUsed : ℕ
  /-- The messages printed. -/
  log : List HeapMsg

namespace HeapState

/-- Print one message. -/
def kprintf (h : HeapState) (msg : HeapMsg) : HeapState := { h with log := h.log ++ [msg] }

end HeapState

/-! ## Header fields -/

/-- `blk->magic` -/
def hdrMagic (m : Mem) (blk : ℕ) : ℕ := m.load32 blk

/-- `blk->size` -/
def hdrLen (m : Mem) (blk : ℕ) : ℕ := m.load32 (blk + 4)

/-- `blk->used` -/
def hdrUsed (m : Mem) (blk : ℕ) : UInt8 := m (blk + 8)

/-- `blk->next` -/
def hdrNext (m : Mem) (blk : ℕ) : ℕ := m.load32 (blk + 12)

/-- Assignments to the four fields of a header. -/
def setMagic (m : Mem) (blk v : ℕ) : Mem := m.store32 blk v

@[inherit_doc setMagic]
def setLen (m : Mem) (blk v : ℕ) : Mem := m.store32 (blk + 4) v

@[inherit_doc setMagic]
def setUsed (m : Mem) (blk : ℕ) (v : UInt8) : Mem := m.store8 (blk + 8) v

@[inherit_doc setMagic]
def setNext (m : Mem) (blk v : ℕ) : Mem := m.store32 (blk + 12) v

/-! ## The allocator -/

/-- `heap_init(start, size)`: one free block that spans the heap. -/
def heapInit (mem : Mem) (start size : ℕ) : HeapState :=
  let m := setMagic mem start heapMagic
  -- The size of a block does not count its header.
  let m := setLen m start (sub32 size hdrSize)
  let m := setUsed m start 0
  let m := setNext m start 0
  { mem := m
    heapHead := start
    heapStartAddr := start
    heapEndAddr := add32 start size
    heapUsed := 0
    log := [.initialised start (size / 1024)] }

/-- The split of `kmalloc`: a new free header behind `size` bytes of `blk`. -/
def kmallocSplit (m : Mem) (blk size : ℕ) : Mem :=
  let split := add32 (add32 blk hdrSize) size
  let m := setMagic m split heapMagic
  let m := setLen m split (sub32 (sub32 (hdrLen m blk) size) hdrSize)
  let m := setUsed m split 0
  let m := setNext m split (hdrNext m blk)
  let m := setLen m blk size
  setNext m blk split

/-- What `kmalloc` does with the first block that fits: split it if the rest can hold a header
and four bytes, mark it used and return its payload. -/
def kmallocTake (h : HeapState) (size blk : ℕ) : ℕ × HeapState :=
  let m :=
    -- The sum on the left is a 32-bit one.
    if add32 (add32 size hdrSize) 4 ≤ hdrLen h.mem blk then kmallocSplit h.mem blk size
    else h.mem
  let m := setUsed m blk 1
  -- The size is read again, because the split may have changed it.
  (add32 blk hdrSize, { h with mem := m, heapUsed := add32 h.heapUsed (hdrLen m blk) })

/-- One turn of the `while (blk)` loop of `kmalloc`: either the next block to look at, or the
returned pointer and the state on return. -/
def kmallocTurn (h : HeapState) (size blk : ℕ) : ℕ ⊕ (ℕ × HeapState) :=
  if blk = 0 then .inr (0, h.kprintf (.outOfMemory size))
  else if hdrMagic h.mem blk ≠ heapMagic then .inr (0, h.kprintf (.corruption blk))
  else if hdrUsed h.mem blk = 0 ∧ size ≤ hdrLen h.mem blk then .inr (kmallocTake h size blk)
  else .inl (hdrNext h.mem blk)

/-- `kmalloc(size)`: the returned pointer, `0` for `NULL`, and the new state. `none` if the
chain walk never ends. -/
def kmalloc (h : HeapState) (size : ℕ) : Option (ℕ × HeapState) :=
  if size = 0 then some (0, h)
  else loop (kmallocTurn h (align4 size)) walkFuel h.heapHead

/-- The zeroing loop of `kzalloc`: `n` byte stores from `p` on, at 32-bit addresses. -/
def zeroBytes (m : Mem) (p : ℕ) : ℕ → Mem
  | 0 => m
  | i + 1 => (zeroBytes m p i).store8 (add32 p i) 0

/-- `kzalloc(size)`: allocate, then zero `size` bytes. -/
def kzalloc (h : HeapState) (size : ℕ) : Option (ℕ × HeapState) :=
  match kmalloc h size with
  | none => none
  | some (p, h') =>
    if p ≠ 0 then some (p, { h' with mem := zeroBytes h'.mem p size }) else some (p, h')

/-- The coalescing step of `kfree`: merge `blk` with its successor if that one is free. -/
def kfreeCoalesce (m : Mem) (blk : ℕ) : Mem :=
  if hdrNext m blk ≠ 0 ∧ hdrUsed m (hdrNext m blk) = 0 then
    let m := setLen m blk (add32 (hdrLen m blk) (add32 hdrSize (hdrLen m (hdrNext m blk))))
    setNext m blk (hdrNext m (hdrNext m blk))
  else m

/-- `kfree(ptr)`: check the header before `ptr`, mark the block free and coalesce. -/
def kfree (h : HeapState) (ptr : ℕ) : HeapState :=
  if ptr = 0 then h
  else
    let blk := sub32 ptr hdrSize
    -- The canary is the only check that there is a header before the pointer.
    if hdrMagic h.mem blk ≠ heapMagic then h.kprintf (.badMagic blk)
    else if hdrUsed h.mem blk = 0 then h.kprintf (.doubleFree ptr)
    else
      { h with
        heapUsed := sub32 h.heapUsed (hdrLen h.mem blk)
        mem := kfreeCoalesce (setUsed h.mem blk 0) blk }

end Lightstreak
