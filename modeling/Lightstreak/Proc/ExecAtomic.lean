import Lightstreak.Fs.RamfsWrites
import Lightstreak.Proc.Lifecycle

/-!
# A program that cannot be loaded (`kernel/proc/exec.c`)

`exec` can fail at four points. At the last one, the creation of the process, the file has already
been copied over the load area; but the memory of the temporary buffer has been given back by then,
and it is more than a process needs.

* `processFits_of_alloc`: so this point is not reached;
* `exec_null_spec`: at the others nothing has been written outside the heap, and the blocks in use
  are the ones from before;
* `exec_null_untouched`: hence a call that returns `NULL` leaves the load area, the scheduler and
  the allocations alone, for a heap that does not reach into the load area;
* `exec_null_splits_loadArea`: otherwise the header of a split block may stay in the load area.
-/

namespace Lightstreak

open SysLib SysLib.FirstFit

variable {bs bs' : List Block} {s s' : ExecState} {filename : List UInt8} {h : HeapState}

/-- The load area, the run queue with its processes and `next_pid`, `heap_used` and the allocated
blocks are the same. -/
structure ExecUntouched (s s' : ExecState) : Prop where
  /-- The load area is as before. -/
  loadArea : ∀ x, userLoadAddr ≤ x → x < userLoadAddr + execBufSize →
    s'.heap.mem x = s.heap.mem x
  /-- The scheduler is as before. -/
  sched : s'.sched = s.sched
  /-- As many bytes are allocated as before. -/
  heapUsed : s'.heap.heapUsed = s.heap.heapUsed
  /-- The same blocks are allocated. -/
  blocks : ∀ b, AllocatedBlock s'.heap b ↔ AllocatedBlock s.heap b

/-- A free block of the size of the temporary buffer has room for a process. -/
theorem processFits_of_fits {b : Block} (hb : b ∈ bs) (hfits : Fits execBufSize b) :
    ProcessFits bs := by
  obtain ⟨hfree, hsize⟩ := hfits
  have hpsize : align4 processSize = 416 := by decide
  have hssize : align4 kernelStackSize = 8192 := by decide
  have hbuf : execBufSize = 32768 := rfl
  have hboth : Fits (align4 processSize + hdrSize + align4 kernelStackSize) b :=
    ⟨hfree, by rw [hpsize, hssize, hdrSize]; omega⟩
  -- First fit may take the process from another block; a block with room for both is then whole.
  cases hpcb : alloc hdrSize 4 (align4 processSize) bs with
  | none => exact absurd ⟨hfree, by omega⟩ (alloc_eq_none_iff.mp hpcb b hb)
  | some r =>
    obtain ⟨c, hc, hstack⟩ := exists_fits_of_alloc hpcb (by rw [hssize]; omega) hb hboth
    cases hkst : alloc hdrSize 4 (align4 kernelStackSize) r.2 with
    | none => exact absurd hstack (alloc_eq_none_iff.mp hkst c hc)
    | some r' => exact ⟨r.1, r.2, r'.1, r'.2, hpcb, hkst⟩

/-- Where the temporary buffer has been released, there is room for a process. -/
theorem processFits_of_alloc {tmpbuf : ℕ} {bs₁ : List Block} (hi : HeapInv h bs₁)
    (halloc : alloc hdrSize 4 (align4 execBufSize) bs = some (tmpbuf, bs₁)) :
    ProcessFits (release hdrSize tmpbuf bs₁) := by
  obtain ⟨b, hb, hused, rfl, hsize⟩ := exists_mem_of_alloc halloc
  obtain ⟨c, hc, hfree, hle⟩ := exists_fits_release hi.tiles (by decide) hb hused
  have hbuf : align4 execBufSize = execBufSize := by decide
  exact processFits_of_fits hc ⟨hfree, by omega⟩

theorem length_of_memCopyOut {data : ℕ → UInt8} {first n : ℕ} {bytes : List UInt8}
    (h : memCopyOut data first n = some bytes) : bytes.length = n := by
  induction n generalizing bytes with
  | zero =>
    cases h
    rfl
  | succ n ih =>
    obtain ⟨l, hl, h⟩ := Option.bind_eq_some_iff.mp h
    split at h
    next =>
      cases h
      rw [List.length_append, ih hl, List.length_singleton]
    next => cases h

/-- What `ramfs_read` reports is the number of bytes that it has put into the buffer. -/
theorem ramfsRead_zero {files : Ramfs} {fileIdx n : ℤ} {bytes : List UInt8}
    (hread : ramfsRead files fileIdx 0 execBufSize = some (n, bytes)) :
    (n = -1 ∧ bytes = []) ∨ (n = bytes.length ∧ bytes.length ≤ execBufSize) := by
  unfold ramfsRead at hread
  split at hread
  next => exact .inl (by cases hread; exact ⟨rfl, rfl⟩)
  next =>
    dsimp only at hread
    split at hread
    next => exact .inl (by cases hread; exact ⟨rfl, rfl⟩)
    next =>
      split at hread
      next => exact .inr (by cases hread; exact ⟨rfl, by decide⟩)
      next =>
        -- The length is cut to the buffer, so that it is not negative as an `int`.
        obtain ⟨l, hcopy, hl⟩ := Option.map_eq_some_iff.mp hread
        obtain ⟨rfl, rfl⟩ := Prod.mk.inj hl
        have hlen := length_of_memCopyOut hcopy
        have hle : l.length ≤ execBufSize := by
          rw [hlen]
          split <;> omega
        refine .inr ⟨?_, hle⟩
        rw [← hlen]
        exact toInt32_of_lt (hle.trans_lt (by decide))

/-- A call of `exec` that returns `NULL` has written to nothing outside the heap, and leaves the
blocks that were in use. -/
theorem exec_null_spec (k : KernelText) (shellTrampoline : UInt32) (hi : HeapInv s.heap bs)
    (hapart : HeapApart s.heap) (hfs : s.mountedFs = some ramfsOps)
    (hexec : exec k shellTrampoline s filename = some (0, s')) :
    SameOutside s.heap s'.heap ∧ s'.sched = s.sched ∧
      ∃ bs', HeapInv s'.heap bs' ∧ (inUse bs').Perm (inUse bs) := by
  have hspec := hexec
  unfold exec at hexec
  obtain ⟨fileIdx, hopen, hexec⟩ := Option.bind_eq_some_iff.mp hexec
  by_cases hidx : fileIdx < 0
  · -- The file was not found.
    rw [if_pos hidx] at hexec
    cases hexec
    exact ⟨⟨rfl, rfl, fun _ _ => rfl⟩, rfl, bs, hi, .refl _⟩
  rw [if_neg hidx] at hexec
  obtain ⟨tmpbuf, h₁, hk, hsame, hcase⟩ := hi.kmalloc_outside (n := execBufSize) (by decide)
  rw [hk, Option.bind_eq_bind, Option.bind_some] at hexec
  dsimp only at hexec
  rcases hcase with ⟨rfl, -, hi₁⟩ | ⟨bs₁, halloc, hi₁⟩
  · -- No memory for the temporary buffer.
    rw [if_pos rfl] at hexec
    cases hexec
    exact ⟨hsame, rfl, bs, hi₁, .refl _⟩
  obtain ⟨b, rfl, hused, hsize, hperm⟩ := perm_inUse_of_alloc halloc
  have hb : b ∈ bs₁ := (mem_inUse.mp (hperm.mem_iff.mpr List.mem_cons_self)).1
  rw [if_neg (by simp [hdrSize])] at hexec
  obtain ⟨⟨fileSize, bytes⟩, hread, hexec⟩ := Option.bind_eq_some_iff.mp hexec
  dsimp only at hexec
  have hbytes : (fileSize = -1 ∧ bytes = []) ∨
      (fileSize = bytes.length ∧ bytes.length ≤ execBufSize) := by
    rw [hfs] at hread
    exact ramfsRead_zero hread
  by_cases hfile : fileSize ≤ 0
  · -- The file was empty or could not be read: nothing is in the buffer, and it is freed.
    have hnil : bytes = [] := by
      rcases hbytes with ⟨-, h⟩ | ⟨h, -⟩
      · exact h
      · exact List.length_eq_zero_iff.mp (by omega)
    rw [if_pos hfile, hnil] at hexec
    cases hexec
    have hfree := perm_inUse_release hi₁.tiles (by decide) hb hused
    exact ⟨hsame.trans (hi₁.kfree_outside hb hused), rfl, _, (kfree_spec hi₁ hb hused).1,
      (hfree.symm.trans hperm).cons_inv⟩
  · -- With the memory of the buffer, the creation of the process does not fail.
    obtain ⟨hsize', hle⟩ := hbytes.resolve_left fun h => hfile (by omega)
    obtain ⟨idx, rfl⟩ := Int.eq_ofNat_of_zero_le (not_lt.mp hidx)
    rw [hsize'] at hread
    obtain ⟨p, s₁, hexec', hnull, -⟩ :=
      exec_spec k shellTrampoline hi hapart hopen hread (by omega) hle
    obtain ⟨rfl, -⟩ := Prod.mk.inj (Option.some.inj (hexec'.symm.trans hspec))
    exact absurd ((execFits_iff halloc).mpr (processFits_of_alloc hi₁ halloc)) (hnull.mp rfl)

/-- `exec` is atomic: a call that returns `NULL` leaves the load area, the scheduler and the
allocations as they were. -/
theorem exec_null_untouched (k : KernelText) (shellTrampoline : UInt32) (hi : HeapInv s.heap bs)
    (hapart : HeapApart s.heap) (hfs : s.mountedFs = some ramfsOps)
    (hexec : exec k shellTrampoline s filename = some (0, s')) : ExecUntouched s s' := by
  obtain ⟨hsame, hsched, bs', hi', hperm⟩ :=
    exec_null_spec k shellTrampoline hi hapart hfs hexec
  refine ⟨fun x hlo hhi => hsame.mem x ?_, hsched, hi.heapUsed_of_perm hi' hperm, fun b => ?_⟩
  · unfold HeapApart at hapart
    omega
  · rw [hi'.allocatedBlock_iff, hi.allocatedBlock_iff, hperm.mem_iff]

/-! ## An empty file -/

/-- A kernel with one file, which is empty, and a heap of 2 MB that has just been initialised. -/
def emptyFileState (heapBase : ℕ) : ExecState :=
  { progState oneEmptyFile with heap := heapInit (fun _ => 0) heapBase 0x200000 }

/-- `exec` of the empty file allocates the temporary buffer and frees it. -/
theorem exec_emptyFile (k : KernelText) (shellTrampoline : UInt32) {heapBase q : ℕ} {h₁ : HeapState}
    (hk : kmalloc (emptyFileState heapBase).heap execBufSize = some (q, h₁)) (hq : q ≠ 0) :
    ∃ s', exec k shellTrampoline (emptyFileState heapBase) [0] = some (0, s') ∧
      s'.heap = kfree h₁ q := by
  have hfound : vfsOpen (some ramfsOps) oneEmptyFile [0] = some 0 := by decide
  have hopen : vfsOpen (emptyFileState heapBase).mountedFs (emptyFileState heapBase).files [0] =
      some 0 := hfound
  have hread : vfsRead (emptyFileState heapBase).mountedFs (emptyFileState heapBase).files 0 0
      execBufSize = some (0, []) := rfl
  refine ⟨{ emptyFileState heapBase with heap := kfree h₁ q }.kprintf (.unreadable (cstr [0])),
    ?_, rfl⟩
  simp only [exec, hopen, hk, hread, Option.bind_eq_bind, Option.bind_some, if_neg hq,
    Option.pure_def]
  rfl

/-- The documented layout: the heap ends below the load area. -/
theorem exec_null_untouched_emptyFile :
    ∃ s', exec (.ofBase 0x1000 (by decide)) 0x2000 (emptyFileState 0x313000) [0] = some (0, s') ∧
      ExecUntouched (emptyFileState 0x313000) s' := by
  have hi : HeapInv (emptyFileState 0x313000).heap [⟨0x313000, 0x1FFFF0, false⟩] :=
    heapInv_heapInit (fun _ => 0) (by decide) (by decide) (by decide) (by decide) (by decide)
  obtain ⟨q, h₁, hk, -, ⟨-, hnone, -⟩ | ⟨bs₁, halloc, -⟩⟩ :=
    hi.kmalloc_outside (n := execBufSize) (by decide)
  · exact absurd hnone (by decide)
  · obtain ⟨b, -, -, rfl, -⟩ := exists_mem_of_alloc halloc
    obtain ⟨s', hexec, -⟩ := exec_emptyFile (.ofBase 0x1000 (by decide)) 0x2000 hk
      (by simp [hdrSize])
    exact ⟨s', hexec, exec_null_untouched _ _ hi (.inl (by decide)) rfl hexec⟩

theorem heapInit_of_ge (mem : Mem) {start size x : ℕ} (hx : start + 16 ≤ x) :
    (heapInit mem start size).mem x = mem x := by
  simp (disch := omega) only [heapInit, setMagic, setLen, setUsed, setNext,
    Mem.store32_apply_of_outside, Mem.store8_of_ne]

/-- A heap whose start is pushed up by large boot modules reaches into the load area: the header
that `kmalloc` writes behind the temporary buffer stays there after `kfree`. -/
theorem exec_null_splits_loadArea :
    ¬ ∀ (k : KernelText) (shellTrampoline : UInt32) (s s' : ExecState) (bs : List Block)
      (filename : List UInt8), HeapInv s.heap bs → s.mountedFs = some ramfsOps →
        exec k shellTrampoline s filename = some (0, s') → ExecUntouched s s' := by
  intro h
  have hi : HeapInv (emptyFileState 0x5F8000).heap [⟨0x5F8000, 0x1FFFF0, false⟩] :=
    heapInv_heapInit (fun _ => 0) (by decide) (by decide) (by decide) (by decide) (by decide)
  have halloc : alloc hdrSize 4 (align4 execBufSize) [⟨0x5F8000, 0x1FFFF0, false⟩] =
      some (0x5F8010, [⟨0x5F8000, 0x8000, true⟩, ⟨0x600010, 0x1F7FE0, false⟩]) := by decide
  obtain ⟨q, h₁, hk, ⟨bs₁, halloc', hi₁, -⟩ | ⟨-, hnone, -⟩⟩ :=
    kmalloc_spec hi (n := execBufSize) (by decide)
  · obtain ⟨rfl, rfl⟩ := Prod.mk.inj (Option.some.inj (halloc.symm.trans halloc'))
    obtain ⟨s', hexec, hheap⟩ := exec_emptyFile (.ofBase 0x1000 (by decide)) 0x2000 hk (by decide)
    have hmem := (h _ _ _ _ _ _ hi rfl hexec).loadArea
    -- `kfree` writes to the header of its own block only.
    obtain ⟨-, hframe⟩ := kfree_spec hi₁ List.mem_cons_self rfl
    dsimp only at hframe
    have hsplit : HeapInv h₁ ([⟨0x5F8000, 0x8000, true⟩] ++ ⟨0x600010, 0x1F7FE0, false⟩ :: []) :=
      hi₁
    obtain ⟨-, hhdr, -⟩ := hsplit.split
    have hstays : s'.heap.mem.load32 0x600010 = heapMagic := by
      rw [hheap, ← hhdr.magic, hdrMagic]
      exact Mem.load32_congr fun x hlo _ => hframe x (by omega)
    have hbefore : (emptyFileState 0x5F8000).heap.mem.load32 0x600010 = 0 :=
      Mem.load32_congr (m := fun _ => 0) fun x hlo _ => heapInit_of_ge (fun _ => 0) (by omega)
    rw [Mem.load32_congr fun x hlo hhi => hmem x (by unfold userLoadAddr; omega)
      (by unfold userLoadAddr execBufSize; omega), hbefore] at hstays
    exact absurd hstays (by decide)
  · rw [halloc] at hnone
    cases hnone

end Lightstreak
