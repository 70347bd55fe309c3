import Lightstreak.Fs.Initramfs
import Lightstreak.Mm.HeapPrivate
import Lightstreak.Proc.Creation
import Lightstreak.Proc.Scheduler
import Lightstreak.Syscall.FileCalls

/-!
# The program loader (`kernel/proc/exec.c`)

`exec` reads a file into a temporary buffer of 32 KB on the heap, copies the buffer to `0x600000`
and creates a kernel thread for it. The heap, the load area and the stacks are one memory; the
fields of a process that the scheduler and the file calls use are in the states of their models.

* `SameOutside`: the calls of the heap leave the memory outside it alone;
* `exec_spec`: what `exec` does with a file that can be read: it fails for lack of memory, or the
  bytes it has read are in the load area;
* `exec_copies_iff`: after the image of a directory was loaded, `exec` of a packed file has copied
  all of it, or has returned `NULL`, if and only if the file is at most 32 KB or memory is short.
-/

namespace Lightstreak

open SysLib SysLib.FirstFit

/-- `USER_LOAD_ADDR` -/
def userLoadAddr : ℕ := 0x600000

/-- The size of the temporary buffer. -/
def execBufSize : ℕ := 32 * 1024

/-- The messages of `exec`, with the values that it prints in them. -/
inductive ExecMsg
  /-- `[EXEC] File not found: %s` -/
  | fileNotFound (filename : List UInt8)
  /-- `[EXEC] Out of memory for temp buffer` -/
  | outOfMemory
  /-- `[EXEC] Empty or unreadable file: %s` -/
  | unreadable (filename : List UInt8)
  /-- `[EXEC] Failed to create process` -/
  | noProcess
  /-- `[EXEC] Loaded '%s' (%d bytes) as PID %u at 0x%x` -/
  | loaded (filename : List UInt8) (fileSize : ℤ) (pid addr : ℕ)
deriving DecidableEq, Repr

/-- The state that `exec` works on. A process is the address of its `process_t`. -/
structure ExecState where
  /-- The heap, with memory. -/
  heap : HeapState
  /-- The file system that is mounted. -/
  mountedFs : Option (FsOps Ramfs)
  /-- The files. -/
  files : Ramfs
  /-- The scheduler. -/
  sched : SchedState ℕ
  /-- The descriptors of each process. -/
  fdTable : ℕ → ℕ → FdEntry
  /-- `vmm_get_kernel_dir()` -/
  kernelDir : UInt32
  /-- The messages printed. -/
  log : List ExecMsg

/-- Print one message. -/
def ExecState.kprintf (s : ExecState) (msg : ExecMsg) : ExecState :=
  { s with log := s.log ++ [msg] }

/-- `mem_copy_exec(dst, src, n)`. Neither range reaches the end of the address space. -/
def memCopyExec (m : Mem) (dst src n : ℕ) : Mem := m.copy dst src n

/-- `process_create(entry_fn)` on the state of `exec`. What the scheduler uses of the new PCB is
entered in its own state, with the end of the block at `kernel_stack` as `kernel_stack_top`. -/
def processCreateAlloc (k : KernelText) (s : ExecState) (entryFn : UInt32) :
    Option (ℕ × ExecState) := do
  let (p, t) ← (CreateCall.create s.kernelDir entryFn).exec k ⟨s.heap, s.sched.nextPid⟩
  let s := { s with heap := t.heap }
  if p = 0 then return (0, s)
  let top := add32 (s.heap.mem.load32 (p + 12)) kernelStackSize
  return (p, { s with sched := initPcb s.sched p top })

/-- The descriptor table of a new process: only the three standard descriptors are open. -/
def newFdTable : ℕ → FdEntry := fun fd => ⟨-1, 0, decide (fd < 3)⟩

/-- The part of `exec` from the creation of the process on. -/
def execStart (k : KernelText) (shellTrampoline : UInt32) (s : ExecState) (filename : List UInt8)
    (fileSize : ℤ) : Option (ℕ × ExecState) := do
  let (p, s) ← processCreateAlloc k s shellTrampoline
  if p = 0 then return (0, s.kprintf .noProcess)
  let s := { s with
    fdTable := Function.update s.fdTable p newFdTable
    sched := schedulerAdd s.sched (some p) }
  return (p, s.kprintf (.loaded (cstr filename) fileSize (s.sched.procs p).pid userLoadAddr))

/-- `exec(filename)`: the new process, `0` for `NULL`. -/
def exec (k : KernelText) (shellTrampoline : UInt32) (s : ExecState) (filename : List UInt8) :
    Option (ℕ × ExecState) := do
  let fileIdx ← vfsOpen s.mountedFs s.files filename
  if fileIdx < 0 then return (0, s.kprintf (.fileNotFound (cstr filename)))
  let (tmpbuf, heap) ← kmalloc s.heap execBufSize
  if tmpbuf = 0 then return (0, { s with heap := heap }.kprintf .outOfMemory)
  let (fileSize, bytes) ← vfsRead s.mountedFs s.files fileIdx 0 execBufSize
  let mem := heap.mem.storeBytes tmpbuf bytes
  -- An empty file is refused like one that cannot be read.
  if fileSize ≤ 0 then
    let heap := kfree { heap with mem := mem } tmpbuf
    return (0, { s with heap := heap }.kprintf (.unreadable (cstr filename)))
  -- The load address is the same for every program.
  let mem := memCopyExec mem userLoadAddr tmpbuf fileSize.toNat
  let heap := kfree { heap with mem := mem } tmpbuf
  execStart k shellTrampoline { s with heap := heap } filename fileSize

/-! ## Heap calls leave the rest of memory alone -/

variable {h h' h'' : HeapState} {bs : List Block} {b : Block} {n p : ℕ} {m' : Mem}

/-- The heap is in the same place, and memory outside it is the same. -/
structure SameOutside (h h' : HeapState) : Prop where
  /-- The heap starts where it did. -/
  start : h'.heapStartAddr = h.heapStartAddr
  /-- The heap ends where it did. -/
  stop : h'.heapEndAddr = h.heapEndAddr
  /-- Memory outside the heap is as before. -/
  mem : ∀ x, x < h.heapStartAddr ∨ h.heapEndAddr ≤ x → h'.mem x = h.mem x

theorem SameOutside.trans (h₁ : SameOutside h h') (h₂ : SameOutside h' h'') :
    SameOutside h h'' where
  start := h₂.start.trans h₁.start
  stop := h₂.stop.trans h₁.stop
  mem x hx := (h₂.mem x (by rw [h₁.start, h₁.stop]; exact hx)).trans (h₁.mem x hx)

/-- Writing to the payload of a block. -/
theorem HeapInv.sameOutside_payload (hi : HeapInv h bs) (hb : b ∈ bs)
    (hm : ∀ x, x < b.addr + 16 ∨ b.addr + 16 + b.size ≤ x → m' x = h.mem x) :
    SameOutside h { h with mem := m' } := by
  have hbd := hi.block_bounds hb
  exact ⟨rfl, rfl, fun x hx => hm x (by omega)⟩

/-- Writing outside the heap. -/
theorem HeapInv.write_outside (hi : HeapInv h bs)
    (hm : ∀ x, h.heapStartAddr ≤ x → x < h.heapEndAddr → m' x = h.mem x) :
    HeapInv { h with mem := m' } bs :=
  hi.congr_headers fun b hb x h₁ h₂ => by
    have hbd := hi.block_bounds hb
    exact hm x (by omega) (by omega)

/-- `kmalloc` writes inside the heap only. -/
theorem HeapInv.kmalloc_outside (hi : HeapInv h bs) (hn : n ≠ 0) :
    ∃ q h', kmalloc h n = some (q, h') ∧ SameOutside h h' ∧
      ((q = 0 ∧ alloc hdrSize 4 (align4 n) bs = none ∧ HeapInv h' bs) ∨
        ∃ bs', alloc hdrSize 4 (align4 n) bs = some (q, bs') ∧ HeapInv h' bs') := by
  obtain ⟨q, h', hk, hcase⟩ := kmalloc_spec hi hn
  obtain ⟨hstart, hstop⟩ := kmalloc_bounds hk
  refine ⟨q, h', hk, ?_⟩
  rcases hcase with ⟨bs', halloc, hi', hframe⟩ | ⟨hnull, hnone, hi', hmem⟩
  · refine ⟨⟨hstart, hstop, fun x hx => hframe x fun c hc => ?_⟩, .inr ⟨bs', halloc, hi'⟩⟩
    have hbd := hi'.block_bounds hc
    omega
  · exact ⟨⟨hstart, hstop, fun x _ => by rw [hmem]⟩, .inl ⟨hnull, hnone, hi'⟩⟩

/-- `kzalloc` writes inside the heap only. -/
theorem HeapInv.kzalloc_outside (hi : HeapInv h bs) (hn : n ≠ 0) (hmax : n ≤ 0xFFFFFFFC) :
    ∃ q h', kzalloc h n = some (q, h') ∧ SameOutside h h' ∧
      ((q = 0 ∧ alloc hdrSize 4 (align4 n) bs = none ∧ HeapInv h' bs) ∨
        ∃ bs', alloc hdrSize 4 (align4 n) bs = some (q, bs') ∧ HeapInv h' bs') := by
  obtain ⟨q, h', hk, hsame, ⟨rfl, hnone, hi'⟩ | ⟨bs', halloc, hi'⟩⟩ := hi.kmalloc_outside hn
  · exact ⟨0, h', by simp [kzalloc, hk], hsame, .inl ⟨rfl, hnone, hi'⟩⟩
  · obtain ⟨b, hb, -, rfl, hsize⟩ := exists_mem_of_alloc halloc
    obtain ⟨hz, hzero⟩ := hi'.kzalloc_of_kmalloc hb hmax hsize hk
    exact ⟨_, _, hz, hsame.trans (hi'.sameOutside_payload hb hzero),
      .inr ⟨bs', halloc, hi'.write_payload hb hzero⟩⟩

/-- `kfree` writes inside the heap only. -/
theorem HeapInv.kfree_outside (hi : HeapInv h bs) (hb : b ∈ bs) (hused : b.used = true) :
    SameOutside h (kfree h (b.addr + hdrSize)) := by
  have hbd := hi.block_bounds hb
  obtain ⟨-, hframe⟩ := kfree_spec hi hb hused
  refine ⟨?_, ?_, fun x hx => hframe x (by omega)⟩
  all_goals
    unfold kfree
    dsimp only
    split_ifs <;> rfl

/-! ## Creating a process -/

variable (k : KernelText) (entryFn shellTrampoline : UInt32) {s : ExecState}

/-- The heap has room for the PCB and the stack of a process. -/
def ProcessFits (bs : List Block) : Prop :=
  ∃ p bs₁ stack bs₂, alloc hdrSize 4 (align4 processSize) bs = some (p, bs₁) ∧
    alloc hdrSize 4 (align4 kernelStackSize) bs₁ = some (stack, bs₂)

/-- Once the PCB is allocated, the process fits if its stack does. -/
theorem processFits_iff {bs₁ : List Block}
    (halloc : alloc hdrSize 4 (align4 processSize) bs = some (p, bs₁)) :
    ProcessFits bs ↔
      ∃ stack bs₂, alloc hdrSize 4 (align4 kernelStackSize) bs₁ = some (stack, bs₂) := by
  constructor
  · rintro ⟨p, bs', stack, bs₂, halloc', hstack⟩
    obtain ⟨-, rfl⟩ := Prod.mk.inj (Option.some.inj (halloc.symm.trans halloc'))
    exact ⟨stack, bs₂, hstack⟩
  · rintro ⟨stack, bs₂, hstack⟩
    exact ⟨p, bs₁, stack, bs₂, halloc, hstack⟩

/-- All that a creation writes is in the blocks of the PCB and of the stack. -/
theorem HeapInv.build_outside {build : Mem → ℕ → ℕ → ℕ → Mem} (hbuild : BuildsProcess build)
    {c : Block} (hi : HeapInv h bs) (hb : b ∈ bs) (hc : c ∈ bs)
    (hne : c.addr + hdrSize ≠ b.addr + hdrSize) (hsize : processSize ≤ b.size)
    (hstack : kernelStackSize ≤ c.size) (pid : ℕ) :
    SameOutside h { h with
      mem := build (h.mem.store32 (b.addr + hdrSize + 12) (c.addr + hdrSize))
        (b.addr + hdrSize) (c.addr + hdrSize) pid } := by
  have hhdr : hdrSize = 16 := rfl
  have hproc : processSize = 416 := rfl
  have hbd := hi.block_bounds hb
  have hcd := hi.block_bounds hc
  obtain ⟨hdisj, hlt⟩ := hi.process_apart hb hc (fun h => hne (by rw [h])) hsize hstack
  refine ⟨rfl, rfl, fun x hx => ?_⟩
  exact (hbuild.outside _ _ _ _ hdisj hlt x (by omega) (by omega)).trans
    (Mem.store32_apply_of_outside _ _ (by omega))

/-- A creation returns, writes to nothing outside the heap, and fails if and only if memory is
short. -/
theorem processAlloc_outside {s : ProcHeap} {build : Mem → ℕ → ℕ → ℕ → Mem}
    (hbuild : BuildsProcess build) (hi : HeapInv s.heap bs) :
    ∃ p s', processAlloc s build = some (p, s') ∧ SameOutside s.heap s'.heap ∧
      (p = 0 ↔ ¬ProcessFits bs) := by
  have hpsize : align4 processSize = processSize := by decide
  have hssize : align4 kernelStackSize = kernelStackSize := by decide
  obtain ⟨p, h₁, hk₁, hsame₁, ⟨rfl, hnone, -⟩ | ⟨bs₁, halloc₁, hi₁⟩⟩ :=
    hi.kzalloc_outside (n := processSize) (by decide) (by decide)
  · -- No memory for the PCB.
    refine ⟨0, { s with heap := h₁ }, ?_, hsame₁, ?_⟩
    · simp only [processAlloc, hk₁, Option.bind_eq_bind, Option.bind_some, if_true,
        Option.pure_def]
    · refine iff_of_true rfl ?_
      rintro ⟨p, bs₁, stack, bs₂, halloc, -⟩
      rw [hnone] at halloc
      cases halloc
  obtain ⟨b, hb, hused, rfl, hsize⟩ := exists_mem_of_alloc halloc₁
  rw [hpsize] at hsize
  have hp0 : b.addr + hdrSize ≠ 0 := by simp [hdrSize]
  obtain ⟨stack, h₂, hk₂, hsame₂, ⟨rfl, hnone, hi₂⟩ | ⟨bs₂, halloc₂, hi₂⟩⟩ :=
    hi₁.kzalloc_outside (n := kernelStackSize) (by decide) (by decide)
  · -- No memory for the stack, and the PCB is freed.
    have hstore : ∀ x, x < b.addr + 16 ∨ b.addr + 16 + b.size ≤ x →
        h₂.mem.store32 (b.addr + hdrSize + 12) 0 x = h₂.mem x := fun x hx =>
      Mem.store32_apply_of_outside _ _ (by simp only [hdrSize, processSize] at hsize ⊢; omega)
    have hpayload := hi₂.sameOutside_payload hb hstore
    have hi₃ := hi₂.write_payload hb hstore
    generalize hh₃ : ({ h₂ with mem := h₂.mem.store32 (b.addr + hdrSize + 12) 0 } : HeapState) = h₃
      at hpayload hi₃
    refine ⟨0, { s with heap := kfree h₃ (b.addr + hdrSize) }, ?_, ?_, ?_⟩
    · simp only [processAlloc, hk₁, hk₂, Option.bind_eq_bind, Option.bind_some, if_neg hp0,
        if_true, Option.pure_def, hh₃]
    · exact ((hsame₁.trans hsame₂).trans hpayload).trans (hi₃.kfree_outside hb hused)
    · refine iff_of_true rfl ?_
      rw [processFits_iff halloc₁, hnone]
      rintro ⟨stack, bs₂, hstack⟩
      cases hstack
  · -- Both are there: the bytes of the new process lie in its two blocks.
    obtain ⟨c, hc, -, rfl, hstack⟩ := exists_mem_of_alloc halloc₂
    rw [hssize] at hstack
    obtain ⟨hb₂, hne⟩ := mem_of_alloc (by decide) hi₁.tiles halloc₂ hb hused
    have hs0 : c.addr + hdrSize ≠ 0 := by simp [hdrSize]
    have hwritten := hi₂.build_outside hbuild hb₂ hc hne hsize hstack s.nextPid
    let m₃ := build (h₂.mem.store32 (b.addr + hdrSize + 12) (c.addr + hdrSize))
      (b.addr + hdrSize) (c.addr + hdrSize) s.nextPid
    refine ⟨b.addr + hdrSize, ⟨{ h₂ with mem := m₃ }, add32 s.nextPid 1⟩, ?_,
      (hsame₁.trans hsame₂).trans hwritten, ?_⟩
    · simp only [processAlloc, hk₁, hk₂, Option.bind_eq_bind, Option.bind_some, if_neg hp0,
        if_neg hs0, Option.pure_def, m₃]
    · exact iff_of_false hp0 (not_not_intro ((processFits_iff halloc₁).mpr ⟨_, _, halloc₂⟩))

/-- `process_create` returns, writes to nothing outside the heap, prints nothing, and fails if and
only if memory is short. -/
theorem processCreateAlloc_spec (hi : HeapInv s.heap bs) :
    ∃ p s', processCreateAlloc k s entryFn = some (p, s') ∧ SameOutside s.heap s'.heap ∧
      s'.log = s.log ∧ (p = 0 ↔ ¬ProcessFits bs) := by
  obtain ⟨p, t, halloc, hsame, hfail⟩ := processAlloc_outside (s := ⟨s.heap, s.sched.nextPid⟩)
    ((CreateCall.create s.kernelDir entryFn).buildsProcess (k := k)) hi
  by_cases hp : p = 0
  · refine ⟨p, { s with heap := t.heap }, ?_, hsame, rfl, hfail⟩
    simp only [processCreateAlloc, CreateCall.exec, halloc, hp, Option.bind_eq_bind,
      Option.bind_some, if_true, Option.pure_def]
  · refine ⟨p, { s with
      heap := t.heap
      sched := initPcb s.sched p (add32 (t.heap.mem.load32 (p + 12)) kernelStackSize) }, ?_,
      hsame, rfl, hfail⟩
    simp only [processCreateAlloc, CreateCall.exec, halloc, Option.bind_eq_bind,
      Option.bind_some, if_neg hp, Option.pure_def]

/-! ## The whole call -/

/-- `exec` has reported that it loaded these bytes as the file of that name, and they are in the
load area. The number in the report is the one that `mem_copy_exec` was called with. -/
def Copied (s : ExecState) (name data : List UInt8) : Prop :=
  (∃ pid, s.log.getLast? = some (.loaded name data.length pid userLoadAddr)) ∧
    ∀ (i : ℕ) (hi : i < data.length), s.heap.mem (userLoadAddr + i) = data[i]

/-- Of the memory outside the heap, only `n` bytes in the load area have changed. -/
def OnlyLoaded (h h' : HeapState) (n : ℕ) : Prop :=
  ∀ x, x < h.heapStartAddr ∨ h.heapEndAddr ≤ x → x < userLoadAddr ∨ userLoadAddr + n ≤ x →
    h'.mem x = h.mem x

/-- The heap has room for the temporary buffer, and then for the process. -/
def ExecFits (bs : List Block) : Prop :=
  ∃ tmpbuf bs₁, alloc hdrSize 4 (align4 execBufSize) bs = some (tmpbuf, bs₁) ∧
    ProcessFits (release hdrSize tmpbuf bs₁)

/-- Once the buffer is allocated, the program runs if the process fits after its release. -/
theorem execFits_iff {tmpbuf : ℕ} {bs₁ : List Block}
    (halloc : alloc hdrSize 4 (align4 execBufSize) bs = some (tmpbuf, bs₁)) :
    ExecFits bs ↔ ProcessFits (release hdrSize tmpbuf bs₁) := by
  constructor
  · rintro ⟨q, bs', halloc', hfits⟩
    obtain ⟨rfl, rfl⟩ := Prod.mk.inj (Option.some.inj (halloc.symm.trans halloc'))
    exact hfits
  · exact fun hfits => ⟨tmpbuf, bs₁, halloc, hfits⟩

variable {data : List UInt8} {fileIdx : ℕ}

/-- The heap does not reach into the 32 KB at the load address. -/
def HeapApart (h : HeapState) : Prop :=
  h.heapEndAddr ≤ userLoadAddr ∨ userLoadAddr + execBufSize ≤ h.heapStartAddr

/-- A heap apart from the load area stays apart. -/
theorem SameOutside.heapApart (hsame : SameOutside h h') (hapart : HeapApart h) : HeapApart h' := by
  rw [HeapApart, hsame.start, hsame.stop]
  exact hapart

/-- Starting the process leaves what was loaded. -/
theorem execStart_spec (filename : List UInt8) (hi : HeapInv s.heap bs) (hapart : HeapApart s.heap)
    (hle : data.length ≤ execBufSize)
    (hmem : ∀ (i : ℕ) (hi : i < data.length), s.heap.mem (userLoadAddr + i) = data[i]) :
    ∃ p s', execStart k shellTrampoline s filename data.length = some (p, s') ∧
      SameOutside s.heap s'.heap ∧ (p = 0 ↔ ¬ProcessFits bs) ∧
      (p ≠ 0 → Copied s' (cstr filename) data) := by
  obtain ⟨p, s₁, hcreate, hsame, -, hfail⟩ := processCreateAlloc_spec k shellTrampoline hi
  by_cases hp : p = 0
  · refine ⟨p, s₁.kprintf .noProcess, ?_, hsame, hfail, fun h => absurd hp h⟩
    simp only [execStart, hcreate, hp, Option.bind_eq_bind, Option.bind_some, if_true,
      Option.pure_def]
  · obtain ⟨s₂, hstart, hlast, hmem₂⟩ : ∃ s₂, execStart k shellTrampoline s filename data.length =
        some (p, s₂) ∧ (∃ pid, s₂.log = s₁.log ++ [.loaded (cstr filename) data.length pid
          userLoadAddr]) ∧ s₂.heap = s₁.heap := by
      simp only [execStart, hcreate, Option.bind_eq_bind, Option.bind_some, if_neg hp,
        Option.pure_def]
      exact ⟨_, rfl, ⟨_, rfl⟩, rfl⟩
    obtain ⟨pid, hlast⟩ := hlast
    refine ⟨p, s₂, hstart, by rwa [hmem₂], hfail, fun _ =>
      ⟨⟨pid, by rw [hlast, List.getLast?_concat]⟩, fun i hlt => ?_⟩⟩
    -- The load area is outside the heap.
    rw [hmem₂, hsame.mem _ (by unfold HeapApart at hapart; omega), hmem i hlt]

/-- What is copied to the load area is what was read into a block of the heap. -/
theorem HeapInv.copy_to_loadArea (hi : HeapInv h bs) (hapart : HeapApart h) (hb : b ∈ bs)
    (hused : b.used = true) (hsize : data.length ≤ b.size) (hle : data.length ≤ execBufSize)
    (hm : m' = memCopyExec (h.mem.storeBytes (b.addr + hdrSize) data) userLoadAddr
      (b.addr + hdrSize) data.length) :
    ∃ h', h' = kfree { h with mem := m' } (b.addr + hdrSize) ∧
      HeapInv h' (release hdrSize (b.addr + hdrSize) bs) ∧ HeapApart h' ∧
      OnlyLoaded h h' data.length ∧ SameOutside { h with mem := m' } h' ∧
      ∀ (i : ℕ) (hi : i < data.length), h'.mem (userLoadAddr + i) = data[i] := by
  have hbd := hi.block_bounds hb
  have hhdr : hdrSize = 16 := rfl
  unfold HeapApart at hapart
  -- The bytes are read into the payload, and then copied to outside the heap.
  have hread : ∀ x, x < b.addr + 16 ∨ b.addr + 16 + b.size ≤ x →
      h.mem.storeBytes (b.addr + hdrSize) data x = h.mem x := fun x hx =>
    Mem.storeBytes_of_outside _ (by omega)
  have hi₁ := hi.write_payload hb hread
  have hi₂ : HeapInv { h with mem := m' } bs := hi₁.write_outside fun x h₁ h₂ => by
    dsimp only at h₁ h₂ ⊢
    rw [hm, memCopyExec, Mem.copy_of_outside _ _ (by omega)]
  have hloaded : ∀ (i : ℕ) (hi : i < data.length), m' (userLoadAddr + i) = data[i] :=
    fun i hlt => by
      rw [hm, memCopyExec, Mem.copy_apply _ (by omega) hlt, Mem.storeBytes_getElem _ _ hlt]
  have hsame := hi₂.kfree_outside hb hused
  refine ⟨_, rfl, (kfree_spec hi₂ hb hused).1, hsame.heapApart hapart, fun x hx hload => ?_, hsame,
    fun i hlt => ?_⟩
  · have hout : m' x = h.mem x := by
      rw [hm, memCopyExec, Mem.copy_of_outside _ _ hload, hread x (by omega)]
    exact (hsame.mem x hx).trans hout
  · rw [hsame.mem _ (by dsimp only; omega)]
    exact hloaded i hlt

/-- `exec` of a file that can be read returns. It returns `NULL` if memory is short; otherwise the
bytes that were read are in the load area, and nothing else outside the heap has changed. -/
theorem exec_spec {filename : List UInt8} (hi : HeapInv s.heap bs) (hapart : HeapApart s.heap)
    (hopen : vfsOpen s.mountedFs s.files filename = some (fileIdx : ℤ))
    (hread : vfsRead s.mountedFs s.files fileIdx 0 execBufSize = some ((data.length : ℤ), data))
    (hpos : 0 < data.length) (hle : data.length ≤ execBufSize) :
    ∃ p s', exec k shellTrampoline s filename = some (p, s') ∧
      (p = 0 ↔ ¬ExecFits bs) ∧
      (p ≠ 0 → Copied s' (cstr filename) data ∧ OnlyLoaded s.heap s'.heap data.length) := by
  have hidx : ¬((fileIdx : ℤ) < 0) := by omega
  have hfile : ¬((data.length : ℤ) ≤ 0) := by omega
  have hbuf : align4 execBufSize = execBufSize := by decide
  obtain ⟨q, h₁, hk, hsame, ⟨rfl, hnone, -⟩ | ⟨bs₁, halloc, hi₁⟩⟩ :=
    hi.kmalloc_outside (n := execBufSize) (by decide)
  · -- No memory for the temporary buffer.
    refine ⟨0, { s with heap := h₁ }.kprintf .outOfMemory, ?_, iff_of_true rfl ?_,
      fun h => absurd rfl h⟩
    · simp only [exec, hopen, hk, Option.bind_eq_bind, Option.bind_some, if_neg hidx, if_true,
        Option.pure_def]
    · rintro ⟨q, bs₁, halloc, -⟩
      rw [hnone] at halloc
      cases halloc
  · obtain ⟨b, hb, hused, rfl, hsize⟩ := exists_mem_of_alloc halloc
    have hq : b.addr + hdrSize ≠ 0 := by simp [hdrSize]
    rw [hbuf] at hsize
    obtain ⟨h₂, hh₂, hi₂, hapart₂, honly, hfree, hmem⟩ :=
      hi₁.copy_to_loadArea (hsame.heapApart hapart) hb hused (hle.trans hsize) hle rfl
    obtain ⟨p, s', hstart, hsame', hfail, hcopied⟩ := execStart_spec k shellTrampoline
      (s := { s with heap := h₂ }) filename hi₂ hapart₂ hle hmem
    refine ⟨p, s', ?_, by rw [hfail, execFits_iff halloc],
      fun hp => ⟨hcopied hp, fun x hx hload => ?_⟩⟩
    · rw [← hstart, hh₂]
      simp only [exec, hopen, hk, hread, Option.bind_eq_bind, Option.bind_some, if_neg hidx,
        if_neg hq, if_neg hfile, Int.toNat_natCast]
    · -- Allocation, copy and creation of the process each leave the byte.
      have hx₁ : x < h₁.heapStartAddr ∨ h₁.heapEndAddr ≤ x := by
        rw [hsame.start, hsame.stop]
        exact hx
      have hx₂ : x < h₂.heapStartAddr ∨ h₂.heapEndAddr ≤ x := by
        rw [hfree.start, hfree.stop]
        exact hx₁
      exact (hsame'.mem x hx₂).trans ((honly x hx₁ hload).trans (hsame.mem x hx))

/-! ## Programs from an image -/

variable {dir : List DirEnt} {base : ℕ} {f : HostFile}

/-- `exec` of a packed file: it loads what fits the buffer of the file. -/
theorem exec_packedFile (files₀ : Ramfs) (hname : Nameable (packedFiles dir))
    (hsize : (blobBytes (packedFiles dir)).length < 2 ^ 32)
    (hfits : base + (mkramfs dir).length < 2 ^ 32) (hmounted : s.mountedFs = some ramfsOps)
    (hload : ∃ log, initramfsLoad (ReadMem.ofList base (mkramfs dir)) base (ramfsInit files₀).2 =
      some (s.files, log))
    (hi : HeapInv s.heap bs) (hapart : HeapApart s.heap) (hf : f ∈ packedFiles dir)
    (hne : f.data ≠ []) (rest : List UInt8) :
    ∃ p s', exec k shellTrampoline s (f.name ++ 0 :: rest) = some (p, s') ∧
      (p = 0 ↔ ¬ExecFits bs) ∧
      (p ≠ 0 → Copied s' f.name f.cut.data ∧ OnlyLoaded s.heap s'.heap f.cut.data.length) := by
  obtain ⟨files', log, hload', hholds⟩ := exists_initramfsLoad_packedFiles base files₀ hname
    (fun f hf => Nat.lt_of_le_of_lt (length_le_length_blobBytes hf) hsize) (by omega) (by omega)
  obtain ⟨log₁, hload⟩ := hload
  obtain ⟨rfl, -⟩ := Prod.mk.inj (Option.some.inj (hload'.symm.trans hload))
  -- The slots hold the packed files as far as these fit.
  obtain ⟨i, hfi⟩ := List.mem_iff_getElem?.mp (List.mem_map_of_mem (f := HostFile.cut) hf)
  have hpos : 0 < f.data.length := List.length_pos_iff.mpr hne
  have hcut : f.cut.data.length = min ramfsMaxFileSize f.data.length := List.length_take
  have hmax : ramfsMaxFileSize = execBufSize := rfl
  have hbuf : 0 < execBufSize := by decide
  have hopen : vfsOpen s.mountedFs s.files (f.name ++ 0 :: rest) = some (i : ℤ) := by
    rw [hmounted]
    exact hholds.openName i f.cut rest hfi
  have hread : vfsRead s.mountedFs s.files i 0 execBufSize =
      some ((f.cut.data.length : ℤ), f.cut.data) := by
    rw [hmounted]
    have hall : (f.cut.data.drop 0).take execBufSize = f.cut.data :=
      List.take_of_length_le (by rw [List.drop_zero]; omega)
    exact (hholds.read i f.cut 0 execBufSize hfi).trans (by rw [hall])
  obtain ⟨p, s', hexec, hcase⟩ := exec_spec k shellTrampoline hi hapart hopen hread (by omega)
    (by omega)
  rw [cstr_append_zero (hname.no_nul f hf)] at hcase
  exact ⟨p, s', hexec, hcase⟩

/-- The loaded bytes are all of the file if and only if the file is at most 32 KB: the message has
the number of bytes that were read. -/
theorem Copied.cut_iff {s : ExecState} (hcopied : Copied s f.name f.cut.data) :
    Copied s f.name f.data ↔ f.data.length ≤ execBufSize := by
  refine ⟨fun hall => ?_, fun hle => ?_⟩
  · obtain ⟨⟨pid, hlast⟩, -⟩ := hcopied
    obtain ⟨⟨pid', hlast'⟩, -⟩ := hall
    have heq := Option.some.inj (hlast.symm.trans hlast')
    rw [ExecMsg.loaded.injEq] at heq
    have hlen : f.cut.data.length = f.data.length := Int.ofNat.inj heq.2.1
    have hcut : f.cut.data.length ≤ execBufSize := List.length_take_le _ _
    omega
  · have hcut : f.cut.data = f.data := List.take_of_length_le hle
    rwa [hcut] at hcopied

/-- Programs are not cut off: for the image of any directory that is packed without error, loaded
into an empty ramfs, and for any heap that the kernel's calls have led to and that is not in the
load area, `exec` of a packed file that is not empty returns, and it has copied all bytes of the
file or returned `NULL` if and only if the file is at most 32 KB or memory is short. -/
theorem exec_copies_iff (k : KernelText) (shellTrampoline : UInt32) (dir : List DirEnt) (base : ℕ)
    (files₀ : Ramfs) (hname : Nameable (packedFiles dir))
    (hsize : (blobBytes (packedFiles dir)).length < 2 ^ 32)
    (hfits : base + (mkramfs dir).length < 2 ^ 32) {s : ExecState}
    (hmounted : s.mountedFs = some ramfsOps)
    (hload : ∃ log, initramfsLoad (ReadMem.ofList base (mkramfs dir)) base (ramfsInit files₀).2 =
      some (s.files, log))
    {mem : Mem} {start size : ℕ} (hpos : 0 < start) (hstart : 4 ∣ start) (hdvd : 4 ∣ size)
    (hmin : 16 ≤ size) (hend : start + size < 2 ^ 32) {ops : List HeapOp}
    (hrun : Run HeapStep (heapInit mem start size) ops s.heap)
    (hapart : Apart start size userLoadAddr execBufSize)
    {f : HostFile} (hf : f ∈ packedFiles dir) (hne : f.data ≠ []) (rest : List UInt8) :
    ∃ bs, HeapInv s.heap bs ∧ ∃ p s',
      exec k shellTrampoline s (f.name ++ 0 :: rest) = some (p, s') ∧
      ((p = 0 ∨ Copied s' f.name f.data) ↔ f.data.length ≤ execBufSize ∨ ¬ExecFits bs) := by
  obtain ⟨⟨bs, hi⟩, hs, he⟩ := heapInv_of_run mem hpos hstart hdvd hmin hend hrun
  have hheap : HeapApart s.heap := by
    rw [HeapApart, hs, he]
    exact hapart
  obtain ⟨p, s', hexec, hnull, hcopied⟩ := exec_packedFile k shellTrampoline files₀
    hname hsize hfits hmounted hload hi hheap hf hne rest
  refine ⟨bs, hi, p, s', hexec, ?_⟩
  rw [← hnull, or_comm]
  -- `exec` returns `NULL` exactly if the process does not fit the heap; otherwise the program is
  -- cut at the size of the buffer.
  by_cases hp : p = 0
  · exact iff_of_true (.inr hp) (.inr hp)
  · exact or_congr_left ((hcopied hp).1.cut_iff)

/-- A directory with one file of the name `a`. -/
def progDir (data : List UInt8) : List DirEnt := [⟨[0x61], some data⟩]

/-- A kernel with these files and an empty heap of 128 KB. -/
def progState (files : Ramfs) : ExecState where
  heap := heapInit (fun _ => 0) 0x10000 0x20000
  mountedFs := some ramfsOps
  files := files
  sched := ⟨none, none, fun _ => ⟨0, 0, .ready, 0, none⟩, 1, 0, 0⟩
  fdTable := fun _ _ => ⟨-1, 0, false⟩
  kernelDir := 0
  log := []

/-- The directory can be packed, and its image be loaded. -/
theorem exists_load_progDir (data : List UInt8) (hlen : data.length ≤ 0x10000) :
    packedFiles (progDir data) = [⟨[0x61], data⟩] ∧ Nameable (packedFiles (progDir data)) ∧
      (blobBytes (packedFiles (progDir data))).length < 2 ^ 32 ∧
      0x100000 + (mkramfs (progDir data)).length < 2 ^ 32 ∧
      ∃ files log, initramfsLoad (ReadMem.ofList 0x100000 (mkramfs (progDir data))) 0x100000
        (ramfsInit emptySlots).2 = some (files, log) := by
  have hpacked : packedFiles (progDir data) = [⟨[0x61], data⟩] := rfl
  have hname : Nameable (packedFiles (progDir data)) := by
    rw [hpacked]
    refine ⟨?_, ?_, ?_, ?_, ?_, ?_⟩ <;> simp [maxFiles, nameLen]
    decide
  have hsize : ∀ f ∈ packedFiles (progDir data), f.data.length < 2 ^ 32 := by
    simp only [hpacked, List.mem_singleton, forall_eq]
    omega
  have hblob : (blobBytes (packedFiles (progDir data))).length = data.length := by
    simp [hpacked, blobBytes]
  -- The header and one entry take 80 bytes.
  have himage : (mkramfs (progDir data)).length = 80 + data.length := by
    rw [mkramfs_eq hname.length_le hsize, imageOf, List.length_append, List.length_append,
      List.length_append, hblob, length_tableBytes _ hname.name_le]
    rfl
  obtain ⟨files, log, hload, -⟩ := exists_initramfsLoad_packedFiles 0x100000 emptySlots hname hsize
    (by omega) (by omega)
  exact ⟨hpacked, hname, by omega, by omega, files, log, hload⟩

/-- A program of two bytes is loaded. -/
theorem exec_copies_iff_twoBytes :
    ∃ files log, initramfsLoad (ReadMem.ofList 0x100000 (mkramfs (progDir [0xEB, 0xFE]))) 0x100000
        (ramfsInit emptySlots).2 = some (files, log) ∧
      ∃ p s', exec (.ofBase 0x1000 (by decide)) 0x2000 (progState files) [0x61, 0] = some (p, s') ∧
        (p = 0 ∨ Copied s' [0x61] [0xEB, 0xFE]) := by
  obtain ⟨hpacked, hname, hsize, hfits, files, log, hload⟩ :=
    exists_load_progDir [0xEB, 0xFE] (by decide)
  have hrun : Run HeapStep (heapInit (fun _ => 0) 0x10000 0x20000) [] (progState files).heap :=
    .nil _
  obtain ⟨bs, -, p, s', hexec, hiff⟩ := exec_copies_iff (.ofBase 0x1000 (by decide)) 0x2000
    (progDir [0xEB, 0xFE]) 0x100000 emptySlots hname hsize hfits (s := progState files) rfl
    ⟨log, hload⟩ (by decide) (by decide) (by decide) (by decide) (by decide) hrun (.inl (by decide))
    (f := ⟨[0x61], [0xEB, 0xFE]⟩) (by rw [hpacked]; simp) (by decide) []
  exact ⟨files, log, hload, p, s', hexec, hiff.mpr (.inl (by decide))⟩

/-- Of a program of 32769 bytes the last one is missing in the load area, and `exec` reports that it
has loaded 32768 bytes. -/
theorem exec_cuts_longProgram :
    ∃ files log,
      initramfsLoad (ReadMem.ofList 0x100000 (mkramfs (progDir (List.replicate 32769 0x90))))
        0x100000 (ramfsInit emptySlots).2 = some (files, log) ∧
      ∃ p s', exec (.ofBase 0x1000 (by decide)) 0x2000 (progState files) [0x61, 0] = some (p, s') ∧
        p ≠ 0 ∧ (∃ pid, s'.log.getLast? = some (.loaded [0x61] 32768 pid userLoadAddr)) ∧
        s'.heap.mem (userLoadAddr + 32768) = 0 ∧
        ¬Copied s' [0x61] (List.replicate 32769 0x90) := by
  obtain ⟨hpacked, hname, hsize, hfits, files, log, hload⟩ :=
    exists_load_progDir (List.replicate 32769 0x90) (by rw [List.length_replicate]; decide)
  have hi : HeapInv (progState files).heap [⟨0x10000, 0x1FFF0, false⟩] :=
    heapInv_heapInit _ (by decide) (by decide) (by decide) (by decide) (by decide)
  have hend : (progState files).heap.heapEndAddr = 0x30000 := rfl
  have hroom : ExecFits [⟨0x10000, 0x1FFF0, false⟩] :=
    ⟨_, _, rfl, _, _, _, _, rfl, rfl⟩
  obtain ⟨p, s', hexec, hnull, hcopied⟩ := exec_packedFile (.ofBase 0x1000 (by decide)) 0x2000
    emptySlots hname hsize hfits (s := progState files) rfl ⟨log, hload⟩ hi
    (.inl (hend ▸ by decide)) (f := ⟨[0x61], List.replicate 32769 0x90⟩)
    (by rw [hpacked]; exact List.mem_singleton_self _)
    (List.replicate_succ ▸ List.cons_ne_nil _ _) []
  have hp : p ≠ 0 := fun h0 => hnull.mp h0 hroom
  obtain ⟨hcopied, honly⟩ := hcopied hp
  have hcut : (HostFile.cut ⟨[0x61], List.replicate 32769 0x90⟩).data.length = 32768 := by
    rw [HostFile.cut, List.length_take, List.length_replicate]
    decide
  refine ⟨files, log, hload, p, s', hexec, hp, ?_, ?_, fun hall => ?_⟩
  · obtain ⟨pid, hlast⟩ := hcopied.1
    rw [hcut] at hlast
    exact ⟨pid, hlast⟩
  · -- The byte behind the load area is what it was.
    rw [honly _ (.inr (hend ▸ by decide)) (.inr (by rw [hcut]))]
    rfl
  · have hle := hcopied.cut_iff.mp hall
    rw [List.length_replicate] at hle
    exact absurd hle (by decide)

end Lightstreak
