import Lightstreak.Mm.HeapChain
import Lightstreak.Proc.ContextSwitch

/-!
# Creation of processes (`kernel/proc/process.c`)

`process_create` and `process_create_user` make the same two allocations and differ in what they
write to them then. The loader calls the first of them (`Proc.Exec`), and the life cycle of
processes is about both (`Proc.Lifecycle`).

* `processAlloc`: the allocations and their failure, with what is written as a parameter;
* `CreateCall.buildsProcess`: either function writes to its two blocks only.
-/

namespace Lightstreak

open SysLib SysLib.FirstFit

/-- The state of `process.c`: the heap and `next_pid`. -/
structure ProcHeap where
  /-- The heap that PCBs and stacks are taken from. -/
  heap : HeapState
  /-- The counter `next_pid`. -/
  nextPid : ℕ

/-- What `process_create` and `process_create_user` share: two allocations and a pid. `build` is
what they write then. -/
def processAlloc (s : ProcHeap) (build : Mem → ℕ → ℕ → ℕ → Mem) : Option (ℕ × ProcHeap) := do
  let (p, heap) ← kzalloc s.heap processSize
  if p = 0 then return (0, { s with heap := heap })
  let (stack, heap) ← kzalloc heap kernelStackSize
  let heap := { heap with mem := heap.mem.store32 (p + 12) stack }
  if stack = 0 then return (0, { s with heap := kfree heap p })
  return (p, ⟨{ heap with mem := build heap.mem p stack s.nextPid }, add32 s.nextPid 1⟩)

/-- A call of `process_create(entry_fn)`, with what `vmm_get_kernel_dir()` returns, or of
`process_create_user(entry_vaddr, user_esp, dir)`. -/
inductive CreateCall
  | create (kernelDir entryFn : UInt32)
  | createUser (entryVaddr userEsp dir : UInt32)
deriving DecidableEq, Repr

/-- The memory that a call leaves, once it has its two blocks. -/
def CreateCall.build (k : KernelText) : CreateCall → Mem → ℕ → ℕ → ℕ → Mem
  | create kernelDir entryFn, m, p, stack, pid =>
    processCreate k m p stack pid kernelDir.toNat entryFn.toNat
  | createUser entryVaddr userEsp dir, m, p, stack, pid =>
    processCreateUser k m p stack pid entryVaddr.toNat userEsp.toNat dir.toNat

/-- The process that a call returns, `0` for `NULL`, and the state afterwards. -/
def CreateCall.exec (k : KernelText) (s : ProcHeap) (c : CreateCall) : Option (ℕ × ProcHeap) :=
  processAlloc s (c.build k)

/-- `process_init()` -/
def processInit (h : HeapState) : ProcHeap := ⟨h, 1⟩

/-- `process_destroy(p)` -/
def processDestroy (h : HeapState) (p : ℕ) : HeapState :=
  if p = 0 then h
  else
    let stack := h.mem.load32 (p + 12)
    kfree (if stack ≠ 0 then kfree h stack else h) p

/-! ## What a creation writes -/

variable {k : KernelText}

/-- A call writes to the PCB and to the stack only, and leaves `kernel_stack` and `pid` there. -/
structure BuildsProcess (build : Mem → ℕ → ℕ → ℕ → Mem) : Prop where
  /-- The address of the stack is stored in `kernel_stack`. -/
  stack : ∀ m p stack pid, p + processSize ≤ stack ∨ stack + kernelStackSize ≤ p →
    stack + kernelStackSize < 2 ^ 32 → (build m p stack pid).load32 (p + 12) = stack
  /-- The process id is stored in `pid`. -/
  pid : ∀ m p stack pid, p + processSize ≤ stack ∨ stack + kernelStackSize ≤ p →
    stack + kernelStackSize < 2 ^ 32 → pid < 2 ^ 32 → (build m p stack pid).load32 p = pid
  /-- Nothing is written outside the two blocks. -/
  outside : ∀ m p stack pid, p + processSize ≤ stack ∨ stack + kernelStackSize ≤ p →
    stack + kernelStackSize < 2 ^ 32 → ∀ x, x < p ∨ p + processSize ≤ x →
      x < stack ∨ stack + kernelStackSize ≤ x → build m p stack pid x = m x

/-- `kernel_stack` of a new PCB. -/
theorem initProcess_stack (m : Mem) {p stack pid dir : ℕ} (hstack : stack < 2 ^ 32) :
    (initProcess m p stack pid dir).load32 (p + 12) = stack := by
  rw [initProcess, Mem.load32_store32_of_disjoint _ _ (by omega),
    Mem.load32_store32_of_disjoint _ _ (by omega), Mem.load32_store32_of_disjoint _ _ (by omega),
    Mem.load32_store32_of_disjoint _ _ (by omega), Mem.load32_store32_of_lt _ _ hstack]

/-- `pid` of a new PCB. -/
theorem initProcess_pid (m : Mem) {p stack pid dir : ℕ} (hpid : pid < 2 ^ 32) :
    (initProcess m p stack pid dir).load32 p = pid := by
  rw [initProcess, Mem.load32_store32_of_disjoint _ _ (by omega),
    Mem.load32_store32_of_disjoint _ _ (by omega), Mem.load32_store32_of_disjoint _ _ (by omega),
    Mem.load32_store32_of_lt _ _ hpid]

/-- A frame that fits the stack, of 32-bit words, gives a creation that keeps to its two blocks. -/
theorem buildsProcess_buildProcess {dir : ℕ} {frame : List ℕ} (hdir : dir < 2 ^ 32)
    (hframe : ∀ w ∈ frame, w < 2 ^ 32) (hlen : 4 * frame.length ≤ kernelStackSize) :
    BuildsProcess fun m p stack pid => buildProcess m p stack pid dir frame where
  stack m p stack pid hdisj hlt := by
    rw [buildProcess_pcb m p stack pid dir frame hdisj hlt hdir hframe hlen (by omega)
      (by simp only [processSize]; omega) (by omega)]
    exact initProcess_stack m (by omega)
  pid m p stack pid hdisj hlt hpid := by
    rw [buildProcess_pcb m p stack pid dir frame hdisj hlt hdir hframe hlen le_rfl
      (by simp only [processSize]; omega) (by omega)]
    exact initProcess_pid m hpid
  outside m p stack pid hdisj hlt :=
    (buildProcess_spec m p stack pid dir frame hdisj hlt hdir hframe hlen).2.2.2.2

/-- The page directory of the new process, and the words that are pushed to its stack. -/
def CreateCall.frame (k : KernelText) : CreateCall → ℕ × List ℕ
  | create kernelDir entryFn => (kernelDir.toNat, [entryFn.toNat, k.kthreadEntry, 0, 0, 0, 0])
  | createUser entryVaddr userEsp dir => (dir.toNat,
      [0x23, userEsp.toNat, 0x202, 0x1B, entryVaddr.toNat, k.procIretTrampoline, 0, 0, 0, 0])

/-- Both functions fill the PCB in the same way and differ in the directory and the frame. -/
theorem CreateCall.build_eq (c : CreateCall) : c.build k = fun m p stack pid =>
    buildProcess m p stack pid (c.frame k).1 (c.frame k).2 := by
  funext m p stack pid
  cases c with
  | create kernelDir entryFn => rw [build, processCreate, frame]
  | createUser entryVaddr userEsp dir => rw [build, processCreateUser, frame]

/-- The directory and the words of the frame are 32-bit values, and the frame fits the stack. -/
theorem CreateCall.frame_lt (c : CreateCall) :
    (c.frame k).1 < 2 ^ 32 ∧ (∀ w ∈ (c.frame k).2, w < 2 ^ 32) ∧
      4 * (c.frame k).2.length ≤ kernelStackSize := by
  have := k.kthreadEntry_lt
  have := k.procIretTrampoline_lt
  cases c with
  | create kernelDir entryFn =>
    have := entryFn.toNat_lt
    refine ⟨kernelDir.toNat_lt, ?_, show 4 * 6 ≤ kernelStackSize by decide⟩
    simp only [frame, List.mem_cons, List.not_mem_nil, or_false, forall_eq_or_imp, forall_eq]
    omega
  | createUser entryVaddr userEsp dir =>
    have := entryVaddr.toNat_lt
    have := userEsp.toNat_lt
    refine ⟨dir.toNat_lt, ?_, show 4 * 10 ≤ kernelStackSize by decide⟩
    simp only [frame, List.mem_cons, List.not_mem_nil, or_false, forall_eq_or_imp, forall_eq]
    omega

/-- What `process_create` and `process_create_user` write is in the PCB and on the stack. -/
theorem CreateCall.buildsProcess (c : CreateCall) : BuildsProcess (c.build k) := by
  obtain ⟨hdir, hframe, hlen⟩ := c.frame_lt (k := k)
  rw [c.build_eq]
  exact buildsProcess_buildProcess hdir hframe hlen

/-- The PCB and the stack of a process do not overlap, and end below 4 GB. -/
theorem HeapInv.process_apart {h : HeapState} {bs : List Block} {b c : Block}
    (hi : HeapInv h bs) (hb : b ∈ bs) (hc : c ∈ bs)
    (hne : c.addr ≠ b.addr) (hsize : processSize ≤ b.size) (hstack : kernelStackSize ≤ c.size) :
    (b.addr + hdrSize + processSize ≤ c.addr + hdrSize ∨
        c.addr + hdrSize + kernelStackSize ≤ b.addr + hdrSize) ∧
      c.addr + hdrSize + kernelStackSize < 2 ^ 32 := by
  have hhdr : hdrSize = 16 := rfl
  have hcd := hi.block_bounds hc
  have hend := hi.end_lt
  refine ⟨?_, by omega⟩
  rcases hi.tiles.apart hb hc with rfl | hlt | hlt
  · exact absurd rfl hne
  · exact .inl (by omega)
  · exact .inr (by omega)

end Lightstreak
