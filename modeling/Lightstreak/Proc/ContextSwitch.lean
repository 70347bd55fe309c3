import Lightstreak.Lib.X86

/-!
# Context switches and the first frames of a process

`kernel/proc/context_switch.asm` as lists of instructions, and `process_create` and
`process_create_user` of `kernel/proc/process.c` as the bytes that they write: the fields of the
PCB and the words that the assembly code will pop.

* `untilRet_contextSwitch`: what `context_switch` leaves in memory and in the registers, from its
  entry to its `ret`;
* `buildProcess_spec`: the frame of a new process.

Code is apart from the memory that it works on, and kernel memory is mapped alike in all page
directories, so that `CR3` does not change what an address of a stack or a PCB means.
-/

namespace Lightstreak

open SysLib SysLib.X86

/-! ## `context_switch.asm` -/

/-- `context_switch`: save the registers of the current process and compare the directories. -/
def contextSwitchSave : List Instr :=
  [.push .ebp, .push .edi, .push .esi, .push .ebx] ++
  [.load .eax .esp 20,    -- eax = current
    .store .eax 4 .esp,   -- current->esp = esp
    .load .ecx .esp 24,   -- ecx = next
    .load .edx .ecx 16,   -- edx = next->page_dir
    .movFromCr3 .eax,
    .cmp .eax .edx]

/-- `context_switch`, from `.same_dir` on to its `ret`. -/
def contextSwitchRestore : List Instr :=
  [.load .eax .esp 24, .load .esp .eax 4, .pop .ebx, .pop .esi, .pop .edi, .pop .ebp]

/-- `context_switch` -/
def contextSwitchCode : List Instr :=
  contextSwitchSave ++ [.je 3, .movToCr3 .edx] ++ contextSwitchRestore ++ [.ret]

/-- `kthread_entry` -/
def kthreadEntryCode : List Instr :=
  [.sti, .pop .eax, .call .eax, .cli, .hlt, .jmp (-3)]

/-- `proc_iret_trampoline` -/
def procIretTrampolineCode : List Instr := [.iret]

/-- A kernel image with the three routines in it. -/
structure KernelText where
  /-- The code of the kernel. -/
  text : Text
  /-- The address of `context_switch`. -/
  contextSwitch : ℕ
  /-- The address of `kthread_entry`. -/
  kthreadEntry : ℕ
  /-- The address of `proc_iret_trampoline`. -/
  procIretTrampoline : ℕ
  /-- The code of `context_switch` is there. -/
  contextSwitch_code : CodeAt text contextSwitch contextSwitchCode
  /-- The code of `kthread_entry` is there. -/
  kthreadEntry_code : CodeAt text kthreadEntry kthreadEntryCode
  /-- The code of `proc_iret_trampoline` is there. -/
  procIretTrampoline_code : CodeAt text procIretTrampoline procIretTrampolineCode
  /-- `context_switch` is inside the address space. -/
  contextSwitch_lt : contextSwitch + 40 < 2 ^ 32
  /-- `kthread_entry` is inside the address space. -/
  kthreadEntry_lt : kthreadEntry + 8 < 2 ^ 32
  /-- `proc_iret_trampoline` is inside the address space. -/
  procIretTrampoline_lt : procIretTrampoline < 2 ^ 32

/-- `context_switch.asm`, assembled at any address. -/
def KernelText.ofBase (base : ℕ) (hbase : base + 49 < 2 ^ 32) : KernelText where
  text := assemble base (contextSwitchCode ++ kthreadEntryCode ++ procIretTrampolineCode)
  contextSwitch := base
  kthreadEntry := base + 40
  procIretTrampoline := base + 48
  contextSwitch_code :=
    (codeAt_append.mp (codeAt_append.mp (codeAt_assemble _ _)).1).1
  kthreadEntry_code :=
    (codeAt_append.mp (codeAt_append.mp (codeAt_assemble _ _)).1).2
  procIretTrampoline_code := (codeAt_append.mp (codeAt_assemble _ _)).2
  contextSwitch_lt := by omega
  kthreadEntry_lt := by omega
  procIretTrampoline_lt := by omega

/-! ## Process creation -/

/-- `sizeof(process_t)` -/
def processSize : ℕ := 416

/-- `KERNEL_STACK_SIZE` -/
def kernelStackSize : ℕ := 8192

/-- The zeroed PCB `p` and stack, with the first fields of the PCB. Offsets are those of
`process_t`. -/
def initProcess (m : Mem) (p stack pid dir : ℕ) : Mem :=
  let m := m.fill p 0 processSize
  let m := m.fill stack 0 kernelStackSize
  let m := m.store32 (p + 12) stack
  let m := m.store32 p pid
  let m := m.store32 (p + 16) dir
  let m := m.store32 (p + 20) 0
  m.store32 (p + 8) (add32 stack kernelStackSize)

/-- What `process_create` and `process_create_user` share. They differ in the words that they push
to the new stack. -/
def buildProcess (m : Mem) (p stack pid dir : ℕ) (frame : List ℕ) : Mem :=
  let m := initProcess m p stack pid dir
  let (m, sp) := m.pushWords (m.load32 (p + 8)) frame
  m.store32 (p + 4) sp

/-- `process_create`, at the addresses that its two allocations returned. -/
def processCreate (k : KernelText) (m : Mem) (p stack pid kernelDir entryFn : ℕ) : Mem :=
  buildProcess m p stack pid kernelDir [entryFn, k.kthreadEntry, 0, 0, 0, 0]

/-- `process_create_user`, at the addresses that its two allocations returned. -/
def processCreateUser (k : KernelText) (m : Mem) (p stack pid entryVaddr userEsp dir : ℕ) : Mem :=
  buildProcess m p stack pid dir
    [0x23, userEsp, 0x202, 0x1B, entryVaddr, k.procIretTrampoline, 0, 0, 0, 0]

/-! ## The run of `context_switch` -/

variable {k : KernelText} {c : Cpu} {m : Mem} {F cur nxt e n : ℕ}

/-- The first part of `context_switch` saves the registers on the stack and the stack pointer in
the PCB of the old process, and compares the page directories. -/
theorem execs_contextSwitchSave (hcs : c.cs % 4 = 0)
    (hpush : c.mem.pushWords c.regs.esp [c.regs.ebp, c.regs.edi, c.regs.esi, c.regs.ebx] = (m, F))
    (hcur : m.load32 (add32 F 20) = cur)
    (hnxt : (m.store32 (add32 cur 4) F).load32 (add32 F 24) = nxt) :
    ∃ c', execs contextSwitchSave c = some c' ∧ c'.mem = m.store32 (add32 cur 4) F ∧
      c'.regs.esp = F ∧ c'.regs.edx = c'.mem.load32 (add32 nxt 16) ∧ c'.cs = c.cs ∧
      c'.ss = c.ss ∧ c'.cr3 = c.cr3 ∧
      c'.eflags.testBit 6 = decide (c.cr3 = c'.regs.edx) := by
  -- The four pushes are one block; the rest is executed instruction by instruction.
  obtain ⟨c₁, hexec, hregs, hmem, hcs₁, hss, hcr3⟩ :=
    execs_push [.ebp, .edi, .esi, .ebx] (by decide) c
  rw [show [Reg.ebp, .edi, .esi, .ebx].map c.regs.get =
    [c.regs.ebp, c.regs.edi, c.regs.esi, c.regs.ebx] from rfl, hpush] at hregs hmem
  have hesp : c₁.regs.esp = F := by rw [hregs, Regs.set]
  rw [contextSwitchSave, execs_append]
  simp only [List.map_cons, List.map_nil] at hexec
  rw [hexec, Option.bind_some]
  simp only [execs, exec, Regs.get, Regs.set, Option.bind_some, hesp, hmem, hcur, hnxt, hcs₁, hcs,
    if_true]
  -- What `je` will test: whether the directory of the new process is loaded already.
  refine ⟨_, rfl, rfl, rfl, rfl, rfl, hss, hcr3, ?_⟩
  rw [zeroFlag_cmpFlags, hcr3]

/-- The last part of `context_switch` takes the stack of the new process and pops its registers. -/
theorem execs_contextSwitchRestore
    (hnxt : c.mem.load32 (add32 c.regs.esp 24) = nxt)
    (he : c.mem.load32 (add32 nxt 4) = e) (helt : e + 20 < 2 ^ 32) :
    ∃ c', execs contextSwitchRestore c = some c' ∧ c'.mem = c.mem ∧ c'.regs.esp = e + 16 ∧
      c'.regs.ebx = c.mem.load32 e ∧ c'.regs.esi = c.mem.load32 (e + 4) ∧
      c'.regs.edi = c.mem.load32 (e + 8) ∧ c'.regs.ebp = c.mem.load32 (e + 12) ∧
      c'.cs = c.cs ∧ c'.ss = c.ss ∧ c'.cr3 = c.cr3 := by
  have h4 : add32 e 4 = e + 4 := add32_eq (by omega)
  have h8 : add32 (e + 4) 4 = e + 8 := add32_eq (by omega)
  have h12 : add32 (e + 8) 4 = e + 12 := add32_eq (by omega)
  have h16 : add32 (e + 12) 4 = e + 16 := add32_eq (by omega)
  -- `next` is read from the old stack once more, before `esp` is replaced.
  simp only [contextSwitchRestore, execs, exec, Option.bind_some, Regs.get, Regs.set, hnxt,
    he, h4, h8, h12, h16]
  exact ⟨_, rfl, rfl, rfl, rfl, rfl, rfl, rfl, rfl, rfl, rfl⟩

/-- From `.same_dir` on, with enough steps left. -/
theorem untilRet_sameDir (heip : c.eip = k.contextSwitch + 28)
    (hnxt : c.mem.load32 (add32 c.regs.esp 24) = nxt)
    (he : c.mem.load32 (add32 nxt 4) = e) (helt : e + 20 < 2 ^ 32) :
    ∃ c', untilRet k.text (7 + n) c = some c' ∧ c'.mem = c.mem ∧
      c'.eip = c.mem.load32 (e + 16) ∧ c'.regs.esp = e + 20 ∧
      c'.regs.ebx = c.mem.load32 e ∧ c'.regs.esi = c.mem.load32 (e + 4) ∧
      c'.regs.edi = c.mem.load32 (e + 8) ∧ c'.regs.ebp = c.mem.load32 (e + 12) ∧
      c'.cs = c.cs ∧ c'.ss = c.ss ∧ c'.cr3 = c.cr3 := by
  obtain ⟨hcode, hret⟩ := codeAt_append.mp k.contextSwitch_code
  obtain ⟨-, hcode⟩ := codeAt_append.mp hcode
  rw [show codeSize (contextSwitchSave ++ [.je 3, .movToCr3 .edx]) = 28 by decide,
    ← heip] at hcode
  have hlt := k.contextSwitch_lt
  have hsize : codeSize contextSwitchRestore = 11 := by decide
  obtain ⟨c₁, hexec, hmem, hesp, hebx, hesi, hedi, hebp, hcs, hss, hcr3⟩ :=
    execs_contextSwitchRestore hnxt he helt
  obtain ⟨hrun, heip₁⟩ := untilRet_block (n := n + 1) hcode (by decide) (by omega) hexec
  -- Behind the block stands the `ret`, which pops the return address of the new process.
  have hfetch : k.text c₁.eip = some .ret := by
    rw [heip₁, heip, hsize, Nat.add_assoc]
    exact hret.1
  have h20 : add32 (e + 16) 4 = e + 20 := add32_eq (by omega)
  rw [show 7 + n = contextSwitchRestore.length + (n + 1) from (Nat.add_comm 7 n).trans
    (Nat.add_comm 6 (n + 1)).symm, hrun, untilRet_ret hfetch]
  simp only [exec, Regs.set, hesp, h20, hmem]
  exact ⟨_, rfl, rfl, rfl, rfl, hebx, hesi, hedi, hebp, hcs, hss, hcr3⟩

/-- The compare and the conditional jump: when `.same_dir` is reached, the directory of the new
process is loaded, by the jump because it was loaded before. -/
theorem untilRet_je (heip : c.eip = k.contextSwitch + 23) (hcs : c.cs % 4 = 0)
    (hzero : c.eflags.testBit 6 = decide (c.cr3 = c.regs.edx)) :
    ∃ n, untilRet k.text 9 c =
      untilRet k.text (7 + n) { c with cr3 := c.regs.edx, eip := k.contextSwitch + 28 } := by
  have hlt := k.contextSwitch_lt
  obtain ⟨hcode, -⟩ := codeAt_append.mp k.contextSwitch_code
  obtain ⟨hcode, -⟩ := codeAt_append.mp hcode
  obtain ⟨-, hje, hmov, -⟩ := codeAt_append.mp hcode
  rw [show codeSize contextSwitchSave = 23 by decide] at hje hmov
  have hfetch : k.text c.eip = some (.je 3) := heip ▸ hje
  have hnext : add32 c.eip 2 = k.contextSwitch + 25 := by
    rw [heip]
    exact add32_eq (by omega)
  by_cases hdir : c.cr3 = c.regs.edx
  · -- The new process has the directory that is loaded: jump to `.same_dir`.
    have hjump : jumpTarget (k.contextSwitch + 25) 3 = k.contextSwitch + 28 := by
      unfold jumpTarget
      omega
    have hexec : exec (.je 3) c = some { c with eip := k.contextSwitch + 28 } := by
      simp only [exec, Instr.size, hzero, hdir, decide_true, if_true, hnext, hjump]
    refine ⟨1, ?_⟩
    rw [untilRet_cons hfetch (by decide) hexec, ← hdir]
  · -- Another directory: fall through to the load of CR3.
    have hexec₁ : exec (.je 3) c = some { c with eip := k.contextSwitch + 25 } := by
      simp only [exec, Instr.size, hzero, hdir, decide_false, Bool.false_eq_true, if_false, hnext]
    have hexec₂ : exec (.movToCr3 .edx) { c with eip := k.contextSwitch + 25 } =
        some { c with cr3 := c.regs.edx, eip := k.contextSwitch + 28 } := by
      have h28 : add32 (k.contextSwitch + 25) 3 = k.contextSwitch + 28 := add32_eq (by omega)
      simp only [exec, Instr.size, hcs, if_true, Regs.get, h28]
    refine ⟨0, ?_⟩
    rw [untilRet_cons hfetch (by decide) hexec₁, untilRet_cons hmov (by decide) hexec₂]

/-- What `context_switch` does when it is called with the stack pointer at `F + 16`: it saves a
frame at `F` for the old process, and takes the registers and the return address of the new one
from the frame at `e`. -/
theorem untilRet_contextSwitch (cur nxt : ℕ) (heip : c.eip = k.contextSwitch) (hcs : c.cs % 4 = 0)
    (hpush : c.mem.pushWords c.regs.esp [c.regs.ebp, c.regs.edi, c.regs.esi, c.regs.ebx] = (m, F))
    (hcur : m.load32 (add32 F 20) = cur)
    (hnxt : (m.store32 (add32 cur 4) F).load32 (add32 F 24) = nxt)
    (he : (m.store32 (add32 cur 4) F).load32 (add32 nxt 4) = e) (helt : e + 20 < 2 ^ 32) :
    ∃ c', untilRet k.text 19 c = some c' ∧ c'.mem = m.store32 (add32 cur 4) F ∧
      c'.eip = c'.mem.load32 (e + 16) ∧ c'.regs.esp = e + 20 ∧
      c'.regs.ebx = c'.mem.load32 e ∧ c'.regs.esi = c'.mem.load32 (e + 4) ∧
      c'.regs.edi = c'.mem.load32 (e + 8) ∧ c'.regs.ebp = c'.mem.load32 (e + 12) ∧
      c'.cs = c.cs ∧ c'.cr3 = c'.mem.load32 (add32 nxt 16) := by
  have hlt := k.contextSwitch_lt
  obtain ⟨hcode, -⟩ := codeAt_append.mp k.contextSwitch_code
  obtain ⟨hcode, -⟩ := codeAt_append.mp hcode
  obtain ⟨hcode, -⟩ := codeAt_append.mp hcode
  have hsize : codeSize contextSwitchSave = 23 := by decide
  obtain ⟨c₁, hexec, hmem, hesp, hedx, hcs₁, -, hcr3, hzero⟩ :=
    execs_contextSwitchSave hcs hpush hcur hnxt
  obtain ⟨hrun, heip₁⟩ := untilRet_block (n := 9) (heip ▸ hcode) (by decide) (by omega) hexec
  rw [heip, hsize] at heip₁
  rw [← hmem] at hnxt he ⊢
  rw [← hcr3] at hzero
  obtain ⟨n, hje⟩ := untilRet_je heip₁ (hcs₁ ▸ hcs) hzero
  -- From `.same_dir` on both ways are the same.
  obtain ⟨c', hrun', hmem', heip', hesp', hebx, hesi, hedi, hebp, hcs', -, hcr3'⟩ :=
    untilRet_sameDir (k := k) (n := n)
      (c := { c₁ with cr3 := c₁.regs.edx, eip := k.contextSwitch + 28 }) rfl (hesp ▸ hnxt) he helt
  dsimp only at hmem' heip' hebx hesi hedi hebp hcs' hcr3'
  rw [show 19 = contextSwitchSave.length + 9 from rfl, hrun, hje]
  refine ⟨c', hrun', hmem', ?_⟩
  rw [hmem']
  exact ⟨heip', hesp', hebx, hesi, hedi, hebp, hcs'.trans hcs₁, hcr3'.trans hedx⟩

/-! ## New processes -/

variable {stack dir : ℕ} {frame : List ℕ}

/-- The fields that `initProcess` writes, and what it leaves alone. -/
theorem initProcess_spec (m : Mem) (p pid : ℕ) (hstack : stack + kernelStackSize < 2 ^ 32)
    (hdir : dir < 2 ^ 32) :
    (initProcess m p stack pid dir).load32 (p + 8) = stack + kernelStackSize ∧
      (initProcess m p stack pid dir).load32 (p + 16) = dir ∧
      ∀ x, (x < p ∨ p + processSize ≤ x) → (x < stack ∨ stack + kernelStackSize ≤ x) →
        initProcess m p stack pid dir x = m x := by
  refine ⟨?_, ?_, fun x hx hx' => ?_⟩
  · rw [initProcess, add32_eq hstack, Mem.load32_store32_of_lt _ _ hstack]
  · rw [initProcess, Mem.load32_store32_of_disjoint _ _ (by omega),
      Mem.load32_store32_of_disjoint _ _ (by omega), Mem.load32_store32_of_lt _ _ hdir]
  · have hsize : processSize = 416 := rfl
    rw [initProcess, Mem.store32_apply_of_outside _ _ (by omega),
      Mem.store32_apply_of_outside _ _ (by omega), Mem.store32_apply_of_outside _ _ (by omega),
      Mem.store32_apply_of_outside _ _ (by omega), Mem.store32_apply_of_outside _ _ (by omega),
      Mem.fill_of_outside _ _ hx', Mem.fill_of_outside _ _ hx]

/-- The fields of the PCB other than `esp` are those of `initProcess`: the words of the frame go to
the stack. -/
theorem buildProcess_pcb (m : Mem) (p stack pid dir : ℕ) (frame : List ℕ)
    (hdisj : p + processSize ≤ stack ∨ stack + kernelStackSize ≤ p)
    (hstack : stack + kernelStackSize < 2 ^ 32) (hdir : dir < 2 ^ 32)
    (hframe : ∀ w ∈ frame, w < 2 ^ 32) (hlen : 4 * frame.length ≤ kernelStackSize) {a : ℕ}
    (hlo : p ≤ a) (hhi : a + 4 ≤ p + processSize) (hesp : a + 4 ≤ p + 4 ∨ p + 8 ≤ a) :
    (buildProcess m p stack pid dir frame).load32 a =
      (initProcess m p stack pid dir).load32 a := by
  obtain ⟨htop, -, -⟩ := initProcess_spec m p pid hstack hdir
  have hempty : (initProcess m p stack pid dir).WordsAt (stack + kernelStackSize) [] := trivial
  obtain ⟨-, -, hkeep⟩ :=
    Mem.pushWords_spec hempty hframe (Nat.le_trans hlen (Nat.le_add_left _ stack)) hstack
  rw [buildProcess, htop]
  refine (Mem.load32_store32_of_disjoint _ _ (by omega)).trans ?_
  exact Mem.load32_congr fun x h₁ h₂ => hkeep x (by omega)

/-- A new process has its words on top of its stack and `esp` in its PCB points to them; nothing
outside its PCB and stack has changed. -/
theorem buildProcess_spec (m : Mem) (p stack pid dir : ℕ) (frame : List ℕ)
    (hdisj : p + processSize ≤ stack ∨ stack + kernelStackSize ≤ p)
    (hstack : stack + kernelStackSize < 2 ^ 32) (hdir : dir < 2 ^ 32)
    (hframe : ∀ w ∈ frame, w < 2 ^ 32) (hlen : 4 * frame.length ≤ kernelStackSize) :
    (buildProcess m p stack pid dir frame).load32 (p + 4) =
        stack + kernelStackSize - 4 * frame.length ∧
      (buildProcess m p stack pid dir frame).load32 (p + 8) = stack + kernelStackSize ∧
      (buildProcess m p stack pid dir frame).load32 (p + 16) = dir ∧
      (buildProcess m p stack pid dir frame).WordsAt
        (stack + kernelStackSize - 4 * frame.length) frame.reverse ∧
      ∀ x, (x < p ∨ p + processSize ≤ x) → (x < stack ∨ stack + kernelStackSize ≤ x) →
        buildProcess m p stack pid dir frame x = m x := by
  have hsize : processSize = 416 := rfl
  obtain ⟨htop, hpage, hout⟩ := initProcess_spec m p pid hstack hdir
  have hpcb := fun a => buildProcess_pcb m p stack pid dir frame hdisj hstack hdir hframe hlen
    (a := a)
  -- The initial frame is pushed from the top of the stack on, where nothing is yet.
  have hempty : (initProcess m p stack pid dir).WordsAt (stack + kernelStackSize) [] := trivial
  obtain ⟨hsp, hwords, hkeep⟩ :=
    Mem.pushWords_spec hempty hframe (Nat.le_trans hlen (Nat.le_add_left _ stack)) hstack
  rw [List.append_nil] at hwords
  refine ⟨?_, (hpcb _ (by omega) (by omega) (by omega)).trans htop,
    (hpcb _ (by omega) (by omega) (by omega)).trans hpage, ?_, fun x hx hx' => ?_⟩
  · rw [buildProcess, htop]
    exact (Mem.load32_store32_of_lt _ _ (by omega)).trans hsp
  · rw [buildProcess, htop]
    refine hwords.congr fun x h₁ h₂ => Mem.store32_apply_of_outside _ _ ?_
    rw [List.length_reverse] at h₂
    omega
  · rw [buildProcess, htop]
    exact ((Mem.store32_apply_of_outside _ _ (by omega)).trans (hkeep x (by omega))).trans
      (hout x hx hx')

/-- A thread that `context_switch` returns to in `kthread_entry` calls the function on top of its
stack. -/
theorem kthreadEntry_spec (heip : c.eip = k.kthreadEntry) (hcs : c.cs % 4 = 0)
    (hesp : c.regs.esp + 4 < 2 ^ 32) :
    ∃ c', steps k.text 2 c = some c' ∧ k.text c'.eip = some (.call .eax) ∧
      c'.regs.eax = c.mem.load32 c.regs.esp ∧ c'.regs.esp = c.regs.esp + 4 := by
  obtain ⟨hsti, hpop, hcall, -⟩ := k.kthreadEntry_code
  replace hpop : k.text (k.kthreadEntry + 1) = some (.pop .eax) := hpop
  replace hcall : k.text (k.kthreadEntry + 2) = some (.call .eax) := hcall
  have hlt := k.kthreadEntry_lt
  have h1 : add32 k.kthreadEntry 1 = k.kthreadEntry + 1 := add32_eq (by omega)
  have h2 : add32 (k.kthreadEntry + 1) 1 = k.kthreadEntry + 2 := add32_eq (by omega)
  have h4 : add32 c.regs.esp 4 = c.regs.esp + 4 := add32_eq hesp
  -- `sti`, and then `pop eax` with the entry function that `process_create` has pushed.
  have hstep₁ : step k.text c =
      some { c with eflags := c.eflags ||| 0x200, eip := k.kthreadEntry + 1 } := by
    simp only [step, heip, hsti, Option.bind_some, exec, Instr.size, hcs, if_true, h1]
  have hstep₂ : step k.text { c with eflags := c.eflags ||| 0x200, eip := k.kthreadEntry + 1 } =
      some { c with
        regs := { c.regs with eax := c.mem.load32 c.regs.esp, esp := c.regs.esp + 4 }
        eflags := c.eflags ||| 0x200
        eip := k.kthreadEntry + 2 } := by
    simp only [step, hpop, Option.bind_some, exec, Instr.size, Regs.set, h4, h2]
  have hsteps := congrArg (·.bind (steps k.text 1)) hstep₁
  rw [Option.bind_some, steps, hstep₂] at hsteps
  exact ⟨_, hsteps, hcall, rfl, rfl⟩

/-- A process that `context_switch` returns to in `proc_iret_trampoline` executes `iret`. -/
theorem procIretTrampoline_spec (heip : c.eip = k.procIretTrampoline) :
    step k.text c = c.iret := by
  rw [step, heip, k.procIretTrampoline_code.1]
  rfl

end Lightstreak
