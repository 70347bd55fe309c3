import Lightstreak.Lib.Interrupts

/-!
# Interrupt entry and exit (`kernel/arch/idt.asm`, `idt.h`, `idt.c`, `gdt.c`)

An interrupt is delivered by the processor to the stub of its vector, which completes the frame
`registers_t` on the stack and goes to one of the two common stubs. `enter` is the way from the
interrupted code to the first instruction of the C handler and `leave` the way back; between them
the handler may do anything that the calling convention allows (`HandlerReturns`).

* `enter_spec`: the stack and the registers with which the handler starts;
* `leave_spec`: the state in which the interrupted code goes on;
* `interrupt_roundTrip`: the frame holds the interrupted registers, which come back but for `eax`;
* `segments_preserved_iff`: the data segment registers do not, unless they held the values that
  the stubs and `iret` leave in them.
-/

namespace Lightstreak

open SysLib SysLib.X86

/-- `registers_t` -/
structure Registers where
  /-- The register `edi`, pushed by `pusha` last. -/
  edi : ℕ
  /-- The register `esi`, pushed by `pusha`. -/
  esi : ℕ
  /-- The register `ebp`, pushed by `pusha`. -/
  ebp : ℕ
  /-- The stack pointer that `pusha` pushes and `popa` skips. -/
  espDummy : ℕ
  /-- The register `ebx`, pushed by `pusha`. -/
  ebx : ℕ
  /-- The register `edx`, pushed by `pusha`. -/
  edx : ℕ
  /-- The register `ecx`, pushed by `pusha`. -/
  ecx : ℕ
  /-- The register `eax`, pushed by `pusha` first. -/
  eax : ℕ
  /-- The vector, pushed by the stub. -/
  intNo : ℕ
  /-- The error code, pushed by the processor or as zero by the stub. -/
  errCode : ℕ
  /-- The address of the interrupted instruction. -/
  eip : ℕ
  /-- The code segment of the interrupted code. -/
  cs : ℕ
  /-- The flags of the interrupted code. -/
  eflags : ℕ
  /-- The stack pointer of user mode, if the processor has changed the stack. -/
  useresp : ℕ
  /-- The stack segment of user mode, if the processor has changed the stack. -/
  ss : ℕ
deriving DecidableEq, Repr

/-- The `registers_t` at an address. -/
def registersAt (m : Mem) (a : ℕ) : Registers :=
  let word := fun i => m.load32 (add32 a (4 * i))
  { edi := word 0
    esi := word 1
    ebp := word 2
    espDummy := word 3
    ebx := word 4
    edx := word 5
    ecx := word 6
    eax := word 7
    intNo := word 8
    errCode := word 9
    eip := word 10
    cs := word 11
    eflags := word 12
    useresp := word 13
    ss := word 14 }

/-- The access bytes that `gdt_init` and `tss_init` put into the descriptor table. -/
def gdtAccess : Gdt
  | 1 => 0x9A
  | 2 => 0x92
  | 3 => 0xFA
  | 4 => 0xF2
  | 5 => 0x89
  | _ => 0

/-! ## Stubs -/

/-- `ISR_NO_ERR n`, up to the jump to `isr_common_stub` -/
def isrNoErr (n : ℕ) : List EntryInstr := [.pushImm 0, .pushImm n]

/-- `ISR_ERR n`, up to the jump to `isr_common_stub` -/
def isrErr (n : ℕ) : List EntryInstr := [.pushImm n]

/-- `IRQ k, n`, up to the jump to `irq_common_stub` -/
def irqStub (n : ℕ) : List EntryInstr := [.pushImm 0, .pushImm n]

/-- A common stub: what precedes the call of the C handler, and what follows it up to `iret`. -/
structure CommonStub where
  /-- The instructions up to the call of the handler. -/
  before : List EntryInstr
  /-- The instructions behind the call. -/
  after : List EntryInstr

/-- `isr_common_stub`, which calls `isr_handler` -/
def isrCommonStub : CommonStub where
  before := [.pusha, .movAx 0x10, .movSegAx .ds, .movSegAx .es, .movSegAx .fs, .movSegAx .gs,
    .pushEsp]
  after := [.addEsp 4, .popa, .addEsp 8]

/-- `irq_common_stub`, which calls `irq_handler` -/
def irqCommonStub : CommonStub where
  before := [.pusha, .movAx 0x10, .movSegAx .ds, .movSegAx .es, .movSegAx .fs, .movSegAx .gs,
    .pushEsp]
  after := [.addEsp 4, .popa, .addEsp 8]

/-- What interrupts the processor: an exception with the error code of the processor, which counts
for some exceptions only; `int 0x80`; or a line of the interrupt controllers. -/
inductive Interrupt
  | exception (n : Fin 32) (errorCode : UInt32)
  | syscall
  | irq (k : Fin 16)

/-- The exceptions for which the processor pushes an error code. -/
def pushesErrorCode (n : ℕ) : Bool := n ∈ [8, 10, 11, 12, 13, 14, 17, 21]

namespace Interrupt

/-- The vector, with the interrupt controllers remapped to 32 and above. -/
def vector : Interrupt → ℕ
  | .exception n _ => n
  | .syscall => 0x80
  | .irq k => 32 + k

/-- What the processor pushes last. -/
def errorCode : Interrupt → Option ℕ
  | .exception n e => if pushesErrorCode n then some e.toNat else none
  | .syscall => none
  | .irq _ => none

/-- The stub that the gate of the vector leads to. -/
def stub : Interrupt → List EntryInstr
  | .exception n _ =>
    match n.val with
    | 8 | 10 | 11 | 12 | 13 | 14 | 17 | 21 => isrErr n
    | _ => isrNoErr n
  | .syscall => isrNoErr 128
  | .irq k => irqStub (32 + k)

/-- Where the stub jumps to. -/
def common : Interrupt → CommonStub
  | .exception _ _ => isrCommonStub
  | .syscall => isrCommonStub
  | .irq _ => irqCommonStub

end Interrupt

/-- From the interrupted code to the C handler. `offset` is the address of the stub and `ret` the
return address of the call. All gates have the kernel code segment. -/
def enter (tss : Tss) (offset ret : ℕ) (i : Interrupt) (m : Machine) : Option Machine := do
  let m := { m with cpu := m.cpu.deliver tss 0x08 offset i.errorCode }
  let m ← execEntries gdtAccess (i.stub ++ i.common.before) m
  return { m with cpu := m.cpu.push ret }

/-- From the return of the C handler to the interrupted code. -/
def leave (i : Interrupt) (m : Machine) : Option Machine := do
  let m ← execEntries gdtAccess i.common.after m
  m.iret gdtAccess

/-- The argument of the C handler when it is entered: `registers_t *regs`. -/
def handlerArg (m : Machine) : ℕ := m.cpu.mem.load32 (add32 m.cpu.regs.esp 4)

/-- `h` is the machine after the handler that was entered in `k` has returned, having changed of
its frame only `regs->eax`. It may have changed any other memory, its argument included, and any
register but the stack pointer and the segment registers. -/
structure HandlerReturns (k h : Machine) : Prop where
  /-- The handler returns and leaves its argument on the stack. -/
  esp : h.cpu.regs.esp = add32 k.cpu.regs.esp 4
  /-- It comes back to the same code segment. -/
  cs : h.cpu.cs = k.cpu.cs
  /-- It comes back to the same stack segment. -/
  ss : h.cpu.ss = k.cpu.ss
  /-- It leaves the data segments as they are. -/
  segs : h.segs = k.segs
  /-- It writes to no saved register but `eax`. -/
  frame : registersAt h.cpu.mem (handlerArg k) =
    { registersAt k.cpu.mem (handlerArg k) with
      eax := (registersAt h.cpu.mem (handlerArg k)).eax }

/-! ## The frame -/

/-- An entry is the delivery by the processor and then the code of the stub. -/
theorem enter_eq (tss : Tss) (offset ret : ℕ) (i : Interrupt) (m : Machine) :
    enter tss offset ret i m = (execEntries gdtAccess (i.stub ++ i.common.before)
      { m with cpu := m.cpu.deliver tss 0x08 offset i.errorCode }).map
        fun m => { m with cpu := m.cpu.push ret } := by
  rw [enter, Option.map_eq_bind]
  rfl

variable {tss : Tss} {offset ret : ℕ} {i : Interrupt} {m k h : Machine}

/-- What `err_code` is to hold: the error code of the processor, or zero. -/
def Interrupt.errCode (i : Interrupt) : ℕ := i.errorCode.getD 0

/-- Each stub pushes a zero exactly if the processor has pushed no error code. -/
theorem stub_eq (i : Interrupt) :
    i.stub = ((if i.errorCode.isSome then [] else [0]) ++ [i.vector]).map .pushImm := by
  cases i with
  | exception n e =>
    have hstub : ∀ n : Fin 32, (Interrupt.exception n 0).stub =
        ((if pushesErrorCode n then [] else [0]) ++ [n.val]).map .pushImm := by decide
    have hsome : (Interrupt.exception n e).errorCode.isSome = pushesErrorCode n := by
      simp only [Interrupt.errorCode]
      cases pushesErrorCode n <;> rfl
    rw [hsome]
    exact hstub n
  | syscall => rfl
  | irq k => rfl

/-- A vector is a word. -/
theorem vector_lt (i : Interrupt) : i.vector < 2 ^ 32 := by
  cases i with
  | exception n e => exact n.isLt.trans (by decide)
  | syscall => decide
  | irq k => exact (Nat.add_lt_add_left k.isLt 32).trans (by decide)

/-- An error code is a word. -/
theorem errorCode_lt (i : Interrupt) : ∀ e ∈ i.errorCode, e < 2 ^ 32 := by
  intro e he
  cases i with
  | exception n x =>
    simp only [Interrupt.errorCode] at he
    split at he
    · exact Option.some.inj he ▸ x.toNat_lt
    · cases he
  | syscall => cases he
  | irq k => cases he

/-- The stub completes what the processor has pushed to the end of the frame, whether or not there
is an error code. -/
theorem stub_spec (i : Interrupt) (offset : ℕ) (hc : m.cpu.Valid) (hesp0 : tss.esp0 < 2 ^ 32) :
    ∃ c, execEntries gdtAccess i.stub
        { m with cpu := m.cpu.deliver tss 0x08 offset i.errorCode } = some ⟨c, m.segs⟩ ∧
      c.regs = m.cpu.regs.set .esp
        (sub32 (m.cpu.entryEsp tss) (4 * (5 + m.cpu.outerStack.length))) ∧
      c.mem.StackAt c.regs.esp ([i.vector, i.errCode, m.cpu.eip, m.cpu.cs, m.cpu.eflags] ++
        m.cpu.outerStack) ∧
      c.cs = 0x08 ∧ c.ss = if m.cpu.cs % 4 = 0 then m.cpu.ss else tss.ss0 := by
  obtain ⟨esp, hesp, hregs, hstack, hcs, hss⟩ :=
    Cpu.deliver_spec hc hesp0 0x08 offset (errorCode_lt i)
  -- The stub pushes a zero where the processor has pushed no error code.
  have hwords : ∀ v ∈ (if i.errorCode.isSome then [] else [0]) ++ [i.vector], v < 2 ^ 32 := by
    intro v hv
    rcases List.mem_append.mp hv with hv | hv
    · split at hv
      · cases hv
      · exact List.mem_singleton.mp hv ▸ by decide
    · exact List.mem_singleton.mp hv ▸ vector_lt i
  have hesp' : (m.cpu.deliver tss 0x08 offset i.errorCode).regs.esp = esp := by
    rw [hregs, Regs.set]
  have hlt : esp < 2 ^ 32 := hesp ▸ sub32_lt _ _
  -- With or without an error code the words are the same.
  have hall : ((if i.errorCode.isSome then [] else [0]) ++ [i.vector]).reverse ++
      (i.errorCode.toList ++ [m.cpu.eip, m.cpu.cs, m.cpu.eflags] ++ m.cpu.outerStack) =
      [i.vector, i.errCode, m.cpu.eip, m.cpu.cs, m.cpu.eflags] ++ m.cpu.outerStack := by
    unfold Interrupt.errCode
    cases i.errorCode <;> rfl
  have hlen := congrArg List.length hall
  simp only [List.length_append, List.length_reverse, List.length_cons, List.length_nil] at hlen
  have hshort := m.cpu.length_outerStack_le
  rw [← hesp'] at hstack
  obtain ⟨hregs', hstack', hcs', hss'⟩ := Cpu.pushes_spec hstack hwords (hesp' ▸ hlt) (by
    simp only [List.length_append, List.length_cons, List.length_nil]
    omega)
  -- The same holds for the stack pointer: both pushes together take five words.
  have hframe : sub32 esp (4 * ((if i.errorCode.isSome then [] else [0]) ++ [i.vector]).length) =
      sub32 (m.cpu.entryEsp tss) (4 * (5 + m.cpu.outerStack.length)) := by
    rw [hesp, sub32_sub32]
    congr 1
    simp only [List.length_append, List.length_cons, List.length_nil]
    omega
  rw [hesp', hframe] at hregs' hstack'
  rw [hregs, Regs.set_set] at hregs'
  refine ⟨_, by rw [stub_eq, execEntries_pushImm], hregs', ?_, hcs'.trans hcs, hss'.trans hss⟩
  rw [hregs', Regs.set, ← hall]
  exact hstack'

/-- The kernel's data segment can be loaded in ring 0. -/
theorem execEntry_movSegAx {c : Cpu} (hcs : c.cs = 0x08) (hax : c.regs.eax % 65536 = 0x10)
    (segs : Segs) (dst : SegReg) :
    execEntry gdtAccess (.movSegAx dst) ⟨c, segs⟩ = some ⟨c, segs.set dst 0x10⟩ := by
  simp only [execEntry, hax, hcs]
  rw [if_pos (by decide)]

/-- The part of a common stub before the call saves the registers, loads the kernel's data segment
and hands the address of the frame to the handler. -/
theorem before_spec (i : Interrupt) (segs : Segs) {c : Cpu} {ws : List ℕ}
    (hregs : ∀ r, c.regs.get r < 2 ^ 32) (hcs : c.cs = 0x08)
    (hstack : c.mem.StackAt c.regs.esp ws) (hlen : ws.length ≤ 7) (hret : ret < 2 ^ 32) :
    ∃ c', (execEntries gdtAccess i.common.before ⟨c, segs⟩).map
        (fun m => { m with cpu := m.cpu.push ret }) =
        some ⟨c', ⟨0x10, 0x10, 0x10, 0x10⟩⟩ ∧
      c'.regs.esp = sub32 c.regs.esp 40 ∧ c'.cs = 0x08 ∧ c'.ss = c.ss ∧
      c'.mem.StackAt (sub32 c.regs.esp 40)
        (ret :: sub32 c.regs.esp 32 :: (c.regs.pushaWords.reverse ++ ws)) := by
  have hbefore : i.common.before = [.pusha, .movAx 0x10, .movSegAx .ds, .movSegAx .es,
      .movSegAx .fs, .movSegAx .gs, .pushEsp] := by
    cases i <;> rfl
  have hwords : ∀ v ∈ c.regs.pushaWords, v < 2 ^ 32 := by
    simp only [Regs.pushaWords, List.forall_mem_cons, List.not_mem_nil, false_implies,
      implies_true, and_true]
    exact ⟨hregs .eax, hregs .ecx, hregs .edx, hregs .ebx, hregs .esp, hregs .ebp, hregs .esi,
      hregs .edi⟩
  have height : c.regs.pushaWords.length = 8 := rfl
  obtain ⟨hregs₁, hstack₁, hcs₁, hss₁⟩ :=
    Cpu.pushes_spec hstack hwords (hregs .esp) (by omega)
  rw [height, show 4 * 8 = 32 from rfl] at hregs₁ hstack₁
  -- `c₁` is the processor after `pusha`, `c₂` after the kernel's selector is in `ax`.
  have hpusha : execEntry gdtAccess .pusha ⟨c, segs⟩ = some ⟨c.pushes c.regs.pushaWords, segs⟩ := by
    rw [execEntry]
  generalize hc₁ : c.pushes c.regs.pushaWords = c₁ at *
  obtain ⟨c₂, hmov, hax, hesp₂, hmem₂, hcs₂, hss₂⟩ :=
    execEntry_movAx gdtAccess (v := 0x10) (by decide) ⟨c₁, segs⟩
  dsimp only at hmov hesp₂ hmem₂ hcs₂ hss₂
  have hesp : c₂.regs.esp = sub32 c.regs.esp 32 := by rw [hesp₂, hregs₁, Regs.set]
  have hcs' : c₂.cs = 0x08 := (hcs₂.trans hcs₁).trans hcs
  have hstack₂ : c₂.mem.StackAt c₂.regs.esp (c.regs.pushaWords.reverse ++ ws) := by
    rw [hmem₂, hesp]
    exact hstack₁
  have hargs : ∀ v ∈ [c₂.regs.esp, ret], v < 2 ^ 32 := by
    rw [hesp]
    simp only [List.forall_mem_cons, List.not_mem_nil, false_implies, implies_true, and_true]
    exact ⟨sub32_lt _ _, hret⟩
  obtain ⟨hregs₃, hstack₃, hcs₃, hss₃⟩ := Cpu.pushes_spec hstack₂ hargs
    (hesp ▸ sub32_lt _ _) (by
      simp only [List.length_append, List.length_reverse, height, List.length_cons,
        List.length_nil]
      omega)
  have htwo : c₂.pushes [c₂.regs.esp, ret] = (c₂.push c₂.regs.esp).push ret := by
    rw [Cpu.pushes_cons, Cpu.pushes_cons, Cpu.pushes, List.foldl_nil]
  have hforty : 32 + 4 * [sub32 c.regs.esp 32, ret].length = 40 := rfl
  rw [htwo, hesp, sub32_sub32, hforty] at hregs₃ hstack₃
  rw [htwo] at hcs₃ hss₃
  refine ⟨(c₂.push c₂.regs.esp).push ret, ?_, ?_, hcs₃.trans hcs',
    (hss₃.trans hss₂).trans hss₁, ?_⟩
  · rw [hbefore]
    rw [execEntries, hpusha, Option.bind_some, execEntries, hmov, Option.bind_some]
    repeat rw [execEntries, execEntry_movSegAx hcs' hax, Option.bind_some]
    rw [execEntries, execEntry, Option.bind_some, execEntries, Option.map_some]
    rfl
  · rw [hesp, hregs₃, Regs.set]
  · rw [List.reverse_cons, List.reverse_singleton, List.append_assoc] at hstack₃
    rw [hesp]
    exact hstack₃

/-- The frame that the handler receives for an interrupt of `c`, with `esp` the stack pointer before
`pusha`. -/
def frameWords (c : Cpu) (i : Interrupt) (esp : ℕ) : List ℕ :=
  [c.regs.edi, c.regs.esi, c.regs.ebp, esp, c.regs.ebx, c.regs.edx, c.regs.ecx, c.regs.eax,
    i.vector, i.errCode, c.eip, c.cs, c.eflags] ++ c.outerStack

/-- The machine at the first instruction of the handler. -/
theorem enter_spec (i : Interrupt) (tss : Tss) (offset ret : ℕ) (hc : m.cpu.Valid)
    (hesp0 : tss.esp0 < 2 ^ 32) (hret : ret < 2 ^ 32) :
    ∃ k frame, enter tss offset ret i m = some k ∧ handlerArg k = frame ∧
      frame = sub32 (m.cpu.entryEsp tss) (4 * (13 + m.cpu.outerStack.length)) ∧
      k.cpu.regs.esp = sub32 frame 8 ∧ k.cpu.cs = 0x08 ∧
      k.cpu.ss = (if m.cpu.cs % 4 = 0 then m.cpu.ss else tss.ss0) ∧
      k.segs = ⟨0x10, 0x10, 0x10, 0x10⟩ ∧
      k.cpu.mem.StackAt frame (frameWords m.cpu i (add32 frame 32)) := by
  obtain ⟨c, hstub, hregs, hstack, hcs, hss⟩ := stub_spec i offset hc hesp0
  -- The stub has changed no register but `esp`.
  have hesp : c.regs.esp = sub32 (m.cpu.entryEsp tss) (4 * (5 + m.cpu.outerStack.length)) := by
    rw [hregs, Regs.set]
  have hlt : ∀ r, c.regs.get r < 2 ^ 32 := fun r => by
    rw [hregs]
    by_cases hr : r = .esp
    · rw [hr]
      exact sub32_lt _ _
    · rw [Regs.get_set_of_ne _ _ hr]
      exact hc.regs r
  have hshort := m.cpu.length_outerStack_le
  obtain ⟨c', hbefore, hesp', hcs', hss', hstack'⟩ := before_spec i m.segs hlt hcs hstack (by
    simp only [List.length_append, List.length_cons, List.length_nil]
    omega) hret
  have hframe : sub32 c.regs.esp 32 =
      sub32 (m.cpu.entryEsp tss) (4 * (13 + m.cpu.outerStack.length)) := by
    rw [hesp, sub32_sub32]
    congr 1
    omega
  have hforty : sub32 c.regs.esp 40 = sub32 (sub32 c.regs.esp 32) 8 := by rw [sub32_sub32]
  refine ⟨⟨c', ⟨0x10, 0x10, 0x10, 0x10⟩⟩, sub32 c.regs.esp 32, ?_, ?_, hframe,
    hesp'.trans hforty, hcs', hss'.trans hss, rfl, ?_⟩
  · rw [enter_eq, execEntries_append, hstub, Option.bind_some, hbefore]
  · rw [handlerArg]
    dsimp only
    rw [hesp']
    exact hstack' 1 _ rfl
  · rw [hforty] at hstack'
    -- Below the return address and the argument.
    have hdrop := hstack'.drop (n := 2)
    have hback : add32 (sub32 c.regs.esp 32) 32 = c.regs.esp := by
      have := hlt .esp
      rw [Regs.get] at this
      unfold add32 sub32
      omega
    have hpusha : c.regs.pushaWords.reverse = [m.cpu.regs.edi, m.cpu.regs.esi, m.cpu.regs.ebp,
        c.regs.esp, m.cpu.regs.ebx, m.cpu.regs.edx, m.cpu.regs.ecx, m.cpu.regs.eax] := by
      rw [hregs]
      rfl
    rw [List.drop_succ_cons, List.drop_succ_cons, List.drop_zero, hpusha, ← List.append_assoc]
      at hdrop
    rw [hback]
    exact hdrop

/-- The fields of the frame. -/
theorem registersAt_of_stack {mem : Mem} {c : Cpu} {frame esp : ℕ}
    (hstack : mem.StackAt frame (frameWords c i esp)) :
    let r := registersAt mem frame
    r.edi = c.regs.edi ∧ r.esi = c.regs.esi ∧ r.ebp = c.regs.ebp ∧ r.ebx = c.regs.ebx ∧
      r.edx = c.regs.edx ∧ r.ecx = c.regs.ecx ∧ r.eax = c.regs.eax ∧ r.intNo = i.vector ∧
      r.errCode = i.errCode ∧ r.eip = c.eip ∧ r.cs = c.cs ∧ r.eflags = c.eflags ∧
      (c.cs % 4 ≠ 0 → r.useresp = c.regs.esp ∧ r.ss = c.ss) := by
  refine ⟨hstack 0 _ rfl, hstack 1 _ rfl, hstack 2 _ rfl, hstack 4 _ rfl, hstack 5 _ rfl,
    hstack 6 _ rfl, hstack 7 _ rfl, hstack 8 _ rfl, hstack 9 _ rfl, hstack 10 _ rfl,
    hstack 11 _ rfl, hstack 12 _ rfl, fun houter => ?_⟩
  have hout : c.outerStack = [c.regs.esp, c.ss] := if_neg houter
  rw [frameWords, hout] at hstack
  exact ⟨hstack 13 _ rfl, hstack 14 _ rfl⟩

/-- The part of a common stub between the call and `iret` takes the registers from the frame. -/
theorem after_spec (i : Interrupt) {frame : ℕ} (hlt : frame < 2 ^ 32)
    (hesp : h.cpu.regs.esp = add32 (sub32 frame 8) 4) :
    ∃ c, execEntries gdtAccess i.common.after h = some ⟨c, h.segs⟩ ∧ c.mem = h.cpu.mem ∧
      c.cs = h.cpu.cs ∧ c.ss = h.cpu.ss ∧
      c.regs = (Regs.ofStack h.cpu.mem frame).set .esp (add32 frame 40) := by
  have hafter : i.common.after = [.addEsp 4, .popa, .addEsp 8] := by cases i <;> rfl
  obtain ⟨c₁, hadd, hregs₁, hmem₁, hcs₁, hss₁⟩ := execEntry_addEsp gdtAccess 4 h
  obtain ⟨c₂, hpopa, hregs₂, hmem₂, hcs₂, hss₂⟩ := execEntry_popa gdtAccess ⟨c₁, h.segs⟩
  obtain ⟨c₃, hlast, hregs₃, hmem₃, hcs₃, hss₃⟩ := execEntry_addEsp gdtAccess 8 ⟨c₂, h.segs⟩
  dsimp only at hpopa hregs₂ hmem₂ hcs₂ hss₂ hlast hregs₃ hmem₃ hcs₃ hss₃
  -- The first `add esp, 4` drops the argument of the handler.
  have hframe : c₁.regs.esp = frame := by
    rw [hregs₁, Regs.set, hesp]
    dsimp only
    unfold add32 sub32
    omega
  -- `popa` takes eight words, and the second `add` drops the vector and the error code.
  have hforty : add32 (Regs.ofStack h.cpu.mem frame).esp 8 = add32 frame 40 := by
    rw [Regs.ofStack]
    dsimp only
    unfold add32
    omega
  rw [hmem₁, hframe] at hregs₂
  refine ⟨c₃, ?_, (hmem₃.trans hmem₂).trans hmem₁, (hcs₃.trans hcs₂).trans hcs₁,
    (hss₃.trans hss₂).trans hss₁, ?_⟩
  · rw [hafter, execEntries, hadd, Option.bind_some, execEntries, hpopa, Option.bind_some,
      execEntries, hlast, Option.bind_some, execEntries]
  · rw [hregs₃, hregs₂, hforty]

/-! ## The way back -/

/-- What the data segment registers hold after an interrupt of code in the ring of `cs`. -/
def segAfter (cs : ℕ) : ℕ := if cs % 4 = 0 then 0x10 else 0

/-- A return to an outer ring takes the kernel's data segment away. -/
theorem afterReturn_kernelData {cpl : ℕ} (hcpl : 0 < cpl) :
    Gdt.afterReturn gdtAccess cpl 0x10 = 0 := by
  have hchecked : Gdt.checked gdtAccess 0x10 = true := by decide
  have hdpl : Gdt.dpl gdtAccess 0x10 = 0 := by decide
  rw [Gdt.afterReturn, hchecked, hdpl, if_pos (by simpa using hcpl)]

/-- The stack that `iret` finds is the end of the frame. -/
theorem stackAt_iret {mem mem' : Mem} {c : Cpu} {frame esp : ℕ}
    (hstack : mem.StackAt frame (frameWords c i esp))
    (hframe : registersAt mem' frame =
      { registersAt mem frame with eax := (registersAt mem' frame).eax }) :
    mem'.StackAt (add32 frame 40) ([c.eip, c.cs, c.eflags] ++ c.outerStack) := by
  obtain ⟨-, -, -, -, -, -, -, -, -, heip, hcs, heflags, houter⟩ := registersAt_of_stack hstack
  -- The ten words below were popped.
  have hword : ∀ j, add32 (add32 frame 40) (4 * j) = add32 frame (4 * (10 + j)) := fun j => by
    unfold add32
    omega
  intro j w hw
  rw [hword]
  match j with
  | 0 => exact ((congrArg Registers.eip hframe).trans heip).trans (Option.some.inj hw)
  | 1 => exact ((congrArg Registers.cs hframe).trans hcs).trans (Option.some.inj hw)
  | 2 => exact ((congrArg Registers.eflags hframe).trans heflags).trans (Option.some.inj hw)
  | j + 3 =>
    -- A fourth and a fifth word are there only if the processor came from user mode.
    by_cases hring : c.cs % 4 = 0
    · have hout : c.outerStack = [] := if_pos hring
      rw [hout] at hw
      cases hw
    · have hout : c.outerStack = [c.regs.esp, c.ss] := if_neg hring
      rw [hout] at hw
      obtain ⟨huser, hss⟩ := houter hring
      match j with
      | 0 => exact ((congrArg Registers.useresp hframe).trans huser).trans (Option.some.inj hw)
      | 1 => exact ((congrArg Registers.ss hframe).trans hss).trans (Option.some.inj hw)
      | j + 2 => cases hw

/-- The registers that `popa` finds are those of the interrupted code, except for `eax`. -/
theorem ofStack_eq {mem mem' : Mem} {c : Cpu} {frame esp : ℕ} (hlt : frame < 2 ^ 32)
    (hstack : mem.StackAt frame (frameWords c i esp))
    (hframe : registersAt mem' frame =
      { registersAt mem frame with eax := (registersAt mem' frame).eax }) :
    Regs.ofStack mem' frame = { c.regs with
      eax := (registersAt mem' frame).eax
      esp := add32 frame 32 } := by
  obtain ⟨hedi, hesi, hebp, hebx, hedx, hecx, -⟩ := registersAt_of_stack hstack
  have hzero : add32 frame (4 * 0) = frame := by
    rw [Nat.mul_zero, add32_eq hlt, Nat.add_zero]
  have hfirst : mem'.load32 frame = c.regs.edi := by
    rw [← hedi, ← congrArg Registers.edi hframe]
    exact congrArg mem'.load32 hzero.symm
  rw [Regs.ofStack, hfirst]
  -- `eax` is the one register that the handler may change, and `popa` skips `esp`.
  congr 1
  · exact (congrArg Registers.ecx hframe).trans hecx
  · exact (congrArg Registers.edx hframe).trans hedx
  · exact (congrArg Registers.ebx hframe).trans hebx
  · exact (congrArg Registers.ebp hframe).trans hebp
  · exact (congrArg Registers.esi hframe).trans hesi

/-- After the handler has returned, the interrupted code goes on with its registers and the `eax`
of the frame, and with the data segment registers as `iret` leaves them. -/
theorem leave_spec (hc : m.cpu.Valid) (hesp0 : tss.esp0 < 2 ^ 32) (hret : ret < 2 ^ 32)
    (hk : enter tss offset ret i m = some k) (hh : HandlerReturns k h) :
    ∃ m', leave i h = some m' ∧ m'.cpu.eip = m.cpu.eip ∧ m'.cpu.cs = m.cpu.cs ∧
      m'.cpu.eflags = m.cpu.eflags ∧ m'.cpu.ss = m.cpu.ss ∧
      m'.cpu.regs = { m.cpu.regs with eax := (registersAt h.cpu.mem (handlerArg k)).eax } ∧
      m'.segs = ⟨segAfter m.cpu.cs, segAfter m.cpu.cs, segAfter m.cpu.cs, segAfter m.cpu.cs⟩ := by
  obtain ⟨k', frame, hk', harg, hframe, hesp, hcs, hss, hsegs, hstack⟩ :=
    enter_spec i tss offset ret hc hesp0 hret
  obtain rfl : k = k' := Option.some.inj (hk.symm.trans hk')
  have hlt : frame < 2 ^ 32 := hframe ▸ sub32_lt _ _
  have hreturns := hh.frame
  rw [harg] at hreturns ⊢
  obtain ⟨c, hafter, hmem, hcs', hss', hregs⟩ := after_spec i hlt (hh.esp.trans (by rw [hesp]))
  rw [ofStack_eq hlt hstack hreturns] at hregs
  have hring : c.cs % 4 = 0 := by rw [hcs', hh.cs, hcs]
  have hesp' : c.regs.esp = add32 frame 40 := by rw [hregs, Regs.set]
  obtain ⟨r, hiret, heip, hrcs, heflags, hrregs, hrss⟩ := Cpu.iret_of_stack hc hring
    (hesp' ▸ add32_lt _ _) (by
      rw [hmem, hesp']
      exact stackAt_iret hstack hreturns)
  have hleave : leave i h = Machine.iret gdtAccess ⟨c, h.segs⟩ := by
    rw [leave, hafter]
    rfl
  refine ⟨_, by rw [hleave, Machine.iret, hiret, Option.map_some], heip, hrcs, heflags, ?_, ?_, ?_⟩
  · dsimp only
    rw [hrss, hss', hh.ss, hss]
    split <;> rfl
  · -- Within ring 0 the frame began 52 bytes below the stack pointer.
    have hback : (if m.cpu.cs % 4 = 0 then add32 c.regs.esp 12 else m.cpu.regs.esp) =
        m.cpu.regs.esp := by
      split
      next hsame =>
        have hm := hc.regs .esp
        rw [Regs.get] at hm
        have hout : m.cpu.outerStack = [] := if_pos hsame
        have hentry : m.cpu.entryEsp tss = m.cpu.regs.esp := if_pos hsame
        rw [hesp', hframe, hout, hentry, List.length_nil]
        unfold add32 sub32
        omega
      next => rfl
    dsimp only
    rw [hrregs, hback, hregs, Regs.set_set]
    rfl
  · dsimp only
    rw [hring, hrcs, hh.segs, hsegs, segAfter]
    split
    next hpos => rw [if_neg hpos.ne', afterReturn_kernelData hpos]
    next hneg =>
      rw [if_pos (Nat.eq_zero_of_not_pos hneg)]
      rfl

/-- For every interrupt of every valid state of the processor, in any ring: the handler receives
the interrupted registers, the vector and the error code in its frame; and when it returns having
changed only `regs->eax`, the interrupted code goes on where it was, with all its registers but
`eax`, which is that of the frame. -/
theorem interrupt_roundTrip (i : Interrupt) (tss : Tss) (offset ret : ℕ) (hc : m.cpu.Valid)
    (hesp0 : tss.esp0 < 2 ^ 32) (hret : ret < 2 ^ 32) :
    ∃ k, enter tss offset ret i m = some k ∧
      (let r := registersAt k.cpu.mem (handlerArg k)
      r.edi = m.cpu.regs.edi ∧ r.esi = m.cpu.regs.esi ∧ r.ebp = m.cpu.regs.ebp ∧
        r.ebx = m.cpu.regs.ebx ∧ r.edx = m.cpu.regs.edx ∧ r.ecx = m.cpu.regs.ecx ∧
        r.eax = m.cpu.regs.eax ∧ r.intNo = i.vector ∧ r.errCode = i.errCode ∧
        r.eip = m.cpu.eip ∧ r.cs = m.cpu.cs ∧ r.eflags = m.cpu.eflags ∧
        (m.cpu.cs % 4 ≠ 0 → r.useresp = m.cpu.regs.esp ∧ r.ss = m.cpu.ss)) ∧
      ∀ h, HandlerReturns k h → ∃ m', leave i h = some m' ∧
        m'.cpu.eip = m.cpu.eip ∧ m'.cpu.cs = m.cpu.cs ∧ m'.cpu.eflags = m.cpu.eflags ∧
        m'.cpu.ss = m.cpu.ss ∧ m'.cpu.regs =
          { m.cpu.regs with eax := (registersAt h.cpu.mem (handlerArg k)).eax } := by
  obtain ⟨k, frame, hk, harg, -, -, -, -, -, hstack⟩ := enter_spec i tss offset ret hc hesp0 hret
  refine ⟨k, hk, ?_, fun h hh => ?_⟩
  · rw [harg]
    exact registersAt_of_stack hstack
  · obtain ⟨m', hleave, heip, hcs, heflags, hss, hregs, -⟩ := leave_spec hc hesp0 hret hk hh
    exact ⟨m', hleave, heip, hcs, heflags, hss, hregs⟩

/-- A handler that does nothing but `regs->eax = v`, after its return. -/
def storesEax (k : Machine) (v : ℕ) : Machine :=
  { k with cpu := { k.cpu with
      regs := k.cpu.regs.set .esp (add32 k.cpu.regs.esp 4)
      mem := k.cpu.mem.store32 (add32 (handlerArg k) 28) v } }

/-- A handler that stores a result in the saved `eax`. -/
theorem handlerReturns_storesEax (k : Machine) (v : ℕ) : HandlerReturns k (storesEax k v) := by
  have hmem : (storesEax k v).cpu.mem = k.cpu.mem.store32 (add32 (handlerArg k) 28) v := by
    rw [storesEax]
  -- The words of the frame do not overlap, also where the addresses wrap.
  have hword : ∀ j < 15, j ≠ 7 → (k.cpu.mem.store32 (add32 (handlerArg k) 28) v).load32
      (add32 (handlerArg k) (4 * j)) = k.cpu.mem.load32 (add32 (handlerArg k) (4 * j)) := by
    intro j hj hne
    refine Mem.load32_store32_of_disjoint _ _ ?_
    unfold add32
    omega
  refine ⟨by rw [storesEax, Regs.set], by rw [storesEax], by rw [storesEax], by rw [storesEax], ?_⟩
  rw [hmem, registersAt, registersAt]
  simp only [hword, Nat.reduceLT, Nat.reduceEqDiff, ne_eq, not_false_eq_true]

/-- A user program in ring 3, about to ask for the uptime. -/
def userMachine : Machine where
  cpu :=
    { regs := ⟨8, 1, 2, 3, 0x7FFF00, 4, 5, 6⟩
      eip := 0x600010
      eflags := 0x202
      cs := 0x1B
      ss := 0x23
      cr3 := 0
      mem := fun _ => 0 }
  segs := ⟨0x23, 0x23, 0x23, 0x23⟩

theorem valid_userMachine : userMachine.cpu.Valid :=
  ⟨fun r => by cases r <;> decide, by decide, by decide, by decide, by decide⟩

/-- `int 0x80` from ring 3, with a handler that returns 5. -/
theorem interrupt_roundTrip_syscall :
    ∃ k, enter ⟨0x110000, 0x10⟩ 0x101000 0x101040 .syscall userMachine = some k ∧
      (registersAt k.cpu.mem (handlerArg k)).intNo = 0x80 ∧
      (registersAt k.cpu.mem (handlerArg k)).eax = 8 ∧
      ∃ m', leave .syscall (storesEax k 5) = some m' ∧ m'.cpu.eip = 0x600010 ∧
        m'.cpu.cs = 0x1B ∧ m'.cpu.regs.esp = 0x7FFF00 := by
  obtain ⟨k, hk, ⟨-, -, -, -, -, -, heax, hint, -⟩, hback⟩ := interrupt_roundTrip .syscall
    ⟨0x110000, 0x10⟩ 0x101000 0x101040 valid_userMachine (by decide) (by decide)
  obtain ⟨m', hleave, heip, hcs, -, -, hregs⟩ := hback _ (handlerReturns_storesEax k 5)
  exact ⟨k, hk, hint, heax, m', hleave, heip, hcs, by rw [hregs]; rfl⟩

/-! ## The data segments -/

variable {m' : Machine}

/-- After an interrupt all data segment registers hold the kernel's data segment, or the null
selector if the interrupted code runs outside ring 0. So they are preserved only if they held that
before. -/
theorem segments_preserved_iff (hc : m.cpu.Valid) (hesp0 : tss.esp0 < 2 ^ 32)
    (hret : ret < 2 ^ 32) (hk : enter tss offset ret i m = some k) (hh : HandlerReturns k h)
    (hleave : leave i h = some m') :
    m'.segs = m.segs ↔
      (m.cpu.cs % 4 = 0 ∧ m.segs = ⟨0x10, 0x10, 0x10, 0x10⟩) ∨
      (m.cpu.cs % 4 ≠ 0 ∧ m.segs = ⟨0, 0, 0, 0⟩) := by
  obtain ⟨r, hr, -, -, -, -, -, hsegs⟩ := leave_spec hc hesp0 hret hk hh
  obtain rfl : m' = r := Option.some.inj (hleave.symm.trans hr)
  rw [hsegs, eq_comm]
  by_cases hring : m.cpu.cs % 4 = 0
  · simp [segAfter, hring]
  · simp [segAfter, hring]

/-- The kernel itself, waiting for an interrupt. -/
def kernelMachine : Machine where
  cpu := { userMachine.cpu with cs := 0x08, ss := 0x10 }
  segs := ⟨0x10, 0x10, 0x10, 0x10⟩

/-- An interrupt of the kernel itself. -/
theorem segments_preserved_iff_kernel :
    ∃ k m' : Machine,
      enter ⟨0x110000, 0x10⟩ 0x101000 0x101040 (.irq 0) kernelMachine = some k ∧
      leave (.irq 0) (storesEax k 5) = some m' ∧ m'.segs = kernelMachine.segs := by
  have hvalid : kernelMachine.cpu.Valid :=
    ⟨fun r => by cases r <;> decide, by decide, by decide, by decide, by decide⟩
  obtain ⟨k, -, hk, -⟩ := enter_spec (.irq 0) ⟨0x110000, 0x10⟩ 0x101000 0x101040 hvalid
    (by decide) (by decide)
  have hh := handlerReturns_storesEax k 5
  obtain ⟨m', hleave, -⟩ := leave_spec hvalid (by decide) (by decide) hk hh
  exact ⟨k, m', hk, hleave, (segments_preserved_iff hvalid (by decide) (by decide) hk hh
    hleave).mpr (.inl ⟨rfl, rfl⟩)⟩

/-- A user program with the user data segment in all registers has the null selector in them after
a timer interrupt. -/
theorem segments_lost_userMachine :
    userMachine.segs = ⟨0x23, 0x23, 0x23, 0x23⟩ ∧
    ∃ k h m', enter ⟨0x110000, 0x10⟩ 0x101000 0x101040 (.irq 0) userMachine = some k ∧
      HandlerReturns k h ∧ leave (.irq 0) h = some m' ∧ m'.segs = ⟨0, 0, 0, 0⟩ ∧
      m'.segs ≠ userMachine.segs := by
  refine ⟨rfl, ?_⟩
  obtain ⟨k, -, hk, -⟩ := enter_spec (.irq 0) ⟨0x110000, 0x10⟩ 0x101000 0x101040
    valid_userMachine (by decide) (by decide)
  have hh := handlerReturns_storesEax k 5
  obtain ⟨m', hleave, -, -, -, -, -, hsegs⟩ :=
    leave_spec valid_userMachine (by decide) (by decide) hk hh
  have hzero : m'.segs = ⟨0, 0, 0, 0⟩ := hsegs.trans (by decide)
  exact ⟨k, _, m', hk, hh, hleave, hzero, by rw [hzero]; decide⟩

end Lightstreak
