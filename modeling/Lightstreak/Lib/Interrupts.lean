import Lightstreak.Lib.X86

/-!
# Interrupts on the 32-bit x86

What the processor does when an interrupt is delivered to ring 0 and when `iret` returns from it,
with the data segment registers, and the instructions that entry code uses besides those of
`Lightstreak.Lib.X86`. Entry code is straight, and its own addresses play no role: `eip` is set by
the delivery and by `iret` alone.

* `Mem.StackAt`: the words on a stack. Addresses on the stack wrap at `2 ^ 32`, so that nothing
  need be assumed about the stack pointer.
* `Cpu.pushes_spec`: pushes put their words on top of what is on the stack.
* `Cpu.deliver_spec`: the stack after the delivery of an interrupt.
* `Cpu.iret_of_stack`: `iret` returns to what the delivery saved, within a ring or to an outer one.
-/

namespace SysLib

/-- The words on the stack from the stack pointer `sp` on. -/
def Mem.StackAt (m : Mem) (sp : ℕ) (ws : List ℕ) : Prop :=
  ∀ i w, ws[i]? = some w → m.load32 (add32 sp (4 * i)) = w

theorem Mem.stackAt_nil (m : Mem) (sp : ℕ) : m.StackAt sp [] := by
  intro i w h
  simp at h

/-- A word put in front of a stack. -/
theorem Mem.StackAt.store32 {m : Mem} {sp v : ℕ} {ws : List ℕ} (h : m.StackAt sp ws)
    (hv : v < 2 ^ 32) (hlen : 4 * (ws.length + 1) ≤ 2 ^ 32) :
    (m.store32 (sub32 sp 4) v).StackAt (sub32 sp 4) (v :: ws) := by
  intro i w hw
  cases i with
  | zero =>
    have haddr : add32 (sub32 sp 4) (4 * 0) = sub32 sp 4 := by
      unfold add32 sub32
      omega
    obtain rfl : v = w := by simpa using hw
    rw [haddr, Mem.load32_store32_of_lt _ _ hv]
  | succ i =>
    rw [List.getElem?_cons_succ] at hw
    have hi : i < ws.length := (List.getElem?_eq_some_iff.mp hw).1
    -- The words lie four bytes apart, also where the addresses wrap.
    have haddr : add32 (sub32 sp 4) (4 * (i + 1)) = add32 sp (4 * i) := by
      unfold add32 sub32
      omega
    rw [haddr, Mem.load32_store32_of_disjoint, h i w hw]
    unfold add32 sub32
    omega

/-- The stack below its first words. -/
theorem Mem.StackAt.drop {m : Mem} {sp n : ℕ} {ws : List ℕ}
    (h : m.StackAt (sub32 sp (4 * n)) ws) : m.StackAt sp (ws.drop n) := by
  intro i w hw
  rw [List.getElem?_drop] at hw
  rw [← h (n + i) w hw]
  congr 1
  unfold add32 sub32
  omega

namespace X86

/-! ## Segments -/

/-- The data segment registers. -/
inductive SegReg
  | ds
  | es
  | fs
  | gs
deriving DecidableEq, Repr

/-- The selectors in the data segment registers. -/
structure Segs where
  /-- Data segment selector. -/
  ds : ℕ
  /-- Extra segment selector. -/
  es : ℕ
  /-- Selector that the kernel loads and does not use. -/
  fs : ℕ
  /-- Selector that the kernel loads and does not use. -/
  gs : ℕ
deriving DecidableEq, Repr

/-- Load a data segment register. -/
def Segs.set (s : Segs) (x : SegReg) (sel : ℕ) : Segs :=
  match x with
  | .ds => { s with ds := sel }
  | .es => { s with es := sel }
  | .fs => { s with fs := sel }
  | .gs => { s with gs := sel }

/-- The access bytes of the global descriptor table, by index. -/
abbrev Gdt := ℕ → ℕ

/-- The privilege level of the descriptor that a selector names. -/
def Gdt.dpl (g : Gdt) (sel : ℕ) : ℕ := g (sel / 8) / 32 % 4

/-- A data segment, or a code segment that is not conforming. -/
def Gdt.checked (g : Gdt) (sel : ℕ) : Bool :=
  let access := g (sel / 8)
  access.testBit 4 && !(access.testBit 3 && access.testBit 2)

/-- A selector that code at the privilege level `cpl` can load into a data segment register: the
null selector, or a present data or readable code segment of the global table, with enough
privilege. -/
def Gdt.loadable (g : Gdt) (cpl sel : ℕ) : Bool :=
  let access := g (sel / 8)
  sel / 4 = 0 ||
    (sel / 4 % 2 = 0 && access.testBit 7 && access.testBit 4 &&
      (!access.testBit 3 || access.testBit 1) &&
      (!g.checked sel || max cpl (sel % 4) ≤ g.dpl sel))

/-- What a return to the outer ring `cpl` leaves in a data segment register: a segment that is too
privileged for the ring is replaced by the null selector. -/
def Gdt.afterReturn (g : Gdt) (cpl sel : ℕ) : ℕ :=
  if g.checked sel && g.dpl sel < cpl then 0 else sel

/-- The processor with its data segment registers. -/
structure Machine where
  /-- The registers and memory. -/
  cpu : Cpu
  /-- The data segment selectors. -/
  segs : Segs

/-! ## Delivery and return -/

/-- Push several words, the first one first. -/
def Cpu.pushes (c : Cpu) (vs : List ℕ) : Cpu := vs.foldl Cpu.push c

/-- The fields of the task state segment that an interrupt from an outer ring uses. -/
structure Tss where
  /-- The stack pointer for entries from user mode. -/
  esp0 : ℕ
  /-- The stack segment for entries from user mode. -/
  ss0 : ℕ

/-- The stack pointer that the handler of an interrupt starts from. -/
def Cpu.entryEsp (c : Cpu) (tss : Tss) : ℕ := if c.cs % 4 = 0 then c.regs.esp else tss.esp0

/-- What an interrupt saves of an outer ring's stack, the last word pushed first. -/
def Cpu.outerStack (c : Cpu) : List ℕ := if c.cs % 4 = 0 then [] else [c.regs.esp, c.ss]

/-- The processor on the stack of the handler, which is that of the interrupted code unless the
ring changes. -/
def Cpu.onEntryStack (c : Cpu) (tss : Tss) : Cpu :=
  if c.cs % 4 = 0 then c else { c with
    regs := c.regs.set .esp tss.esp0
    ss := tss.ss0 }

/-- The delivery of an interrupt through an interrupt gate with the ring 0 code segment `sel` and
the address `offset`, with an error code for some exceptions. The flags IF, TF, NT, RF and VM are
cleared. -/
def Cpu.deliver (c : Cpu) (tss : Tss) (sel offset : ℕ) (errorCode : Option ℕ) : Cpu :=
  { (c.onEntryStack tss).pushes
      (c.outerStack.reverse ++ [c.eflags, c.cs, c.eip] ++ errorCode.toList) with
    cs := sel
    eip := offset
    eflags := c.eflags &&& 0xFFFCBCFF }

/-- `iret` with the data segment registers. -/
def Machine.iret (g : Gdt) (m : Machine) : Option Machine :=
  m.cpu.iret.map fun c =>
    let after := if m.cpu.cs % 4 < c.cs % 4 then g.afterReturn (c.cs % 4) else id
    ⟨c, ⟨after m.segs.ds, after m.segs.es, after m.segs.fs, after m.segs.gs⟩⟩

/-! ## Entry code -/

/-- The instructions of entry code. -/
inductive EntryInstr
  | pushImm (v : ℕ)
  | pushEsp
  | pusha
  | popa
  | movAx (v : ℕ)
  | movSegAx (dst : SegReg)
  | addEsp (v : ℕ)
deriving DecidableEq, Repr

/-- The flags register after an addition: CF, PF, AF, ZF, SF and OF. -/
def addFlags (eflags a b : ℕ) : ℕ :=
  (eflags &&& 0xFFFFF72A) |||
  (if 2 ^ 32 ≤ a + b then 0x1 else 0) |||
  (if ((List.range 8).countP fun i => (add32 a b).testBit i) % 2 = 0 then 0x4 else 0) |||
  (if 16 ≤ a % 16 + b % 16 then 0x10 else 0) |||
  (if add32 a b = 0 then 0x40 else 0) |||
  (if (add32 a b).testBit 31 then 0x80 else 0) |||
  (if toInt32 (add32 a b) = toInt32 a + toInt32 b then 0 else 0x800)

/-- The general registers in the order in which `pusha` pushes them, with the value of `esp` from
before. -/
def Regs.pushaWords (r : Regs) : List ℕ :=
  [r.eax, r.ecx, r.edx, r.ebx, r.esp, r.ebp, r.esi, r.edi]

/-- The registers that `popa` takes from the stack. The saved `esp` is skipped. -/
def Regs.ofStack (m : Mem) (esp : ℕ) : Regs where
  edi := m.load32 esp
  esi := m.load32 (add32 esp 4)
  ebp := m.load32 (add32 esp 8)
  ebx := m.load32 (add32 esp 16)
  edx := m.load32 (add32 esp 20)
  ecx := m.load32 (add32 esp 24)
  eax := m.load32 (add32 esp 28)
  esp := add32 esp 32

/-- Execute an instruction. A segment that cannot be loaded is a fault. -/
def execEntry (g : Gdt) (i : EntryInstr) (m : Machine) : Option Machine :=
  let c := m.cpu
  let esp := c.regs.esp
  match i with
  | .pushImm v => some { m with cpu := c.push v }
  | .pushEsp => some { m with cpu := c.push esp }
  | .pusha => some { m with cpu := c.pushes c.regs.pushaWords }
  | .popa => some { m with cpu := { c with regs := Regs.ofStack c.mem esp } }
  | .movAx v =>
    some { m with cpu := { c with
      regs := c.regs.set .eax (c.regs.eax / 65536 * 65536 + v % 65536) } }
  | .movSegAx dst =>
    let sel := c.regs.eax % 65536
    if g.loadable (c.cs % 4) sel then some { m with segs := m.segs.set dst sel } else none
  | .addEsp v =>
    some { m with cpu := { c with
      regs := c.regs.set .esp (add32 esp v)
      eflags := addFlags c.eflags esp v } }

/-- Execute a list of instructions. -/
def execEntries (g : Gdt) : List EntryInstr → Machine → Option Machine
  | [], m => some m
  | i :: is, m => (execEntry g i m).bind (execEntries g is)

/-! ## The stack -/

variable {c c' : Cpu} {tss : Tss} {vs ws : List ℕ}

/-- Registers hold 32 bits, selectors 16. -/
structure Cpu.Valid (c : Cpu) : Prop where
  /-- General registers hold 32-bit values. -/
  regs : ∀ r, c.regs.get r < 2 ^ 32
  /-- The instruction pointer has 32 bits. -/
  eip : c.eip < 2 ^ 32
  /-- The flags have 32 bits. -/
  eflags : c.eflags < 2 ^ 32
  /-- The code segment selector has 16 bits. -/
  cs : c.cs < 65536
  /-- The stack segment selector has 16 bits. -/
  ss : c.ss < 65536

theorem Cpu.pushes_cons (c : Cpu) (v : ℕ) (vs : List ℕ) :
    c.pushes (v :: vs) = (c.push v).pushes vs := by
  rw [Cpu.pushes, Cpu.pushes, List.foldl_cons]

/-- A list of `push` instructions with immediate operands. -/
theorem execEntries_pushImm (g : Gdt) (vs : List ℕ) (m : Machine) :
    execEntries g (vs.map .pushImm) m = some { m with cpu := m.cpu.pushes vs } := by
  induction vs generalizing m with
  | nil => rw [List.map_nil, execEntries, Cpu.pushes, List.foldl_nil]
  | cons v vs ih =>
    rw [List.map_cons, execEntries, execEntry, Option.bind_some, ih, Cpu.pushes_cons]

/-- Two sequences of entry code one after the other. -/
theorem execEntries_append (g : Gdt) (is js : List EntryInstr) (m : Machine) :
    execEntries g (is ++ js) m = (execEntries g is m).bind (execEntries g js) := by
  induction is generalizing m with
  | nil => rfl
  | cons i is ih =>
    rw [List.cons_append, execEntries, execEntries, Option.bind_assoc]
    exact congrArg _ (funext fun _ => ih _)

/-- `add esp, v` moves the stack pointer only. -/
theorem execEntry_addEsp (g : Gdt) (v : ℕ) (m : Machine) :
    ∃ c, execEntry g (.addEsp v) m = some ⟨c, m.segs⟩ ∧
      c.regs = m.cpu.regs.set .esp (add32 m.cpu.regs.esp v) ∧ c.mem = m.cpu.mem ∧
      c.cs = m.cpu.cs ∧ c.ss = m.cpu.ss :=
  ⟨{ m.cpu with
      regs := m.cpu.regs.set .esp (add32 m.cpu.regs.esp v)
      eflags := addFlags m.cpu.eflags m.cpu.regs.esp v },
    by rw [execEntry], rfl, rfl, rfl, rfl⟩

/-- `popa` takes the general registers from the stack and leaves memory. -/
theorem execEntry_popa (g : Gdt) (m : Machine) :
    ∃ c, execEntry g .popa m = some ⟨c, m.segs⟩ ∧
      c.regs = Regs.ofStack m.cpu.mem m.cpu.regs.esp ∧ c.mem = m.cpu.mem ∧
      c.cs = m.cpu.cs ∧ c.ss = m.cpu.ss :=
  ⟨{ m.cpu with regs := Regs.ofStack m.cpu.mem m.cpu.regs.esp },
    by rw [execEntry], rfl, rfl, rfl, rfl⟩

/-- After `mov ax` the low half of `eax` is the operand, and nothing else that counts here has
changed. -/
theorem execEntry_movAx (g : Gdt) {v : ℕ} (hv : v < 65536) (m : Machine) :
    ∃ c, execEntry g (.movAx v) m = some ⟨c, m.segs⟩ ∧ c.regs.eax % 65536 = v ∧
      c.regs.esp = m.cpu.regs.esp ∧ c.mem = m.cpu.mem ∧ c.cs = m.cpu.cs ∧ c.ss = m.cpu.ss := by
  have hax : (m.cpu.regs.eax / 65536 * 65536 + v % 65536) % 65536 = v := by omega
  exact ⟨{ m.cpu with
      regs := m.cpu.regs.set .eax (m.cpu.regs.eax / 65536 * 65536 + v % 65536) },
    by rw [execEntry], hax, rfl, rfl, rfl, rfl⟩

theorem sub32_sub32 (a b d : ℕ) : sub32 (sub32 a b) d = sub32 a (b + d) := by
  unfold sub32
  omega

/-- Pushes put their words on top of the stack, the last one on top, and change no register but
`esp`. -/
theorem Cpu.pushes_spec (hstack : c.mem.StackAt c.regs.esp ws) (hvs : ∀ v ∈ vs, v < 2 ^ 32)
    (hesp : c.regs.esp < 2 ^ 32) (hlen : 4 * (vs.length + ws.length) ≤ 2 ^ 32) :
    (c.pushes vs).regs = c.regs.set .esp (sub32 c.regs.esp (4 * vs.length)) ∧
      (c.pushes vs).mem.StackAt (sub32 c.regs.esp (4 * vs.length)) (vs.reverse ++ ws) ∧
      (c.pushes vs).cs = c.cs ∧ (c.pushes vs).ss = c.ss := by
  -- The stack below grows by the word just pushed, so the statement is about any words `ws`.
  induction vs generalizing c ws with
  | nil =>
    have hzero : sub32 c.regs.esp (4 * ([] : List ℕ).length) = c.regs.esp :=
      sub32_eq hesp (Nat.zero_le _)
    have hnil : c.pushes [] = c := by rw [Cpu.pushes, List.foldl_nil]
    rw [hzero, hnil, List.reverse_nil, List.nil_append]
    exact ⟨by rw [Regs.set], hstack, rfl, rfl⟩
  | cons v vs ih =>
    obtain ⟨hv, hvs⟩ := List.forall_mem_cons.mp hvs
    rw [List.length_cons] at hlen
    have hesp₁ : (c.push v).regs.esp = sub32 c.regs.esp 4 := by rw [Cpu.regs_push, Regs.set]
    have hstack₁ : (c.push v).mem.StackAt (c.push v).regs.esp (v :: ws) := by
      rw [hesp₁, Cpu.mem_push]
      exact hstack.store32 hv (by omega)
    obtain ⟨hregs, hstack', hcs, hss⟩ := ih hstack₁ hvs
      (hesp₁ ▸ sub32_lt _ _) (by rw [List.length_cons]; omega)
    obtain ⟨hcs₁, hss₁, -⟩ := c.control_push v
    have hlen' : 4 + 4 * vs.length = 4 * (v :: vs).length := by
      rw [List.length_cons]
      omega
    rw [hesp₁, sub32_sub32, hlen'] at hregs hstack'
    rw [Cpu.pushes_cons, List.reverse_cons, List.append_assoc, List.singleton_append]
    exact ⟨by rw [hregs, Cpu.regs_push, Regs.set_set], hstack', hcs.trans hcs₁, hss.trans hss₁⟩

/-- The stack that an entry starts on differs in `esp` only. -/
theorem Cpu.regs_onEntryStack (c : Cpu) (tss : Tss) :
    (c.onEntryStack tss).regs = c.regs.set .esp (c.entryEsp tss) := by
  unfold Cpu.onEntryStack Cpu.entryEsp
  split
  · rw [Regs.set]
  · rfl

/-- Everything that a delivery pushes is a word. -/
theorem Cpu.Valid.lt_of_mem_outerStack (hc : c.Valid) {v : ℕ} (hv : v ∈ c.outerStack) :
    v < 2 ^ 32 := by
  unfold Cpu.outerStack at hv
  split at hv
  · cases hv
  · simp only [List.mem_cons, List.not_mem_nil, or_false] at hv
    rcases hv with rfl | rfl
    · exact hc.regs .esp
    · exact hc.ss.trans (by decide)

/-- At most `ss` and `esp` are pushed for a change of the stack. -/
theorem Cpu.length_outerStack_le (c : Cpu) : c.outerStack.length ≤ 2 := by
  unfold Cpu.outerStack
  split <;> simp

/-- The stack after the delivery of an interrupt, from any ring. -/
theorem Cpu.deliver_spec (hc : c.Valid) (hesp0 : tss.esp0 < 2 ^ 32) (sel offset : ℕ)
    {errorCode : Option ℕ} (herr : ∀ e ∈ errorCode, e < 2 ^ 32) :
    ∃ esp, esp = sub32 (c.entryEsp tss)
        (4 * (errorCode.toList ++ [c.eip, c.cs, c.eflags] ++ c.outerStack).length) ∧
      (c.deliver tss sel offset errorCode).regs = c.regs.set .esp esp ∧
      (c.deliver tss sel offset errorCode).mem.StackAt esp
        (errorCode.toList ++ [c.eip, c.cs, c.eflags] ++ c.outerStack) ∧
      (c.deliver tss sel offset errorCode).cs = sel ∧
      (c.deliver tss sel offset errorCode).ss = if c.cs % 4 = 0 then c.ss else tss.ss0 := by
  -- Everything that is pushed is a 32-bit value, so that it is read back as it was.
  have hwords : ∀ v ∈ c.outerStack.reverse ++ [c.eflags, c.cs, c.eip] ++ errorCode.toList,
      v < 2 ^ 32 := fun v hv => by
    simp only [List.mem_append, List.mem_reverse, List.mem_cons, List.not_mem_nil, or_false,
      Option.mem_toList] at hv
    rcases hv with (hv | rfl | rfl | rfl) | hv
    · exact hc.lt_of_mem_outerStack hv
    · exact hc.eflags
    · exact hc.cs.trans (by decide)
    · exact hc.eip
    · exact herr v hv
  -- The words lie on the stack in the order opposite to that of the pushes.
  have hrev : (c.outerStack.reverse ++ [c.eflags, c.cs, c.eip] ++ errorCode.toList).reverse =
      errorCode.toList ++ [c.eip, c.cs, c.eflags] ++ c.outerStack := by
    cases errorCode <;> simp
  have hlen := congrArg List.length hrev
  rw [List.length_reverse] at hlen
  -- At most six words are pushed: they do not wrap around the address space.
  have hshort : (errorCode.toList ++ [c.eip, c.cs, c.eflags] ++ c.outerStack).length ≤ 6 := by
    have := c.length_outerStack_le
    cases errorCode <;> simp <;> omega
  have hregs := c.regs_onEntryStack tss
  have hesp : (c.onEntryStack tss).regs.esp = c.entryEsp tss := by rw [hregs, Regs.set]
  have hesplt : c.entryEsp tss < 2 ^ 32 := by
    unfold Cpu.entryEsp
    split
    · exact hc.regs .esp
    · exact hesp0
  have hss : (c.onEntryStack tss).ss = if c.cs % 4 = 0 then c.ss else tss.ss0 := by
    unfold Cpu.onEntryStack
    split <;> rfl
  obtain ⟨hregs', hstack, -, hss'⟩ := Cpu.pushes_spec (Mem.stackAt_nil _ _) hwords
    (hesp ▸ hesplt) (by rw [hlen, List.length_nil]; omega)
  rw [hesp, hlen] at hregs' hstack
  rw [hrev, List.append_nil] at hstack
  refine ⟨_, rfl, ?_, hstack, rfl, hss'.trans hss⟩
  rw [Cpu.deliver, hregs', hregs, Regs.set_set]

/-- `iret` takes back what the delivery of an interrupt of `c` put on the stack. -/
theorem Cpu.iret_of_stack (hc : c.Valid) (hring : c'.cs % 4 = 0) (hlt : c'.regs.esp < 2 ^ 32)
    (hstack : c'.mem.StackAt c'.regs.esp ([c.eip, c.cs, c.eflags] ++ c.outerStack)) :
    ∃ r, c'.iret = some r ∧ r.eip = c.eip ∧ r.cs = c.cs ∧ r.eflags = c.eflags ∧
      r.regs = c'.regs.set .esp
        (if c.cs % 4 = 0 then add32 c'.regs.esp 12 else c.regs.esp) ∧
      r.ss = if c.cs % 4 = 0 then c'.ss else c.ss := by
  have hesp : c'.mem.load32 c'.regs.esp = c.eip := by
    rw [← hstack 0 c.eip rfl, Nat.mul_zero, add32_eq hlt, Nat.add_zero]
  have hcs : c'.mem.load32 (add32 c'.regs.esp 4) % 65536 = c.cs := by
    rw [hstack 1 c.cs rfl, Nat.mod_eq_of_lt hc.cs]
  have heflags : c'.mem.load32 (add32 c'.regs.esp 8) = c.eflags := hstack 2 c.eflags rfl
  unfold Cpu.iret
  simp only [hesp, hcs, heflags, hring, Nat.not_lt_zero, if_false]
  -- Only a return to another privilege level takes `esp` and `ss` from the stack.
  by_cases hsame : c.cs % 4 = 0
  · rw [if_pos hsame, if_pos hsame, if_pos hsame]
    exact ⟨_, rfl, rfl, rfl, rfl, rfl, rfl⟩
  · rw [if_neg hsame, if_neg hsame, if_neg hsame]
    have houter : c.outerStack = [c.regs.esp, c.ss] := if_neg hsame
    rw [houter] at hstack
    have hesp' : c'.mem.load32 (add32 c'.regs.esp 12) = c.regs.esp := hstack 3 c.regs.esp rfl
    have hss' : c'.mem.load32 (add32 c'.regs.esp 16) = c.ss := hstack 4 c.ss rfl
    rw [hesp', hss', Nat.mod_eq_of_lt hc.ss]
    exact ⟨_, rfl, rfl, rfl, rfl, rfl, rfl⟩


end X86

end SysLib
