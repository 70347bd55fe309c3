import Lightstreak.Lib.Memory

/-!
# A fragment of the 32-bit x86 instruction set

The registers, the flags and the instructions that kernel entry and exit code is written in, with
the sizes of their encodings, so that code has addresses that can be stored in memory and jumped
to. Code itself is a map from addresses to instructions (`Text`), apart from the data memory.
Privileged instructions outside ring 0 and `hlt` make the processor stop (`none`).

Straight-line code is executed a block at a time (`untilRet_block`): the effect of the block is
`execs`, which does not look at addresses of code.
-/

namespace SysLib.X86

/-- The general registers. -/
inductive Reg
  | eax
  | ecx
  | edx
  | ebx
  | esp
  | ebp
  | esi
  | edi
deriving DecidableEq, Repr

/-- The contents of the general registers. -/
structure Regs where
  /-- Accumulator; system calls take their number and return their result in it. -/
  eax : ℕ
  /-- Counter register. -/
  ecx : ℕ
  /-- Data register. -/
  edx : ℕ
  /-- Base register, saved by the called function. -/
  ebx : ℕ
  /-- Stack pointer. -/
  esp : ℕ
  /-- Frame pointer, saved by the called function. -/
  ebp : ℕ
  /-- Source index, saved by the called function. -/
  esi : ℕ
  /-- Destination index, saved by the called function. -/
  edi : ℕ
deriving DecidableEq, Repr

/-- Read a register. -/
def Regs.get (r : Regs) : Reg → ℕ
  | .eax => r.eax
  | .ecx => r.ecx
  | .edx => r.edx
  | .ebx => r.ebx
  | .esp => r.esp
  | .ebp => r.ebp
  | .esi => r.esi
  | .edi => r.edi

/-- Write a register. -/
def Regs.set (r : Regs) (x : Reg) (v : ℕ) : Regs :=
  match x with
  | .eax => { r with eax := v }
  | .ecx => { r with ecx := v }
  | .edx => { r with edx := v }
  | .ebx => { r with ebx := v }
  | .esp => { r with esp := v }
  | .ebp => { r with ebp := v }
  | .esi => { r with esi := v }
  | .edi => { r with edi := v }

/-- The processor and its memory. -/
structure Cpu where
  /-- The general registers. -/
  regs : Regs
  /-- The address of the next instruction. -/
  eip : ℕ
  /-- The flags, among them the interrupt flag. -/
  eflags : ℕ
  /-- The code segment selector, whose low bits are the privilege level. -/
  cs : ℕ
  /-- The stack segment selector. -/
  ss : ℕ
  /-- The page directory in use. -/
  cr3 : ℕ
  /-- Memory as the processor sees it. -/
  mem : Mem

/-- Instructions. Memory operands are a base register with an 8-bit displacement; jumps are short,
relative to the next instruction. -/
inductive Instr
  | push (src : Reg)
  | pop (dst : Reg)
  | load (dst base : Reg) (disp : ℕ)
  | store (base : Reg) (disp : ℕ) (src : Reg)
  | movFromCr3 (dst : Reg)
  | movToCr3 (src : Reg)
  | cmp (a b : Reg)
  | je (rel : ℤ)
  | jmp (rel : ℤ)
  | call (target : Reg)
  | ret
  | iret
  | sti
  | cli
  | hlt
deriving DecidableEq, Repr

/-- The size of the encoding. An operand based on `esp` needs one more byte. -/
def Instr.size : Instr → ℕ
  | .push _ | .pop _ | .ret | .iret | .sti | .cli | .hlt => 1
  | .load _ base _ | .store base _ _ => if base = .esp then 4 else 3
  | .movFromCr3 _ | .movToCr3 _ => 3
  | .cmp _ _ | .je _ | .jmp _ | .call _ => 2

/-! ## Execution -/

/-- The flags CF, PF, AF, ZF, SF and OF of the subtraction `a - b`. -/
def subFlags (a b : ℕ) : ℕ :=
  (if a < b then 0x1 else 0) |||
  (if ((List.range 8).countP fun i => (sub32 a b).testBit i) % 2 = 0 then 0x4 else 0) |||
  (if a % 16 < b % 16 then 0x10 else 0) |||
  (if a = b then 0x40 else 0) |||
  (if (sub32 a b).testBit 31 then 0x80 else 0) |||
  (if toInt32 (sub32 a b) = toInt32 a - toInt32 b then 0 else 0x800)

/-- The flags register after a comparison. -/
def cmpFlags (eflags a b : ℕ) : ℕ := (eflags &&& 0xFFFFF72A) ||| subFlags a b

/-- The target of a relative jump. -/
def jumpTarget (next : ℕ) (rel : ℤ) : ℕ := ((next + rel) % 2 ^ 32).toNat

/-- Push a word. -/
def Cpu.push (c : Cpu) (v : ℕ) : Cpu :=
  { c with
    regs := c.regs.set .esp (sub32 c.regs.esp 4)
    mem := c.mem.store32 (sub32 c.regs.esp 4) v }

/-- A return from an interrupt, to the same ring or to an outer one. -/
def Cpu.iret (c : Cpu) : Option Cpu :=
  let esp := c.regs.esp
  let cs := c.mem.load32 (add32 esp 4) % 65536
  let c' := { c with eip := c.mem.load32 esp, cs := cs, eflags := c.mem.load32 (add32 esp 8) }
  -- A return cannot go to an inner ring.
  if cs % 4 < c.cs % 4 then none
  else if cs % 4 = c.cs % 4 then some { c' with regs := c.regs.set .esp (add32 esp 12) }
  else
    some { c' with
      regs := c.regs.set .esp (c.mem.load32 (add32 esp 12))
      ss := c.mem.load32 (add32 esp 16) % 65536 }

/-- Execute the instruction at `eip`. -/
def exec (i : Instr) (c : Cpu) : Option Cpu :=
  let next := add32 c.eip i.size
  let ring0 := c.cs % 4 = 0
  match i with
  | .push src => some { c.push (c.regs.get src) with eip := next }
  | .pop dst =>
    -- `esp` first: `pop esp` leaves the word that was popped in it.
    some { c with
      regs := (c.regs.set .esp (add32 c.regs.esp 4)).set dst (c.mem.load32 c.regs.esp)
      eip := next }
  | .load dst base disp =>
    some { c with
      regs := c.regs.set dst (c.mem.load32 (add32 (c.regs.get base) disp))
      eip := next }
  | .store base disp src =>
    some { c with
      mem := c.mem.store32 (add32 (c.regs.get base) disp) (c.regs.get src)
      eip := next }
  | .movFromCr3 dst =>
    if ring0 then some { c with regs := c.regs.set dst c.cr3, eip := next } else none
  | .movToCr3 src =>
    if ring0 then some { c with cr3 := c.regs.get src, eip := next } else none
  | .cmp a b =>
    some { c with eflags := cmpFlags c.eflags (c.regs.get a) (c.regs.get b), eip := next }
  | .je rel =>
    -- The zero flag.
    some { c with eip := if c.eflags.testBit 6 then jumpTarget next rel else next }
  | .jmp rel => some { c with eip := jumpTarget next rel }
  | .call target => some { c.push next with eip := c.regs.get target }
  | .ret =>
    some { c with
      regs := c.regs.set .esp (add32 c.regs.esp 4)
      eip := c.mem.load32 c.regs.esp }
  | .iret => c.iret
  -- The interrupt flag is bit 9. Without the privilege there is a fault.
  | .sti => if ring0 then some { c with eflags := c.eflags ||| 0x200, eip := next } else none
  | .cli =>
    if ring0 then some { c with eflags := c.eflags &&& 0xFFFFFDFF, eip := next } else none
  | .hlt => none

/-- The instruction at each address. -/
abbrev Text := ℕ → Option Instr

/-- One step. -/
def step (text : Text) (c : Cpu) : Option Cpu := (text c.eip).bind fun i => exec i c

/-- `n` steps. -/
def steps (text : Text) : ℕ → Cpu → Option Cpu
  | 0, c => some c
  | n + 1, c => (step text c).bind (steps text n)

/-- Execute up to and including the first `ret`, in at most `n` steps. -/
def untilRet (text : Text) : ℕ → Cpu → Option Cpu
  | 0, _ => none
  | n + 1, c =>
    (text c.eip).bind fun i => (exec i c).bind fun c' =>
      if i = .ret then some c' else untilRet text n c'

/-- Comparing sets the zero flag exactly if the operands are equal. -/
theorem zeroFlag_cmpFlags (eflags a b : ℕ) :
    (cmpFlags eflags a b).testBit 6 = decide (a = b) := by
  -- No other flag stands at bit 6.
  have hbit : ∀ (p : Prop) [Decidable p] (x : ℕ), x.testBit 6 = false →
      (if p then x else 0).testBit 6 = false := fun p _ x hx => by
    split
    · exact hx
    · rfl
  have hover : (if toInt32 (sub32 a b) = toInt32 a - toInt32 b then 0 else 0x800).testBit 6 =
      false := by
    split <;> rfl
  have hmask : (0xFFFFF72A).testBit 6 = false := by decide
  simp only [cmpFlags, subFlags, Nat.testBit_or, Nat.testBit_and, hmask, hbit _ 0x1 rfl,
    hbit _ 0x4 rfl, hbit _ 0x10 rfl, hbit _ 0x80 rfl, hover, Bool.and_false, Bool.false_or,
    Bool.or_false]
  split
  next h => simp [h]; decide
  next h => simp [h]

/-! ## Blocks of straight-line code -/

/-- The instructions stand at `a` and the addresses after it. -/
def CodeAt (text : Text) : ℕ → List Instr → Prop
  | _, [] => True
  | a, i :: is => text a = some i ∧ CodeAt text (a + i.size) is

/-- The size of a block of code. -/
def codeSize (is : List Instr) : ℕ := (is.map Instr.size).sum

/-- An instruction after which the next one is executed. -/
def Instr.straight : Instr → Bool
  | .je _ | .jmp _ | .call _ | .ret | .iret | .hlt => false
  | _ => true

/-- The effect of a block of straight-line code. -/
def execs : List Instr → Cpu → Option Cpu
  | [], c => some c
  | i :: is, c => (exec i c).bind (execs is)

variable {text : Text} {a n : ℕ} {i : Instr} {is js : List Instr} {c c' : Cpu}

/-- Running two sequences of instructions one after the other. -/
theorem execs_append : execs (is ++ js) c = (execs is c).bind (execs js) := by
  induction is generalizing c with
  | nil => rfl
  | cons i is ih =>
    rw [List.cons_append, execs, execs, Option.bind_assoc]
    exact congrArg _ (funext fun _ => ih)

theorem Regs.get_set_of_ne (r : Regs) {x y : Reg} (v : ℕ) (h : y ≠ x) :
    (r.set x v).get y = r.get y := by
  cases x <;> cases y <;> first | rfl | exact absurd rfl h

theorem Regs.set_set (r : Regs) (x : Reg) (v w : ℕ) : (r.set x v).set x w = r.set x w := by
  cases x <;> rfl

/-- A push moves the stack pointer only. -/
theorem Cpu.regs_push (c : Cpu) (v : ℕ) :
    (c.push v).regs = c.regs.set .esp (sub32 c.regs.esp 4) := by
  rw [Cpu.push]

/-- A push stores its operand below the old stack pointer. -/
theorem Cpu.mem_push (c : Cpu) (v : ℕ) :
    (c.push v).mem = c.mem.store32 (sub32 c.regs.esp 4) v := by
  rw [Cpu.push]

/-- A push leaves the control registers alone. -/
theorem Cpu.control_push (c : Cpu) (v : ℕ) :
    (c.push v).cs = c.cs ∧ (c.push v).ss = c.ss ∧ (c.push v).cr3 = c.cr3 := by
  rw [Cpu.push]
  exact ⟨rfl, rfl, rfl⟩

/-- A block of pushes writes the registers to the stack, the first one first. -/
theorem execs_push (rs : List Reg) (hrs : Reg.esp ∉ rs) (c : Cpu) :
    ∃ c', execs (rs.map .push) c = some c' ∧
      c'.regs = c.regs.set .esp (c.mem.pushWords c.regs.esp (rs.map c.regs.get)).2 ∧
      c'.mem = (c.mem.pushWords c.regs.esp (rs.map c.regs.get)).1 ∧
      c'.cs = c.cs ∧ c'.ss = c.ss ∧ c'.cr3 = c.cr3 := by
  induction rs generalizing c with
  | nil => exact ⟨c, rfl, rfl, rfl, rfl, rfl, rfl⟩
  | cons r rs ih =>
    obtain ⟨-, hrs⟩ := not_or.mp (mt List.mem_cons.mpr hrs)
    have hexec : exec (.push r) c = some { c.push (c.regs.get r) with eip := add32 c.eip 1 } := rfl
    obtain ⟨hcs, hss, hcr3⟩ := c.control_push (c.regs.get r)
    obtain ⟨c', h, hregs, hmem, hcs', hss', hcr3'⟩ :=
      ih hrs { c.push (c.regs.get r) with eip := add32 c.eip 1 }
    dsimp only at hregs hmem hcs' hss' hcr3'
    -- The push changed `esp` alone, so that the other registers are still to be pushed.
    have hget : rs.map (c.push (c.regs.get r)).regs.get = rs.map c.regs.get :=
      List.map_congr_left fun x hx => by
        rw [Cpu.regs_push, Regs.get_set_of_ne _ _ fun hesp : x = .esp => hrs (hesp ▸ hx)]
    have hesp : (c.push (c.regs.get r)).regs.esp = sub32 c.regs.esp 4 := by
      rw [Cpu.regs_push, Regs.set]
    refine ⟨c', ?_, ?_, ?_, hcs'.trans hcs, hss'.trans hss, hcr3'.trans hcr3⟩
    · rw [List.map_cons, execs, hexec, Option.bind_some, h]
    · rw [hregs, hget, hesp, Cpu.mem_push, Cpu.regs_push, Regs.set_set, List.map_cons,
        Mem.pushWords]
    · rw [hmem, hget, hesp, Cpu.mem_push, List.map_cons, Mem.pushWords]

/-- Code of two parts is the first part with the second behind it. -/
theorem codeAt_append :
    CodeAt text a (is ++ js) ↔ CodeAt text a is ∧ CodeAt text (a + codeSize is) js := by
  induction is generalizing a with
  | nil => simp [CodeAt, codeSize]
  | cons i is ih => simp [CodeAt, codeSize, ih, and_assoc, Nat.add_assoc]

/-- Code does not depend on what stands in front of it. -/
theorem CodeAt.congr {text' : Text} (h : CodeAt text a is) (heq : ∀ x, a ≤ x → text' x = text x) :
    CodeAt text' a is := by
  induction is generalizing a with
  | nil => exact trivial
  | cons i is ih =>
    exact ⟨(heq a le_rfl).trans h.1, ih h.2 fun x hx => heq x (Nat.le_of_add_right_le hx)⟩

/-- Place code at an address. -/
def assemble (a : ℕ) : List Instr → Text
  | [], _ => none
  | i :: is, x => if x = a then some i else assemble (a + i.size) is x

/-- The assembler puts instructions where they belong. -/
theorem codeAt_assemble (a : ℕ) (is : List Instr) : CodeAt (assemble a is) a is := by
  induction is generalizing a with
  | nil => exact trivial
  | cons i is ih =>
    have hsize : 0 < i.size := by
      cases i <;> simp only [Instr.size] <;> first | decide | split <;> decide
    refine ⟨if_pos rfl, (ih (a + i.size)).congr fun x hx => if_neg ?_⟩
    omega

/-- An instruction that does not jump leads to the next one. -/
theorem eip_exec (hi : i.straight = true) (h : exec i c = some c') :
    c'.eip = add32 c.eip i.size := by
  cases i <;> simp only [Instr.straight, Bool.false_eq_true] at hi <;>
    simp only [exec, Option.ite_none_right_eq_some, Option.some.injEq] at h
  all_goals first | exact h ▸ rfl | exact h.2 ▸ rfl

theorem step_call {r : Reg} (hfetch : text c.eip = some (.call r)) :
    ∃ c', step text c = some c' ∧ c'.eip = c.regs.get r :=
  ⟨_, by rw [step, hfetch, Option.bind_some, exec], rfl⟩

/-- An `iret` to an outer ring takes five words from the stack. -/
theorem iret_outer {eip cs eflags esp ss : ℕ}
    (hwords : c.mem.WordsAt c.regs.esp [eip, cs, eflags, esp, ss])
    (hesp : c.regs.esp + 20 < 2 ^ 32) (hring : c.cs % 4 < cs % 65536 % 4) :
    ∃ c', c.iret = some c' ∧ c'.eip = eip ∧ c'.cs = cs % 65536 ∧ c'.eflags = eflags ∧
      c'.regs.esp = esp ∧ c'.ss = ss % 65536 := by
  obtain ⟨heip, hcs, heflags, hesp', hss, -⟩ := hwords
  have h4 : add32 c.regs.esp 4 = c.regs.esp + 4 := add32_eq (by omega)
  have h8 : add32 c.regs.esp 8 = c.regs.esp + 8 := add32_eq (by omega)
  have h12 : add32 c.regs.esp 12 = c.regs.esp + 12 := add32_eq (by omega)
  have h16 : add32 c.regs.esp 16 = c.regs.esp + 16 := add32_eq (by omega)
  rw [Cpu.iret]
  simp only [h4, h8, h12, h16, hcs, if_neg (Nat.not_lt.mpr (Nat.le_of_lt hring)),
    if_neg (Nat.ne_of_gt hring)]
  exact ⟨_, rfl, heip, rfl, heflags, hesp', by rw [hss]⟩

theorem untilRet_cons (hfetch : text c.eip = some i) (hi : i ≠ .ret) (h : exec i c = some c') :
    untilRet text (n + 1) c = untilRet text n c' := by
  rw [untilRet, hfetch, Option.bind_some, h, Option.bind_some, if_neg hi]

theorem untilRet_ret (hfetch : text c.eip = some .ret) :
    untilRet text (n + 1) c = exec .ret c := by
  rw [untilRet, hfetch]
  rfl

/-- A block that ends in the middle of the code is executed as a whole. -/
theorem untilRet_block (hcode : CodeAt text c.eip is) (hs : ∀ i ∈ is, i.straight = true)
    (hlt : c.eip + codeSize is < 2 ^ 32) (h : execs is c = some c') :
    untilRet text (is.length + n) c = untilRet text n c' ∧ c'.eip = c.eip + codeSize is := by
  induction is generalizing c with
  | nil =>
    obtain rfl : c = c' := Option.some.inj h
    simp [codeSize]
  | cons i is ih =>
    obtain ⟨c₁, hexec, hrest⟩ := Option.bind_eq_some_iff.mp h
    have hi := hs i (by simp)
    have hsize : codeSize (i :: is) = i.size + codeSize is := by simp [codeSize]
    have heip : c₁.eip = c.eip + i.size := (eip_exec hi hexec).trans (add32_eq (by omega))
    -- A straight instruction leads to the next one, at which the rest of the block stands.
    obtain ⟨hrun, hend⟩ := ih (c := c₁) (heip ▸ hcode.2) (fun j hj => hs j (by simp [hj]))
      (by omega) hrest
    have hne : i ≠ .ret := fun h => by simp [h, Instr.straight] at hi
    refine ⟨?_, by omega⟩
    rw [List.length_cons, Nat.add_right_comm, untilRet_cons hcode.1 hne hexec, hrun]

end SysLib.X86
