import Lightstreak.Lib.Run
import Lightstreak.Proc.ContextSwitch

/-!
# Context switches lose no process state

A machine runs one process at a time. Next to the processor, `SwitchMachine` keeps the processes by
the addresses of their PCBs, each with its stack and with how it is to continue when it is switched
in (`Saved`): a process that called `context_switch` with the registers of that call, a new one at
the start of its code.

Between switches the running process changes registers and memory as it likes, except for the
stacks and PCBs of the other processes, and it may create processes in fresh memory.

* `SavedAt`: the saved frame in memory of a process that does not run;
* `SwitchMachine.Inv.switch`: a switch saves the old process and continues the new one;
* `contextSwitch_resumes_of_run`: so it is after every run.
-/

namespace Lightstreak

open SysLib SysLib.X86

/-- The state of a process in a call of `context_switch`: the return address, the callee-saved
registers, and the stack pointer before the call. -/
structure SwitchContext where
  /-- Where `context_switch` returns to. -/
  ret : ℕ
  /-- The register `ebx`, which a call keeps. -/
  ebx : ℕ
  /-- The register `esi`, which a call keeps. -/
  esi : ℕ
  /-- The register `edi`, which a call keeps. -/
  edi : ℕ
  /-- The register `ebp`, which a call keeps. -/
  ebp : ℕ
  /-- The stack pointer before the call. -/
  esp : ℕ

/-- How a process that does not run is to continue. -/
inductive Saved
  | suspended (ctx : SwitchContext)
  | newThread (entryFn dir : ℕ)
  | newUser (entryVaddr userEsp dir : ℕ)

/-- A process: its kernel stack, and how it is to continue. -/
structure Proc where
  /-- The first address of the kernel stack. -/
  stackLo : ℕ
  /-- The address behind the kernel stack. -/
  stackHi : ℕ
  /-- What is on the stack while the process waits. -/
  saved : Saved

/-- The addresses of the PCB `p` and of the stack. -/
def Proc.Owns (pr : Proc) (p x : ℕ) : Prop :=
  (p ≤ x ∧ x < p + processSize) ∨ (pr.stackLo ≤ x ∧ x < pr.stackHi)

/-- The processor and the processes. What the table says about the current one is out of date. -/
structure SwitchMachine where
  /-- The processor, with memory. -/
  cpu : Cpu
  /-- The PCB of the process that runs. -/
  current : ℕ
  /-- The processes, by the address of their PCB. -/
  procs : ℕ → Option Proc

/-- What happens on the machine. -/
inductive SwitchOp
  | create (p stack pid kernelDir entryFn : ℕ)
  | createUser (p stack pid entryVaddr userEsp dir : ℕ)
  | run (cpu : Cpu)
  | switch (nxt ret : ℕ)

/-- The registers that a call preserves hold words. -/
def CalleeSavesValid (c : Cpu) : Prop :=
  c.regs.ebx < 2 ^ 32 ∧ c.regs.esi < 2 ^ 32 ∧ c.regs.edi < 2 ^ 32 ∧ c.regs.ebp < 2 ^ 32

instance (c : Cpu) : Decidable (CalleeSavesValid c) := inferInstanceAs (Decidable (_ ∧ _))

/-- A PCB and a stack that are apart and in memory. -/
def Proc.Placed (pr : Proc) (p : ℕ) : Prop :=
  p + processSize ≤ 2 ^ 32 ∧ pr.stackHi < 2 ^ 32 ∧
    (p + processSize ≤ pr.stackLo ∨ pr.stackHi ≤ p)

instance (pr : Proc) (p : ℕ) : Decidable (pr.Placed p) := inferInstanceAs (Decidable (_ ∧ _))

namespace SwitchMachine

/-- No process owns any of the memory of the new one. -/
def Free (m : SwitchMachine) (p : ℕ) (pr : Proc) : Prop :=
  pr.Placed p ∧ ∀ q qr, m.procs q = some qr → ∀ x, qr.Owns q x → ¬pr.Owns p x

/-- A new PCB is none of those in use. -/
theorem Free.ne {m : SwitchMachine} {p q : ℕ} {pr qr : Proc} (hfree : m.Free p pr)
    (hq : m.procs q = some qr) : q ≠ p := by
  rintro rfl
  have hown : ∀ pr' : Proc, pr'.Owns q q := fun _ => .inl ⟨le_rfl, by simp [processSize]⟩
  exact hfree.2 q qr hq q (hown qr) (hown pr)

/-- What may happen. A call of `context_switch` has its two arguments on the stack of the running
process, and room for the frame below them. -/
def Legal (m : SwitchMachine) : SwitchOp → Prop
  | .create p stack _ kernelDir entryFn =>
    m.Free p ⟨stack, stack + kernelStackSize, .newThread entryFn kernelDir⟩ ∧
      kernelDir < 2 ^ 32 ∧ entryFn < 2 ^ 32
  | .createUser p stack _ entryVaddr userEsp dir =>
    m.Free p ⟨stack, stack + kernelStackSize, .newUser entryVaddr userEsp dir⟩ ∧
      dir < 2 ^ 32 ∧ entryVaddr < 2 ^ 32 ∧ userEsp < 2 ^ 32
  | .run cpu =>
    CalleeSavesValid cpu ∧ ∀ q qr, q ≠ m.current → m.procs q = some qr →
      ∀ x, qr.Owns q x → cpu.mem x = m.cpu.mem x
  | .switch nxt ret =>
    nxt ≠ m.current ∧ (m.procs nxt).isSome ∧ ret < 2 ^ 32 ∧ m.cpu.cs % 4 = 0 ∧
      m.cpu.mem.WordsAt m.cpu.regs.esp [m.current, nxt] ∧
      ∀ pr ∈ m.procs m.current,
        pr.stackLo + 20 ≤ m.cpu.regs.esp ∧ m.cpu.regs.esp + 8 ≤ pr.stackHi

/-- The context in which the running process calls `context_switch`. -/
def context (m : SwitchMachine) (ret : ℕ) : SwitchContext :=
  ⟨ret, m.cpu.regs.ebx, m.cpu.regs.esi, m.cpu.regs.edi, m.cpu.regs.ebp, m.cpu.regs.esp⟩

/-- Carry out one operation. A switch is the call of `context_switch` and its code up to the
`ret`. -/
def exec (k : KernelText) (m : SwitchMachine) : SwitchOp → Option SwitchMachine
  | .create p stack pid kernelDir entryFn =>
    some { m with
      cpu := { m.cpu with mem := processCreate k m.cpu.mem p stack pid kernelDir entryFn }
      procs := Function.update m.procs p
        (some ⟨stack, stack + kernelStackSize, .newThread entryFn kernelDir⟩) }
  | .createUser p stack pid entryVaddr userEsp dir =>
    some { m with
      cpu := { m.cpu with
        mem := processCreateUser k m.cpu.mem p stack pid entryVaddr userEsp dir }
      procs := Function.update m.procs p
        (some ⟨stack, stack + kernelStackSize, .newUser entryVaddr userEsp dir⟩) }
  -- Any code of the current process.
  | .run cpu => some { m with cpu := cpu }
  -- The call has pushed the return address, and the code runs to its `ret`.
  | .switch nxt ret =>
    (untilRet k.text 19 { m.cpu.push ret with eip := k.contextSwitch }).map fun cpu =>
      { cpu := cpu
        current := nxt
        procs := Function.update m.procs m.current
          ((m.procs m.current).map fun pr => { pr with saved := .suspended (m.context ret) }) }

end SwitchMachine

/-- One step of the machine. -/
def SwitchStep (k : KernelText) (m : SwitchMachine) (op : SwitchOp) (m' : SwitchMachine) : Prop :=
  m.Legal op ∧ m.exec k op = some m'

/-! ## Saved frames -/

/-- The words that `context_switch` pops for a process, and what is on the stack after them. -/
def Saved.frame (k : KernelText) : Saved → List ℕ
  | .suspended ctx => [ctx.ebx, ctx.esi, ctx.edi, ctx.ebp, ctx.ret]
  | .newThread entryFn _ => [0, 0, 0, 0, k.kthreadEntry, entryFn]
  | .newUser entryVaddr userEsp _ =>
    [0, 0, 0, 0, k.procIretTrampoline, entryVaddr, 0x1B, 0x202, userEsp, 0x23]

/-- The stack pointer above the frame, and for a new process the fields of its PCB. -/
def Saved.Fits (saved : Saved) (mem : Mem) (p top stackHi : ℕ) : Prop :=
  match saved with
  | .suspended ctx => top = ctx.esp
  | .newThread _ dir | .newUser _ _ dir =>
    top = stackHi ∧ mem.load32 (p + 8) = stackHi ∧ mem.load32 (p + 16) = dir

/-- In memory, the process is ready to be switched in. -/
structure SavedAt (k : KernelText) (mem : Mem) (p : ℕ) (pr : Proc) : Prop where
  /-- The saved stack pointer is not below the stack. -/
  lo : pr.stackLo ≤ mem.load32 (p + 4)
  /-- The saved words are inside the stack. -/
  hi : mem.load32 (p + 4) + 4 * (pr.saved.frame k).length ≤ pr.stackHi
  /-- The words at the saved stack pointer are those to be restored. -/
  words : mem.WordsAt (mem.load32 (p + 4)) (pr.saved.frame k)
  /-- What is saved agrees with the PCB and the place on the stack. -/
  fits : pr.saved.Fits mem p (mem.load32 (p + 4) + 4 * (pr.saved.frame k).length) pr.stackHi

variable {k : KernelText} {mem mem' : Mem} {m m' : SwitchMachine} {p x : ℕ} {pr : Proc}

/-- A saved process depends only on the memory that it owns. -/
theorem SavedAt.congr (h : SavedAt k mem p pr) (heq : ∀ x, pr.Owns p x → mem' x = mem x) :
    SavedAt k mem' p pr := by
  have hpcb : ∀ off, off + 4 ≤ processSize → mem'.load32 (p + off) = mem.load32 (p + off) :=
    fun off hoff => Mem.load32_congr fun x h₁ h₂ => heq x (.inl ⟨by omega, by omega⟩)
  have h4 := hpcb 4 (by decide)
  refine ⟨h4 ▸ h.lo, h4 ▸ h.hi, ?_, ?_⟩
  · rw [h4]
    exact h.words.congr fun x h₁ h₂ =>
      heq x (.inr ⟨Nat.le_trans h.lo h₁, Nat.lt_of_lt_of_le h₂ h.hi⟩)
  · rw [h4]
    have hfits := h.fits
    unfold Saved.Fits at hfits ⊢
    rw [hpcb 8 (by decide), hpcb 16 (by decide)]
    exact hfits

/-- A new process is ready to be switched in. -/
theorem savedAt_buildProcess {stack dir : ℕ} {saved : Saved} (mem : Mem) (pid : ℕ)
    (frame : List ℕ) (hplaced : Proc.Placed ⟨stack, stack + kernelStackSize, saved⟩ p)
    (hdir : dir < 2 ^ 32)
    (hframe : ∀ w ∈ frame, w < 2 ^ 32) (hlen : 4 * frame.length ≤ kernelStackSize)
    (hrev : frame.reverse = saved.frame k)
    (hfits : ∀ mem : Mem, mem.load32 (p + 8) = stack + kernelStackSize →
      mem.load32 (p + 16) = dir →
      saved.Fits mem p (stack + kernelStackSize) (stack + kernelStackSize)) :
    SavedAt k (buildProcess mem p stack pid dir frame) p
        ⟨stack, stack + kernelStackSize, saved⟩ ∧
      ∀ x, ¬Proc.Owns ⟨stack, stack + kernelStackSize, saved⟩ p x →
        buildProcess mem p stack pid dir frame x = mem x := by
  obtain ⟨-, hhi, hdisj⟩ := hplaced
  dsimp only at hhi hdisj
  -- The words lie in memory in the order in which they are popped, the reverse of the pushes.
  obtain ⟨hesp, htop, hpage, hwords, hout⟩ :=
    buildProcess_spec mem p stack pid dir frame hdisj hhi hdir hframe hlen
  have hlength : (saved.frame k).length = frame.length := by rw [← hrev, List.length_reverse]
  refine ⟨⟨?_, ?_, ?_, ?_⟩, fun x hx => ?_⟩
  · rw [hesp]
    dsimp only
    omega
  · rw [hesp, hlength]
    dsimp only
    omega
  · rw [hesp, ← hrev]
    exact hwords
  · rw [hesp, hlength, Nat.sub_add_cancel (by omega)]
    exact hfits _ htop hpage
  · simp only [Proc.Owns, not_or] at hx
    exact hout x (by omega) (by omega)

/-! ## The invariant -/

/-- The processes are apart from each other, and all but the running one are ready to be switched
in. -/
structure SwitchMachine.Inv (k : KernelText) (m : SwitchMachine) : Prop where
  /-- The process that runs exists. -/
  current : ∃ pr, m.procs m.current = some pr
  /-- The registers that functions save hold words. -/
  valid : CalleeSavesValid m.cpu
  /-- Every process has its memory where it fits. -/
  placed : ∀ p pr, m.procs p = some pr → pr.Placed p
  /-- Processes have no memory in common. -/
  apart : ∀ p q pr qr, p ≠ q → m.procs p = some pr → m.procs q = some qr →
    ∀ x, pr.Owns p x → ¬qr.Owns q x
  /-- Every process that does not run is saved on its stack. -/
  saved : ∀ p pr, p ≠ m.current → m.procs p = some pr → SavedAt k m.cpu.mem p pr

/-- An entry of a table with one new entry is the new one or was there before. -/
theorem update_some_cases {procs : ℕ → Option Proc} {q : ℕ} {qr : Proc}
    (h : Function.update procs p (some pr) q = some qr) :
    (q = p ∧ qr = pr) ∨ (q ≠ p ∧ procs q = some qr) := by
  by_cases hq : q = p
  · rw [hq, Function.update_self, Option.some.injEq] at h
    exact .inl ⟨hq, h.symm⟩
  · rw [Function.update_of_ne hq] at h
    exact .inr ⟨hq, h⟩

/-- A new process keeps the invariant, if only its own memory is written. -/
theorem SwitchMachine.Inv.create (hinv : m.Inv k) (hfree : m.Free p pr)
    (hsaved : SavedAt k mem' p pr) (hout : ∀ x, ¬pr.Owns p x → mem' x = m.cpu.mem x) :
    SwitchMachine.Inv k { m with
      cpu := { m.cpu with mem := mem' }
      procs := Function.update m.procs p (some pr) } := by
  obtain ⟨cr, hcr⟩ := hinv.current
  have hcur := hfree.ne hcr
  obtain ⟨hplaced, hfree⟩ := hfree
  refine ⟨⟨cr, (Function.update_of_ne hcur _ _).trans hcr⟩, hinv.valid, fun q qr hq => ?_,
    fun q₁ q₂ qr₁ qr₂ hne h₁ h₂ x => ?_, fun q qr hqc hq => ?_⟩
  · rcases update_some_cases hq with ⟨rfl, rfl⟩ | ⟨-, hq⟩
    · exact hplaced
    · exact hinv.placed q qr hq
  · -- The new process may be the first of the two, or the second.
    rcases update_some_cases h₁ with ⟨rfl, rfl⟩ | ⟨-, hold₁⟩ <;>
      rcases update_some_cases h₂ with ⟨rfl, rfl⟩ | ⟨-, hold₂⟩
    · exact absurd rfl hne
    · exact fun hx hx' => hfree q₂ qr₂ hold₂ x hx' hx
    · exact hfree q₁ qr₁ hold₁ x
    · exact hinv.apart q₁ q₂ qr₁ qr₂ hne hold₁ hold₂ x
  · rcases update_some_cases hq with ⟨rfl, rfl⟩ | ⟨-, hq⟩
    · exact hsaved
    · exact (hinv.saved q qr hqc hq).congr fun x hx => hout x (hfree q qr hq x hx)

/-- What the current process does keeps the invariant. -/
theorem SwitchMachine.Inv.run (hinv : m.Inv k) {cpu : Cpu} (hlegal : m.Legal (.run cpu)) :
    SwitchMachine.Inv k { m with cpu := cpu } :=
  ⟨hinv.current, hlegal.1, hinv.placed, hinv.apart, fun q qr hqc hq =>
    (hinv.saved q qr hqc hq).congr (hlegal.2 q qr hqc hq)⟩

/-! ## The switch -/

section Switch

variable {c : Cpu} {cur nxt ret : ℕ}

/-- The words that a call of `context_switch` pushes, with its return address. -/
def pushedWords (c : Cpu) (ret : ℕ) : List ℕ :=
  [ret, c.regs.ebp, c.regs.edi, c.regs.esi, c.regs.ebx]

/-- The memory after `context_switch` has saved the process `cur`. -/
def savedMem (c : Cpu) (cur ret : ℕ) : Mem :=
  (c.mem.pushWords c.regs.esp (pushedWords c ret)).1.store32 (cur + 4) (c.regs.esp - 20)

/-- The call finds its arguments above what it pushed, and leaves the old process ready to be
switched in again. -/
theorem savedMem_spec (hargs : c.mem.WordsAt c.regs.esp [cur, nxt]) (hvalid : CalleeSavesValid c)
    (hret : ret < 2 ^ 32) (hplaced : pr.Placed cur) (hlo : pr.stackLo + 20 ≤ c.regs.esp)
    (hhi : c.regs.esp + 8 ≤ pr.stackHi) :
    (c.mem.pushWords c.regs.esp (pushedWords c ret)).2 = c.regs.esp - 20 ∧
      (c.mem.pushWords c.regs.esp (pushedWords c ret)).1.load32 c.regs.esp = cur ∧
      (savedMem c cur ret).load32 (c.regs.esp + 4) = nxt ∧
      SavedAt k (savedMem c cur ret) cur { pr with
        saved := .suspended ⟨ret, c.regs.ebx, c.regs.esi, c.regs.edi, c.regs.ebp, c.regs.esp⟩ } ∧
      ∀ x, ¬pr.Owns cur x → savedMem c cur ret x = c.mem x := by
  obtain ⟨hbound, hstack, hdisj⟩ := hplaced
  have hsize : processSize = 416 := rfl
  obtain ⟨hebx, hesi, hedi, hebp⟩ := hvalid
  have hpushed : ∀ w ∈ pushedWords c ret, w < 2 ^ 32 := by
    simp only [pushedWords, List.forall_mem_cons]
    exact ⟨hret, hebp, hedi, hesi, hebx, by simp⟩
  obtain ⟨hsp, hwords, hkeep⟩ := Mem.pushWords_spec hargs hpushed
    (show 20 ≤ c.regs.esp by omega) (by omega)
  rw [show 4 * (pushedWords c ret).length = 20 from rfl] at hsp hwords hkeep
  -- The frame lies in the stack and `esp` in the PCB, which are apart.
  have hframe : (savedMem c cur ret).WordsAt (c.regs.esp - 20)
      ((pushedWords c ret).reverse ++ [cur, nxt]) :=
    hwords.congr fun x h₁ h₂ => Mem.store32_apply_of_outside _ _ (by
      rw [show 4 * ((pushedWords c ret).reverse ++ [cur, nxt]).length = 28 from rfl] at h₂
      omega)
  have hesp : (savedMem c cur ret).load32 (cur + 4) = c.regs.esp - 20 :=
    Mem.load32_store32_of_lt _ _ (by omega)
  obtain ⟨e₀, e₄, e₈, e₁₂, e₁₆, -, e₂₄, -⟩ := hframe
  refine ⟨hsp, ?_, ?_, ⟨?_, ?_, ?_, ?_⟩, fun x hx => ?_⟩
  · obtain ⟨-, -, -, -, -, e₂₀, -⟩ := hwords
    rwa [show c.regs.esp - 20 + 4 + 4 + 4 + 4 + 4 = c.regs.esp by omega] at e₂₀
  · rwa [show c.regs.esp - 20 + 4 + 4 + 4 + 4 + 4 + 4 = c.regs.esp + 4 by omega] at e₂₄
  · rw [hesp]
    exact Nat.le_sub_of_add_le hlo
  · rw [hesp]
    show c.regs.esp - 20 + 20 ≤ pr.stackHi
    omega
  · rw [hesp]
    exact ⟨e₀, e₄, e₈, e₁₂, e₁₆, trivial⟩
  · rw [hesp]
    show c.regs.esp - 20 + 20 = c.regs.esp
    omega
  · simp only [Proc.Owns, not_or] at hx
    rw [savedMem, Mem.store32_apply_of_outside _ _ (by omega)]
    exact hkeep x (by omega)

/-- How a process that is switched in continues, with `c` the processor after the `ret` of
`context_switch`. -/
def Resumes (k : KernelText) (nxt : ℕ) (pr : Proc) (c : Cpu) : Prop :=
  c.cr3 = c.mem.load32 (nxt + 16) ∧
  match pr.saved with
  | .suspended ctx =>
    c.eip = ctx.ret ∧ c.regs.ebx = ctx.ebx ∧ c.regs.esi = ctx.esi ∧ c.regs.edi = ctx.edi ∧
      c.regs.ebp = ctx.ebp ∧ c.regs.esp = ctx.esp
  | .newThread entryFn dir =>
    -- It runs to the `call` of its function, which has an empty stack.
    c.cr3 = dir ∧ c.eip = k.kthreadEntry ∧ ∃ c', steps k.text 2 c = some c' ∧
      k.text c'.eip = some (.call .eax) ∧ c'.regs.eax = entryFn ∧
      c'.regs.esp = c.mem.load32 (nxt + 8) ∧ c'.regs.esp = pr.stackHi ∧
      ∃ c'', step k.text c' = some c'' ∧ c''.eip = entryFn
  | .newUser entryVaddr userEsp dir =>
    -- It executes `iret` to ring 3.
    c.cr3 = dir ∧ c.eip = k.procIretTrampoline ∧ k.text c.eip = some .iret ∧
      ∃ c', step k.text c = some c' ∧ c'.eip = entryVaddr ∧ c'.cs = 0x1B ∧ c'.eflags = 0x202 ∧
        c'.regs.esp = userEsp ∧ c'.ss = 0x23

/-- Popping a saved frame resumes its process. -/
theorem resumes_of_savedAt {e : ℕ} (hsaved : SavedAt k c.mem nxt pr) (hhi : pr.stackHi < 2 ^ 32)
    (he : c.mem.load32 (nxt + 4) = e) (hcs : c.cs % 4 = 0)
    (hcr3 : c.cr3 = c.mem.load32 (nxt + 16)) (heip : c.eip = c.mem.load32 (e + 16))
    (hesp : c.regs.esp = e + 20) (hebx : c.regs.ebx = c.mem.load32 e)
    (hesi : c.regs.esi = c.mem.load32 (e + 4)) (hedi : c.regs.edi = c.mem.load32 (e + 8))
    (hebp : c.regs.ebp = c.mem.load32 (e + 12)) : Resumes k nxt pr c := by
  obtain ⟨-, hfit, hwords, hfits⟩ := hsaved
  rw [he] at hfit hwords hfits
  refine ⟨hcr3, ?_⟩
  match hpr : pr.saved with
  | .suspended ctx =>
    -- The frame is the one that its own call of `context_switch` pushed.
    rw [hpr] at hwords hfits
    obtain ⟨h₀, h₄, h₈, h₁₂, h₁₆, -⟩ := hwords
    exact ⟨heip.trans h₁₆, hebx.trans h₀, hesi.trans h₄, hedi.trans h₈, hebp.trans h₁₂,
      hesp.trans hfits⟩
  | .newThread entryFn dir =>
    -- Above the return address stands the function, and above that the stack is empty.
    rw [hpr] at hfit hwords hfits
    obtain ⟨-, -, -, -, h₁₆, h₂₀, -⟩ := hwords
    obtain ⟨htop, hfield, hdir⟩ := hfits
    rw [show e + 4 * ((Saved.newThread entryFn dir).frame k).length = e + 24 from rfl] at hfit htop
    obtain ⟨c', hsteps, hcall, heax, hesp'⟩ :=
      kthreadEntry_spec (heip.trans h₁₆) hcs (by omega)
    rw [hesp] at heax hesp'
    have heax' : c'.regs.eax = entryFn := heax.trans h₂₀
    obtain ⟨c'', hstep, heip'⟩ := step_call hcall
    have htop' : c'.regs.esp = pr.stackHi := hesp'.trans htop
    exact ⟨hcr3.trans hdir, heip.trans h₁₆, c', hsteps, hcall, heax', htop'.trans hfield.symm,
      htop', c'', hstep, heip'.trans heax'⟩
  | .newUser entryVaddr userEsp dir =>
    -- Above the return address stand the five words of the `iret` frame.
    rw [hpr] at hfit hwords hfits
    obtain ⟨-, -, -, -, h₁₆, hiret⟩ := hwords
    obtain ⟨-, -, hdir⟩ := hfits
    rw [show e + 4 * ((Saved.newUser entryVaddr userEsp dir).frame k).length = e + 40 from rfl]
      at hfit
    have heip' := heip.trans h₁₆
    obtain ⟨c', hstep, heip₃, hcs₃, heflags, hesp₃, hss⟩ :=
      iret_outer (c := c) (by rw [hesp]; exact hiret) (by omega) (by rw [hcs]; decide)
    refine ⟨hcr3.trans hdir, heip', ?_, c', ?_, heip₃, hcs₃, heflags, hesp₃, hss⟩
    · rw [heip']
      exact k.procIretTrampoline_code.1
    · rw [procIretTrampoline_spec heip', hstep]

/-- The call pushes the return address first. -/
theorem pushWords_call (c : Cpu) (ret : ℕ) :
    (c.push ret).mem.pushWords (c.push ret).regs.esp
        [(c.push ret).regs.ebp, (c.push ret).regs.edi, (c.push ret).regs.esi,
          (c.push ret).regs.ebx] =
      c.mem.pushWords c.regs.esp (pushedWords c ret) := by
  simp only [Cpu.mem_push, Cpu.regs_push, Regs.set, pushedWords, Mem.pushWords]

/-- The invariant after a switch, from the memory that it leaves. -/
theorem SwitchMachine.Inv.of_saved (hinv : m.Inv k) {saved : Saved} {npr : Proc}
    (hpr : m.procs m.current = some pr) (hne : nxt ≠ m.current) (hnpr : m.procs nxt = some npr)
    (hvalid : CalleeSavesValid c) (hsaved : SavedAt k c.mem m.current { pr with saved := saved })
    (hother : ∀ q qr, q ≠ m.current → m.procs q = some qr → SavedAt k c.mem q qr) :
    SwitchMachine.Inv k
      ⟨c, nxt, Function.update m.procs m.current (some { pr with saved := saved })⟩ := by
  refine ⟨⟨npr, (Function.update_of_ne hne _ _).trans hnpr⟩, hvalid, fun q qr hq => ?_,
    fun q₁ q₂ qr₁ qr₂ h₁₂ h₁ h₂ => ?_, fun q qr _ hq => ?_⟩
  -- The table keeps the places of all processes, so that only the last part is new.
  · rcases update_some_cases hq with ⟨rfl, rfl⟩ | ⟨-, hq⟩
    · exact hinv.placed _ pr hpr
    · exact hinv.placed q qr hq
  · rcases update_some_cases h₁ with ⟨rfl, rfl⟩ | ⟨-, h₁⟩ <;>
      rcases update_some_cases h₂ with ⟨rfl, rfl⟩ | ⟨-, h₂⟩
    · exact absurd rfl h₁₂
    · exact hinv.apart _ q₂ pr qr₂ h₁₂ hpr h₂
    · exact hinv.apart q₁ _ qr₁ pr h₁₂ h₁ hpr
    · exact hinv.apart q₁ q₂ qr₁ qr₂ h₁₂ h₁ h₂
  · rcases update_some_cases hq with ⟨rfl, rfl⟩ | ⟨hqc, hq⟩
    · exact hsaved
    · exact hother q qr hqc hq

/-- A switch saves the running process and resumes the next one, and leaves all other processes
as they are. -/
theorem SwitchMachine.Inv.switch (hinv : m.Inv k) (hlegal : m.Legal (.switch nxt ret)) :
    ∃ m' npr, m.exec k (.switch nxt ret) = some m' ∧ m'.Inv k ∧ m.procs nxt = some npr ∧
      Resumes k nxt npr m'.cpu := by
  obtain ⟨hne, hsome, hret, hcs, hargs, hroom⟩ := hlegal
  obtain ⟨pr, hpr⟩ := hinv.current
  obtain ⟨npr, hnpr⟩ := Option.isSome_iff_exists.mp hsome
  obtain ⟨hlo, hhi⟩ := hroom pr hpr
  have hplaced := hinv.placed _ pr hpr
  obtain ⟨hnp, hnhi, -⟩ := hinv.placed _ npr hnpr
  obtain ⟨hp, -, -⟩ := id hplaced
  rw [processSize] at hnp hp
  obtain ⟨hsp, hcur, hnxt, hsaved, hout⟩ :=
    savedMem_spec (k := k) hargs hinv.valid hret hplaced hlo hhi
  -- Saving the running process writes to its own memory only, which no other process reads.
  have hother : ∀ q qr, q ≠ m.current → m.procs q = some qr →
      SavedAt k (savedMem m.cpu m.current ret) q qr := fun q qr hq hqr =>
    (hinv.saved q qr hq hqr).congr fun x hx => hout x (hinv.apart q _ qr pr hq hqr hpr x hx)
  have hnsaved := hother nxt npr hne hnpr
  have h4 : add32 m.current 4 = m.current + 4 := add32_eq (by omega)
  have h20 : add32 (m.cpu.regs.esp - 20) 20 = m.cpu.regs.esp :=
    (add32_eq (by have := hplaced.2.1; omega)).trans (by omega)
  have h24 : add32 (m.cpu.regs.esp - 20) 24 = m.cpu.regs.esp + 4 :=
    (add32_eq (by have := hplaced.2.1; omega)).trans (by omega)
  have hn4 : add32 nxt 4 = nxt + 4 := add32_eq (by omega)
  have hn16 : add32 nxt 16 = nxt + 16 := add32_eq (by omega)
  -- Every frame has at least the four registers and a return address.
  have hframe : 5 ≤ (npr.saved.frame k).length := by cases npr.saved <;> simp [Saved.frame]
  obtain ⟨c', hrun, hmem, heip, hesp, hebx, hesi, hedi, hebp, hcs', hcr3⟩ :=
    untilRet_contextSwitch (k := k) (c := { m.cpu.push ret with eip := k.contextSwitch })
      (m := (m.cpu.mem.pushWords m.cpu.regs.esp (pushedWords m.cpu ret)).1)
      (F := m.cpu.regs.esp - 20) (e := (savedMem m.cpu m.current ret).load32 (nxt + 4))
      m.current nxt rfl
      (by dsimp only; rw [(m.cpu.control_push ret).1, hcs])
      ((pushWords_call m.cpu ret).trans (Prod.ext rfl hsp)) (by rw [h20, hcur])
      (by rw [h4, h24]; exact hnxt) (by rw [h4, hn4]; rfl) (by have := hnsaved.hi; omega)
  rw [h4] at hmem
  change c'.mem = savedMem m.cpu m.current ret at hmem
  dsimp only at hcs'
  rw [hn16] at hcr3
  have hvalid : CalleeSavesValid c' := by
    rw [CalleeSavesValid, hebx, hesi, hedi, hebp]
    exact ⟨Mem.load32_lt _ _, Mem.load32_lt _ _, Mem.load32_lt _ _, Mem.load32_lt _ _⟩
  rw [← hmem] at hsaved hother hnsaved
  refine ⟨_, npr, ?_, hinv.of_saved hpr hne hnpr hvalid hsaved hother, hnpr,
    resumes_of_savedAt hnsaved hnhi (by rw [hmem]) ?_ hcr3 heip hesp hebx hesi hedi hebp⟩
  · rw [SwitchMachine.exec, hrun, hpr]
    rfl
  · rw [hcs', (m.cpu.control_push ret).1, hcs]

end Switch

/-! ## Runs -/

/-- The process that an operation leaves waiting, and how it is to continue: a new process, or the
one that calls `context_switch`. -/
def SwitchOp.parks (m : SwitchMachine) : SwitchOp → Option (ℕ × Saved)
  | .create p _ _ kernelDir entryFn => some (p, .newThread entryFn kernelDir)
  | .createUser p _ _ entryVaddr userEsp dir => some (p, .newUser entryVaddr userEsp dir)
  | .run _ => none
  | .switch _ ret => some (m.current, .suspended (m.context ret))

/-- The machine runs its first process, on a stack of its own. -/
def SwitchMachine.Boot (m : SwitchMachine) : Prop :=
  CalleeSavesValid m.cpu ∧ ∃ pr : Proc, pr.Placed m.current ∧
    m.procs = Function.update (fun _ => none) m.current (some pr)

/-- At boot the invariant holds. -/
theorem SwitchMachine.Boot.inv (hboot : m.Boot) : m.Inv k := by
  obtain ⟨hvalid, pr, hplaced, hprocs⟩ := hboot
  have hold : ∀ q qr, m.procs q = some qr → q = m.current ∧ qr = pr := fun q qr hq => by
    rw [hprocs] at hq
    rcases update_some_cases hq with hfirst | ⟨-, hq⟩
    · exact hfirst
    · cases hq
  refine ⟨⟨pr, by rw [hprocs, Function.update_self]⟩, hvalid, fun q qr hq => ?_,
    fun q₁ q₂ qr₁ qr₂ hne h₁ h₂ => ?_, fun q qr hqc hq => ?_⟩
  · obtain ⟨rfl, rfl⟩ := hold q qr hq
    exact hplaced
  · exact absurd ((hold q₁ qr₁ h₁).1.trans (hold q₂ qr₂ h₂).1.symm) hne
  · exact absurd (hold q qr hq).1 hqc

/-- Every step keeps the invariant. -/
theorem SwitchMachine.Inv.step {op : SwitchOp} (hinv : m.Inv k) (hstep : SwitchStep k m op m') :
    m'.Inv k := by
  obtain ⟨hlegal, hexec⟩ := hstep
  cases op with
  | create p stack pid kernelDir entryFn =>
    obtain rfl := Option.some.inj hexec
    obtain ⟨hfree, hdir, hentry⟩ := hlegal
    have hk := k.kthreadEntry_lt
    -- The six words that `process_create` pushes are those that `context_switch` pops.
    obtain ⟨hsaved, hout⟩ := savedAt_buildProcess (k := k) m.cpu.mem pid
      [entryFn, k.kthreadEntry, 0, 0, 0, 0] hfree.1 hdir
      (by simp only [List.forall_mem_cons]; simp; omega) (show 24 ≤ 8192 by decide) rfl
      fun _ htop hpage => ⟨rfl, htop, hpage⟩
    exact hinv.create hfree hsaved hout
  | createUser p stack pid entryVaddr userEsp dir =>
    obtain rfl := Option.some.inj hexec
    obtain ⟨hfree, hdir, hentry, hesp⟩ := hlegal
    have hk := k.procIretTrampoline_lt
    obtain ⟨hsaved, hout⟩ := savedAt_buildProcess (k := k) m.cpu.mem pid
      [0x23, userEsp, 0x202, 0x1B, entryVaddr, k.procIretTrampoline, 0, 0, 0, 0]
      hfree.1 hdir (by simp only [List.forall_mem_cons]; simp; omega) (show 40 ≤ 8192 by decide) rfl
      fun _ htop hpage => ⟨rfl, htop, hpage⟩
    exact hinv.create hfree hsaved hout
  | run cpu =>
    obtain rfl := Option.some.inj hexec
    exact hinv.run hlegal
  | switch nxt ret =>
    obtain ⟨m'', -, hexec', hinv', -⟩ := hinv.switch hlegal
    obtain rfl : m' = m'' := Option.some.inj (hexec.symm.trans hexec')
    exact hinv'

/-- The machine has the process waiting, to continue as `saved` says. -/
def SwitchMachine.Waits (m : SwitchMachine) (p : ℕ) (saved : Saved) : Prop :=
  p ≠ m.current ∧ ∃ pr, m.procs p = some pr ∧ pr.saved = saved

variable {op : SwitchOp} {saved : Saved}

/-- A process that is left waits with what was saved. -/
theorem SwitchMachine.Inv.waits_of_parks (hinv : m.Inv k) (hstep : SwitchStep k m op m')
    (hpark : op.parks m = some (p, saved)) : m'.Waits p saved := by
  obtain ⟨hlegal, hexec⟩ := hstep
  obtain ⟨pr, hpr⟩ := hinv.current
  cases op with
  | create q stack pid kernelDir entryFn =>
    obtain ⟨rfl, rfl⟩ := Prod.mk.inj (Option.some.inj hpark)
    obtain rfl := Option.some.inj hexec
    exact ⟨(hlegal.1.ne hpr).symm, _, Function.update_self _ _ _, rfl⟩
  | createUser q stack pid entryVaddr userEsp dir =>
    obtain ⟨rfl, rfl⟩ := Prod.mk.inj (Option.some.inj hpark)
    obtain rfl := Option.some.inj hexec
    exact ⟨(hlegal.1.ne hpr).symm, _, Function.update_self _ _ _, rfl⟩
  | run cpu => cases hpark
  | switch nxt ret =>
    obtain ⟨rfl, rfl⟩ := Prod.mk.inj (Option.some.inj hpark)
    obtain ⟨c', -, rfl⟩ := Option.map_eq_some_iff.mp hexec
    refine ⟨Ne.symm hlegal.1, { pr with saved := .suspended (m.context ret) }, ?_, rfl⟩
    exact (Function.update_self _ _ _).trans (by rw [hpr]; rfl)

/-- A process waits until it is switched in. -/
theorem SwitchMachine.Waits.step (hwaits : m.Waits p saved) (hstep : SwitchStep k m op m')
    (hop : ∀ ret, op ≠ .switch p ret) : m'.Waits p saved := by
  obtain ⟨hlegal, hexec⟩ := hstep
  obtain ⟨hne, pr, hpr, hsaved⟩ := hwaits
  cases op with
  | create q stack pid kernelDir entryFn =>
    obtain rfl := Option.some.inj hexec
    exact ⟨hne, pr, (Function.update_of_ne (hlegal.1.ne hpr) _ _).trans hpr, hsaved⟩
  | createUser q stack pid entryVaddr userEsp dir =>
    obtain rfl := Option.some.inj hexec
    exact ⟨hne, pr, (Function.update_of_ne (hlegal.1.ne hpr) _ _).trans hpr, hsaved⟩
  | run cpu =>
    obtain rfl := Option.some.inj hexec
    exact ⟨hne, pr, hpr, hsaved⟩
  | switch nxt ret =>
    obtain ⟨c', -, rfl⟩ := Option.map_eq_some_iff.mp hexec
    -- Only the process that is switched out gets a new context.
    refine ⟨fun heq => hop ret (by rw [heq]), pr, ?_, hsaved⟩
    exact (Function.update_of_ne hne _ _).trans hpr

/-- Whatever other processes do in the meantime, a process that an operation of the run left
waiting continues exactly as that operation left it: after its call of `context_switch` with its
registers, in `kthread_entry` with a call of its function, or with an `iret` to its user code. -/
theorem contextSwitch_resumes_of_run {m₀ m₁ m₂ m₃ : SwitchMachine} {ops ops' : List SwitchOp}
    {ret : ℕ} (hboot : m₀.Boot) (hrun : Run (SwitchStep k) m₀ ops m₁)
    (hstep : SwitchStep k m₁ op m₂) (hpark : op.parks m₁ = some (p, saved))
    (hrun' : Run (SwitchStep k) m₂ ops' m₃) (hops' : ∀ r, SwitchOp.switch p r ∉ ops')
    (hlegal : m₃.Legal (.switch p ret)) :
    ∃ m₄ pr, m₃.exec k (.switch p ret) = some m₄ ∧ m₃.procs p = some pr ∧ pr.saved = saved ∧
      Resumes k p pr m₄.cpu := by
  have hinv₁ : m₁.Inv k := hrun.invariant (fun _ m => m.Inv k) hboot.inv
    fun _ _ _ _ hinv hs => hinv.step hs
  -- After the operation that parks it, the process waits as long as it is not switched in.
  have hlater := hrun'.invariant
    (fun ops m => m.Inv k ∧ ((∀ r, SwitchOp.switch p r ∉ ops) → m.Waits p saved))
    ⟨hinv₁.step hstep, fun _ => hinv₁.waits_of_parks hstep hpark⟩ ?_
  · obtain ⟨hinv₃, hwaits⟩ := hlater
    obtain ⟨-, pr, hpr, hsaved⟩ := hwaits hops'
    obtain ⟨m₄, npr, hexec, -, hnpr, hres⟩ := hinv₃.switch hlegal
    obtain rfl : pr = npr := Option.some.inj (hpr.symm.trans hnpr)
    exact ⟨m₄, pr, hexec, hpr, hsaved, hres⟩
  · rintro as m a m' ⟨hinv, hwaits⟩ hs
    refine ⟨hinv.step hs, fun hnot => (hwaits fun r hr => hnot r (by simp [hr])).step hs ?_⟩
    rintro r rfl
    exact hnot r (by simp)

/-- A machine that runs its first process, which is about to call `context_switch`. -/
def bootMachine : SwitchMachine where
  cpu :=
    { regs := ⟨0, 0, 0, 0, 0x3000, 0, 0, 0⟩
      eip := 0x100200
      eflags := 2
      cs := 8
      ss := 16
      cr3 := 0
      mem := (Mem.store32 (fun _ => 0) 0x3000 0x1000).store32 0x3004 0x5000 }
  current := 0x1000
  procs := Function.update (fun _ => none) 0x1000
    (some ⟨0x2000, 0x4000, .suspended ⟨0, 0, 0, 0, 0, 0⟩⟩)

theorem bootMachine_legal_create :
    bootMachine.Legal (.create 0x5000 0x6000 1 0x9000 0x101000) := by
  refine ⟨⟨by decide, fun q qr hq x hx hx' => ?_⟩, by decide, by decide⟩
  have hq' : q = 0x1000 := by
    by_contra hne
    simp [bootMachine, hne] at hq
  subst hq'
  obtain rfl := Option.some.inj hq
  simp only [Proc.Owns, processSize, kernelStackSize] at hx hx'
  omega

/-- The arguments are still on the stack when the thread has been created. -/
theorem bootMachine_args (k : KernelText) :
    (processCreate k bootMachine.cpu.mem 0x5000 0x6000 1 0x9000 0x101000).WordsAt 0x3000
      [0x1000, 0x5000] := by
  have hargs : bootMachine.cpu.mem.WordsAt 0x3000 [0x1000, 0x5000] := by
    refine ⟨?_, Mem.load32_store32_of_lt _ _ (by decide), trivial⟩
    exact (Mem.load32_store32_of_disjoint _ _ (.inl (by decide))).trans
      (Mem.load32_store32_of_lt _ _ (by decide))
  have hk := k.kthreadEntry_lt
  obtain ⟨-, -, -, -, hout⟩ := buildProcess_spec bootMachine.cpu.mem 0x5000 0x6000 1 0x9000
    [0x101000, k.kthreadEntry, 0, 0, 0, 0] (.inl (by decide)) (by decide) (by decide)
    (by simp only [List.forall_mem_cons]; simp; omega) (show 24 ≤ 8192 by decide)
  refine hargs.congr fun x h₁ h₂ => hout x (.inl ?_) (.inl ?_) <;>
    simp only [List.length_cons, List.length_nil] at h₂ <;> omega

/-- The first process creates a thread and switches to it. -/
theorem contextSwitch_resumes_of_run_newThread :
    ∃ m₂ m₄ pr, bootMachine.exec (.ofBase 0x100000 (by decide))
        (.create 0x5000 0x6000 1 0x9000 0x101000) = some m₂ ∧
      m₂.exec (.ofBase 0x100000 (by decide)) (.switch 0x5000 0x100200) = some m₄ ∧
      pr.saved = .newThread 0x101000 0x9000 ∧
      Resumes (.ofBase 0x100000 (by decide)) 0x5000 pr m₄.cpu := by
  have hboot : bootMachine.Boot := ⟨by decide, _, by decide, rfl⟩
  obtain ⟨m₄, pr, hexec, -, hsaved, hres⟩ := contextSwitch_resumes_of_run
    (k := .ofBase 0x100000 (by decide)) hboot (Run.nil _)
    ⟨bootMachine_legal_create, rfl⟩ rfl (Run.nil _) (by simp)
    (show SwitchMachine.Legal _ (.switch 0x5000 0x100200) from
      ⟨by decide, rfl, by decide, by decide, bootMachine_args _, fun pr hpr => by
        obtain rfl := Option.some.inj hpr
        exact ⟨by decide, by decide⟩⟩)
  exact ⟨_, m₄, pr, rfl, hexec, hsaved, hres⟩

end Lightstreak
