import Mathlib.Data.List.Induction
import Lightstreak.Arch.Gdt
import Lightstreak.Lib.Pic

/-!
# Interrupt gates (`kernel/arch/idt.c`, `irq.c`)

`idt_init` fills the interrupt descriptor table with the stubs of `idt.asm`, and `irq_init` programs
the interrupt controllers. A gate splits the address of its stub; `IdtEntry.offset` puts it together
again as the processor does, and `InterruptState.deliver` is the processor's way through the table.

* `picRemap_underEdges`: the controllers after `pic_remap`, whatever comes between its writes;
* `exists_idtInit`: what `idt_init` leaves, from any state of the table and of the controllers;
* `int_enters_stub`: where an `int` instruction leads in each ring, for every vector;
* `deliver_interrupt`: each interrupt enters the stub that completes its frame.
-/

namespace Lightstreak

open SysLib SysLib.X86

/-! ## The code -/

/-- `idt_entry_t` -/
structure IdtEntry where
  /-- Bits 0 to 15 of the handler's address. -/
  offsetLow : UInt16
  /-- The code segment that the handler runs in. -/
  selector : UInt16
  /-- Always zero. -/
  zero : UInt8
  /-- Present bit, privilege level and gate type. -/
  typeAttr : UInt8
  /-- Bits 16 to 31 of the handler's address. -/
  offsetHigh : UInt16
deriving DecidableEq, Repr

/-- `idt_ptr_t` -/
structure IdtPtr where
  /-- The size of the table less one. -/
  limit : UInt16
  /-- The address of the table. -/
  base : UInt32
deriving DecidableEq, Repr

/-- The stubs of `idt.asm`: `isr0` to `isr31`, `isr128`, and `irq0` to `irq15`. -/
inductive Stub
  | isr (n : Fin 32)
  | isr128
  | irq (k : Fin 16)
deriving DecidableEq, Repr

/-- Where the linker has put the stubs. Each one has code of its own. -/
structure StubLayout where
  /-- The address of each stub. -/
  addr : Stub → UInt32
  /-- Different stubs have different addresses. -/
  injective : Function.Injective addr

/-- The state of `idt.c` and `irq.c` with the hardware that they set up: the table, the IDT register
and the interrupt flag of the processor, and the interrupt controllers. `irq_handlers` holds
functions of some type, or null. -/
structure InterruptState (H : Type) where
  /-- The table. -/
  idt : UInt8 → IdtEntry
  /-- What `lidt` has loaded. -/
  idtr : IdtPtr
  /-- The interrupt flag of the processor. -/
  intFlag : Bool
  /-- What drivers have registered, by line. -/
  irqHandlers : Fin 16 → Option H
  /-- The two interrupt controllers. -/
  pics : PicPair

variable {H : Type}

/-- `idt_set_gate(num, handler, sel, flags)` -/
def idtSetGate (idt : UInt8 → IdtEntry) (num : UInt8) (handler : UInt32) (sel : UInt16)
    (flags : UInt8) : UInt8 → IdtEntry :=
  Function.update idt num
    { offsetLow := (handler &&& 0xFFFF).toUInt16
      selector := sel
      zero := 0
      typeAttr := flags
      offsetHigh := ((handler >>> 16) &&& 0xFFFF).toUInt16 }

/-- `io_wait()`: a write to an unused port. -/
def ioWait : ℕ × UInt8 := (0x80, 0)

/-- `pic_remap()`: what it writes to the ports. -/
def picRemap : List (ℕ × UInt8) :=
  [(0x20, 0x11), ioWait, (0xA0, 0x11), ioWait,
    -- The vectors of the lines.
    (0x21, 0x20), ioWait, (0xA1, 0x28), ioWait,
    -- The wiring of the chips.
    (0x21, 0x04), ioWait, (0xA1, 0x02), ioWait,
    (0x21, 0x01), ioWait, (0xA1, 0x01), ioWait,
    -- The masks.
    (0x21, 0x00), (0xA1, 0x00)]

/-- The gates that `irq_init` sets: one for each line. -/
def irqGates (stubs : StubLayout) (idt : UInt8 → IdtEntry) : UInt8 → IdtEntry :=
  (List.finRange 16).foldl (fun idt (k : Fin 16) =>
    idtSetGate idt (UInt8.ofNat (32 + k)) (stubs.addr (.irq k)) 0x08 0x8E) idt

/-- `irq_init()`, which ends with `sti`. -/
def irqInit (stubs : StubLayout) (s : InterruptState H) : Option (InterruptState H) := do
  let s := { s with irqHandlers := fun _ => none }
  let pics ← picRemap.foldlM PicPair.outb s.pics
  let s := { s with pics := pics, idt := irqGates stubs s.idt }
  return { s with intFlag := true }

/-- The table with all its bytes zero. -/
def noGates : UInt8 → IdtEntry := fun _ => ⟨0, 0, 0, 0, 0⟩

/-- The gates of the exceptions, which `idt_init` sets first. -/
def isrGates (stubs : StubLayout) (idt : UInt8 → IdtEntry) : UInt8 → IdtEntry :=
  (List.finRange 32).foldl (fun idt (n : Fin 32) =>
    idtSetGate idt (UInt8.ofNat n) (stubs.addr (.isr n)) 0x08 0x8E) idt

/-- `idt_init()`, with the table at `idtAddr`. The IDT register is loaded last, by `idt_flush`, when
`irq_init` has already enabled interrupts. -/
def idtInit (stubs : StubLayout) (idtAddr : UInt32) (s : InterruptState H) :
    Option (InterruptState H) := do
  let idtr : IdtPtr := ⟨UInt16.ofNat (8 * 256 - 1), idtAddr⟩
  let idt := isrGates stubs noGates
  -- `int 0x80` is the only gate for ring 3.
  let idt := idtSetGate idt 0x80 (stubs.addr .isr128) 0x08 0xEE
  let s ← irqInit stubs { s with idt := idt }
  return { s with idtr := idtr }

/-- `irq_register(irq, handler)` -/
def irqRegister (s : InterruptState H) (irq : UInt8) (handler : H) : InterruptState H :=
  if h : irq.toNat < 16 then
    { s with irqHandlers := Function.update s.irqHandlers ⟨irq.toNat, h⟩ (some handler) }
  else s

/-! ## The processor's way through the table -/

/-- The address in a gate. -/
def IdtEntry.offset (e : IdtEntry) : ℕ := e.offsetLow.toNat + 2 ^ 16 * e.offsetHigh.toNat

/-- Where the processor goes: through an interrupt gate, to a fault with an error code, or through a
gate of another kind, none of which the kernel sets. -/
inductive Delivery
  | gate (selector : UInt16) (offset : ℕ)
  | fault (vector errorCode : ℕ)
  | other
deriving DecidableEq, Repr

/-- The delivery of a vector. An `int` instruction in the ring `cpl` is checked against the
privilege level of the gate; exceptions and the interrupt controllers, for which `cpl` is `none`,
are not. -/
def InterruptState.deliver (s : InterruptState H) (cpl : Option ℕ) (v : UInt8) : Delivery :=
  let e := s.idt v
  let errorCode := 8 * v.toNat + 2 + if cpl.isSome then 0 else 1
  -- The checks are made in the order of the processor.
  if s.idtr.limit.toNat < 8 * v.toNat + 7 then .fault 13 errorCode
  else if e.typeAttr.toNat % 32 ∉ [0x05, 0x06, 0x07, 0x0E, 0x0F] then .fault 13 errorCode
  else if ∃ c ∈ cpl, e.typeAttr.toNat / 32 % 4 < c then .fault 13 errorCode
  else if e.typeAttr.toNat < 128 then .fault 11 errorCode
  else if e.typeAttr.toNat % 32 = 0x0E then .gate e.selector e.offset
  else .other

/-! ## Filling the table -/

/-- A loop that writes one entry per turn, each one once: an entry that it writes, and one that it
does not. -/
theorem foldl_update_apply {ι κ β : Type} [DecidableEq κ] {f : ι → κ} (hf : Function.Injective f)
    (g : ι → β) (t : κ → β) (l : List ι) (k : κ) :
    (∀ i ∈ l, f i = k → l.foldl (fun t j => Function.update t (f j) (g j)) t k = g i) ∧
      ((∀ i ∈ l, f i ≠ k) → l.foldl (fun t j => Function.update t (f j) (g j)) t k = t k) := by
  induction l using List.reverseRecOn with
  | nil =>
    refine ⟨fun i hi => ?_, fun _ => rfl⟩
    cases hi
  | append_singleton l j ih =>
    rw [List.foldl_append, List.foldl_cons, List.foldl_nil, Function.update_apply]
    constructor
    · rintro i hi rfl
      -- The last turn writes the entry, or leaves what an earlier one has written.
      split_ifs with hij
      · rw [hf hij]
      · refine ih.1 i ((List.mem_append.mp hi).resolve_right fun hj => hij ?_) rfl
        rw [List.mem_singleton.mp hj]
    · intro hne
      rw [if_neg (hne j (by simp)).symm]
      exact ih.2 fun i hi => hne i (List.mem_append_left _ hi)

/-- The stub that a vector is to enter. -/
def stubOf (v : UInt8) : Option Stub :=
  if h : v.toNat < 32 then some (.isr ⟨v.toNat, h⟩)
  else if h : v.toNat - 32 < 16 then some (.irq ⟨v.toNat - 32, h⟩)
  else if v = 0x80 then some .isr128
  else none

/-- The attributes of the gate of a stub. -/
def Stub.attr : Stub → UInt8
  | .isr _ => 0x8E
  | .isr128 => 0xEE
  | .irq _ => 0x8E

/-- The gate that `idt_set_gate` writes. -/
def gateTo (handler : UInt32) (flags : UInt8) : IdtEntry :=
  idtSetGate noGates 0 handler 0x08 flags 0

/-- The offset of a gate is the address it was made from. -/
theorem offset_gateTo (handler : UInt32) (flags : UInt8) :
    (gateTo handler flags).offset = handler.toNat := by
  have hlt := handler.toNat_lt
  have hhigh : ((handler >>> 16) &&& 0xFFFF).toNat = handler.toNat / 2 ^ 16 % 2 ^ 16 :=
    toNat_shiftRight_and (by decide) (by decide)
  simp only [gateTo, idtSetGate, Function.update_self, IdtEntry.offset, UInt32.toNat_toUInt16,
    toNat_and_ffff, hhigh]
  omega

theorem toNat_vector {n : ℕ} (h : n < 256) : (UInt8.ofNat n).toNat = n := by
  rw [UInt8.toNat_ofNat']
  exact Nat.mod_eq_of_lt h

/-- The gates of consecutive vectors, from `base` on. -/
theorem gates_apply {m : ℕ} (base : ℕ) {f : Fin m → UInt8} (hf : ∀ i, (f i).toNat = base + i)
    (g : Fin m → IdtEntry) (idt : UInt8 → IdtEntry) (v : UInt8) :
    (List.finRange m).foldl (fun idt i => Function.update idt (f i) (g i)) idt v =
      if h : base ≤ v.toNat ∧ v.toNat - base < m then g ⟨v.toNat - base, h.2⟩ else idt v := by
  have hinj : Function.Injective f := by
    intro i j hij
    have htoNat := congrArg UInt8.toNat hij
    rw [hf, hf] at htoNat
    omega
  have hloop := foldl_update_apply hinj g idt (List.finRange m) v
  split_ifs with h
  · refine hloop.1 ⟨v.toNat - base, h.2⟩ (List.mem_finRange _) (UInt8.toNat_inj.mp ?_)
    rw [hf]
    exact Nat.add_sub_cancel' h.1
  · refine hloop.2 fun i _ hi => h ?_
    rw [← hi, hf]
    omega

/-- The first 32 gates lead to the stubs of the exceptions. -/
theorem isrGates_apply (stubs : StubLayout) (idt : UInt8 → IdtEntry) (v : UInt8) :
    isrGates stubs idt v = if h : v.toNat < 32 then gateTo (stubs.addr (.isr ⟨v.toNat, h⟩)) 0x8E
      else idt v := by
  have hgates := gates_apply 0 (fun n : Fin 32 => (toNat_vector (by omega)).trans
    (Nat.zero_add _).symm) (fun n => gateTo (stubs.addr (.isr n)) 0x8E) idt v
  simp only [Nat.zero_le, true_and, Nat.sub_zero] at hgates
  exact hgates

/-- The 16 gates behind them lead to the stubs of the lines. -/
theorem irqGates_apply (stubs : StubLayout) (idt : UInt8 → IdtEntry) (v : UInt8) :
    irqGates stubs idt v = if h : 32 ≤ v.toNat ∧ v.toNat - 32 < 16 then
      gateTo (stubs.addr (.irq ⟨v.toNat - 32, h.2⟩)) 0x8E else idt v :=
  gates_apply 32 (fun k : Fin 16 => toNat_vector (by omega)) _ idt v

/-- The table as `idt_init` leaves it. -/
def filledIdt (stubs : StubLayout) : UInt8 → IdtEntry :=
  irqGates stubs (idtSetGate (isrGates stubs noGates) 0x80 (stubs.addr .isr128) 0x08 0xEE)

/-- Each gate leads to the stub of its vector, and no gate is overwritten. -/
theorem filledIdt_eq (stubs : StubLayout) (v : UInt8) :
    filledIdt stubs v = (stubOf v).elim (noGates v) fun st => gateTo (stubs.addr st) st.attr := by
  rw [filledIdt, irqGates_apply, idtSetGate, Function.update_apply, isrGates_apply]
  unfold stubOf
  -- The ranges of exceptions, of the lines and of everything behind them, with the system call in
  -- it.
  rcases lt_or_ge v.toNat 32 with h32 | h32
  · have h80 : v ≠ 0x80 := by
      rintro rfl
      revert h32
      decide
    rw [dif_neg (by omega), if_neg h80, dif_pos h32, dif_pos h32]
    rfl
  · have h32' : ¬v.toNat < 32 := h32.not_gt
    by_cases h16 : v.toNat - 32 < 16
    · rw [dif_pos ⟨h32, h16⟩, dif_neg h32', dif_pos h16]
      rfl
    · rw [dif_neg fun h => h16 h.2, dif_neg h32', dif_neg h32', dif_neg h16]
      by_cases h80 : v = 0x80
      · rw [if_pos h80, if_pos h80]
        rfl
      · rw [if_neg h80, if_neg h80]
        rfl

/-! ## What `idt_init` leaves -/

theorem ofByte_zero : Lines.ofByte 0 = .only none := by
  funext i
  revert i
  decide

/-- `pic_remap` sets up the controllers whatever state they are in. -/
theorem foldlM_picRemap (p : PicPair) : picRemap.foldlM PicPair.outb p =
    some ⟨⟨⟨.only none, 32, 0x04, .ready⟩, .only none, .only none⟩,
      ⟨⟨.only none, 40, 0x02, .ready⟩, .only none, .only none⟩⟩ := by
  have hplain : picRemap.foldlM PicPair.outb p =
      some ⟨⟨⟨.ofByte 0, 32, 0x04, .ready⟩, .only none, .only none⟩,
        ⟨⟨.ofByte 0, 40, 0x02, .ready⟩, .only none, .only none⟩⟩ := rfl
  rw [hplain, ofByte_zero]

/-- `pic_remap` sets up the controllers from any state, however edges on the lines come between its
writes: both chips are ready, with the lines of the first at the vectors 32 to 39 and those of the
second at 40 to 47, and no line is masked or in service. -/
theorem picRemap_underEdges (p : PicPair) (es : List ((ℕ × UInt8) ⊕ IrqEdge))
    (hes : es.filterMap Sum.getLeft? = picRemap) :
    ∃ q, p.steps es = some q ∧ q.Idle 32 40 := by
  obtain ⟨w, hsteps⟩ := p.exists_steps_eq (Lines.join p.master.irr p.slave.irr) es
  rw [hes, foldlM_picRemap] at hsteps
  exact ⟨_, hsteps, ⟨rfl, rfl⟩, rfl, rfl⟩

/-- Controllers that somebody else has set up, with an interrupt in service. -/
def foreignPics : PicPair :=
  ⟨⟨⟨.ofByte 0xB8, 8, 0x04, .ready⟩, .ofByte 0x01, .ofByte 0x02⟩,
    ⟨⟨.ofByte 0x8F, 0x70, 0x02, .icw3⟩, .only none, .only none⟩⟩

/-- The timer and the disk request interrupts while `pic_remap` runs. -/
theorem picRemap_underEdges_foreignPics :
    ∃ q, foreignPics.steps (.inr (.raise (.master 0)) :: (picRemap.map Sum.inl ++
      [.inr (.raise (.slave 6))])) = some q ∧ q.Idle 32 40 :=
  picRemap_underEdges foreignPics _ rfl

/-- The table is filled, and the processor finds all of it. -/
structure InterruptState.Filled (stubs : StubLayout) (s : InterruptState H) : Prop where
  /-- The gates of all stubs are set, and the others are empty. -/
  idt : s.idt = filledIdt stubs
  /-- The register covers all 256 entries. -/
  limit : s.idtr.limit.toNat = 2047

/-- After `idt_init` all gates are filled, interrupts are on, nothing is in service and no handler
is registered. -/
theorem exists_idtInit (stubs : StubLayout) (idtAddr : UInt32) (s : InterruptState H) :
    ∃ s', idtInit stubs idtAddr s = some s' ∧ s'.Filled stubs ∧ s'.intFlag = true ∧
      s'.pics.Idle 32 40 ∧ (s'.pics.waiting = fun _ => false) ∧
      s'.irqHandlers = fun _ => none := by
  rw [idtInit, irqInit, foldlM_picRemap]
  refine ⟨_, rfl, ⟨rfl, rfl⟩, rfl, ⟨⟨rfl, rfl⟩, rfl, rfl⟩, ?_, rfl⟩
  funext l
  cases l with
  | master i => exact Bool.and_false _
  | slave i => rfl

/-! ## Deliveries -/

/-- The error code of a fault in the delivery of a vector. The last bit says that it was not an
`int` instruction. -/
def deliveryError (cpl : Option ℕ) (v : UInt8) : ℕ :=
  8 * v.toNat + 2 + if cpl.isSome then 0 else 1

/-- All gates are present interrupt gates, and one of them is open to ring 3. -/
theorem Stub.attr_spec (st : Stub) : st.attr.toNat % 32 = 0x0E ∧ 128 ≤ st.attr.toNat ∧
    st.attr.toNat / 32 % 4 = if st = .isr128 then 3 else 0 := by
  have hring0 : (0x8E : UInt8).toNat % 32 = 0x0E ∧ 128 ≤ (0x8E : UInt8).toNat ∧
      (0x8E : UInt8).toNat / 32 % 4 = 0 := by decide
  cases st with
  | isr n =>
    rw [if_neg (by simp)]
    exact hring0
  | isr128 => decide
  | irq k =>
    rw [if_neg (by simp)]
    exact hring0

/-- The processor's way through the table that `idt_init` has filled. -/
theorem deliver_of_filled {stubs : StubLayout} {s : InterruptState H} (hs : s.Filled stubs)
    (cpl : Option ℕ) (hcpl : ∀ c ∈ cpl, c ≤ 3) (v : UInt8) :
    s.deliver cpl v = (stubOf v).elim (.fault 13 (deliveryError cpl v)) fun st =>
      if (∃ c ∈ cpl, c ≠ 0) ∧ st ≠ .isr128 then .fault 13 (deliveryError cpl v)
      else .gate 0x08 (stubs.addr st).toNat := by
  have hv := v.toNat_lt
  have hin : ¬s.idtr.limit.toNat < 8 * v.toNat + 7 := by
    rw [hs.limit]
    omega
  unfold InterruptState.deliver
  rw [hs.idt, filledIdt_eq]
  dsimp only
  rw [if_neg hin]
  cases hst : stubOf v with
  -- An entry of zeros has a type that no gate has.
  | none => rfl
  | some st =>
    obtain ⟨htype, hpresent, hdpl⟩ := st.attr_spec
    have hattr : (gateTo (stubs.addr st) st.attr).typeAttr = st.attr := rfl
    have hring : (∃ c ∈ cpl, st.attr.toNat / 32 % 4 < c) ↔ (∃ c ∈ cpl, c ≠ 0) ∧ st ≠ .isr128 := by
      rw [hdpl]
      constructor
      · rintro ⟨c, hc, hlt⟩
        have hle := hcpl c hc
        split_ifs at hlt with h128
        · omega
        · exact ⟨⟨c, hc, hlt.ne'⟩, h128⟩
      · rintro ⟨⟨c, hc, hne⟩, h128⟩
        refine ⟨c, hc, ?_⟩
        rw [if_neg h128]
        exact Nat.pos_of_ne_zero hne
    simp only [Option.elim_some, hattr, htype, hring, hpresent.not_gt, offset_gateTo,
      List.mem_cons, true_or, or_true, not_true, if_false, if_true]
    rfl

/-- For every vector and in every ring, an `int` instruction enters the stub of the vector, if it
has one and the ring may: ring 0 may use all of them and the other rings only `int 0x80`. Otherwise
it is a general protection fault. The interrupt controllers and exceptions enter the stubs from each
ring. -/
theorem int_enters_stub (stubs : StubLayout) (idtAddr : UInt32) (s : InterruptState H) :
    ∃ s', idtInit stubs idtAddr s = some s' ∧ ∀ v : UInt8,
      (∀ ring : Fin 4, s'.deliver (some ring) v =
        match stubOf v with
        | some st => if ring = 0 ∨ st = .isr128 then .gate 0x08 (stubs.addr st).toNat
            else .fault 13 (8 * v.toNat + 2)
        | none => .fault 13 (8 * v.toNat + 2)) ∧
      s'.deliver none v =
        match stubOf v with
        | some st => .gate 0x08 (stubs.addr st).toNat
        | none => .fault 13 (8 * v.toNat + 3) := by
  obtain ⟨s', hinit, hfilled, -⟩ := exists_idtInit stubs idtAddr s
  refine ⟨s', hinit, fun v => ⟨fun ring => ?_, ?_⟩⟩
  · rw [deliver_of_filled hfilled (some ring.val) (by simp; omega)]
    cases stubOf v with
    | none => rfl
    | some st =>
      -- Only the gate of the system call has a privilege level that lets user mode pass.
      have hopen : ((∃ c ∈ some ring.val, c ≠ 0) ∧ st ≠ .isr128) ↔ ¬(ring = 0 ∨ st = .isr128) := by
        have hzero : ring.val ≠ 0 ↔ ring ≠ 0 := Fin.val_ne_zero_iff
        simp only [Option.mem_def, Option.some.injEq, exists_eq_left', hzero, not_or, ne_eq]
      dsimp only [Option.elim_some]
      simp only [hopen, ite_not]
      rfl
  · rw [deliver_of_filled hfilled none (by simp)]
    cases stubOf v with
    | none => rfl
    | some st =>
      dsimp only [Option.elim_some]
      exact if_neg (by simp)

/-- The stub that an interrupt is to enter. -/
def Interrupt.entry : Interrupt → Stub
  | .exception n _ => .isr n
  | .syscall => .isr128
  | .irq k => .irq k

/-- The ring that the gate is checked against: only `int` is an instruction of the interrupted
code. -/
def Interrupt.checkedRing (ring : Fin 4) : Interrupt → Option ℕ
  | .syscall => some ring
  | _ => none

/-- The vector of a line leads to its stub. -/
theorem stubOf_irq {n : ℕ} (hn : n < 16) : stubOf (UInt8.ofNat (32 + n)) = some (.irq ⟨n, hn⟩) := by
  have hv : (UInt8.ofNat (32 + n)).toNat = 32 + n := toNat_vector (by omega)
  unfold stubOf
  rw [dif_neg (by omega), dif_pos (by omega)]
  simp only [hv, Nat.add_sub_cancel_left]

/-- Every interrupt leads to its stub. -/
theorem stubOf_vector (i : Interrupt) : stubOf (UInt8.ofNat i.vector) = some i.entry := by
  cases i with
  | exception n e =>
    have hv : (UInt8.ofNat n.val).toNat = n := toNat_vector (by omega)
    unfold stubOf
    rw [dif_pos (by rw [Interrupt.vector, hv]; exact n.isLt)]
    simp only [Interrupt.vector, hv]
    rfl
  | syscall => rfl
  | irq k => exact stubOf_irq k.isLt

/-- In each ring, an interrupt goes through a gate with the kernel code segment to the stub that
completes its frame, as `enter` takes it to do. -/
theorem deliver_interrupt {stubs : StubLayout} {s : InterruptState H} (hs : s.Filled stubs)
    (i : Interrupt) (ring : Fin 4) : s.deliver (i.checkedRing ring) (UInt8.ofNat i.vector) =
      .gate 0x08 (stubs.addr i.entry).toNat := by
  have hring : ∀ c ∈ i.checkedRing ring, c ≤ 3 := by
    intro c hc
    cases i with
    | syscall =>
      obtain rfl := Option.mem_some_iff.mp hc
      exact Nat.le_of_lt_succ ring.isLt
    | exception n e => cases hc
    | irq k => cases hc
  rw [deliver_of_filled hs _ hring, stubOf_vector, Option.elim_some]
  refine if_neg ?_
  -- A privilege level is checked for `int n` only, which is the system call here.
  rintro ⟨⟨c, hc, -⟩, hne⟩
  cases i with
  | syscall => exact hne rfl
  | exception n e => cases hc
  | irq k => cases hc

end Lightstreak
