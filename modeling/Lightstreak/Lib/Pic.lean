import Mathlib.Data.List.FinRange
import Mathlib.Logic.Function.Basic

/-!
# The 8259 interrupt controllers of a PC

Two chips with eight lines each, the second one behind line 2 of the first. A chip latches the
edges on its lines in `irr`. A line that was acknowledged is in `isr` until the end of the
interrupt is reported, and meanwhile it blocks itself and the lines after it. The modes are those
that a PC uses: two chips, edge triggered, 8086 vectors, fixed priorities, the end of an interrupt
reported to the chip. Any other programming has no result here.

* `PicPair.outb`: writes to the ports of the chips, which program them and report the end of an
  interrupt;
* `PicPair.acknowledge`: the acknowledge cycles of the processor;
* `PicPair.Idle.acknowledge`: what an acknowledgement reports while nothing is in service, what it
  takes into service, and which requests stay;
* `PicPair.Taken.outb_slave`, `PicPair.Taken.outb_master`: the reports that end an interrupt;
* `PicPair.exists_steps_eq`: edges on the lines do not interfere with the programming.
-/

namespace SysLib

/-! ## A chip -/

/-- A register with a bit for each of the eight lines of a chip. -/
abbrev Lines := Fin 8 → Bool

namespace Lines

/-- At most one line. -/
def only (o : Option (Fin 8)) : Lines := fun i => o == some i

/-- A byte as a register. -/
def ofByte (b : UInt8) : Lines := fun i => b.toNat.testBit i

/-- The first line, which has the highest priority. -/
def first (l : Lines) : Option (Fin 8) := (List.finRange 8).find? l

end Lines

/-- What the data port of a chip expects: the next initialisation word, or the mask. -/
inductive PicPhase
  | icw2
  | icw3
  | icw4
  | ready
deriving DecidableEq, Repr

/-- How a chip is programmed. -/
structure PicSetup where
  /-- The lines that are masked. -/
  imr : Lines
  /-- The vector of line 0. -/
  base : ℕ
  /-- For the first chip the lines that have a chip behind them; for the second one the line of the
  first that it is on. -/
  cascade : UInt8
  /-- How far the initialisation has come. -/
  phase : PicPhase

/-- An 8259. -/
structure Pic extends PicSetup where
  /-- The requests that wait. -/
  irr : Lines
  /-- The lines in service. -/
  isr : Lines

namespace Pic

/-- The end of an interrupt: the first line in service leaves it. -/
def endOfInterrupt (p : Pic) : Pic :=
  match p.isr.first with
  | some i => { p with isr := Function.update p.isr i false }
  | none => p

/-- A write to the command port: ICW1, which resets the chip, or the end of an interrupt. -/
def command (p : Pic) (b : UInt8) : Option Pic :=
  if b = 0x11 then
    some { p with irr := .only none, isr := .only none, imr := .only none, phase := .icw2 }
  else if b = 0x20 then some p.endOfInterrupt
  else none

/-- A write to the data port. -/
def data (p : Pic) (b : UInt8) : Option Pic :=
  match p.phase with
  -- The low three bits of the vectors are the line.
  | .icw2 => some { p with base := b.toNat / 8 * 8, phase := .icw3 }
  | .icw3 => some { p with cascade := b, phase := .icw4 }
  | .icw4 => if b = 0x01 then some { p with phase := .ready } else none
  | .ready => some { p with imr := .ofByte b }

/-- The request of a chip with the given lines: the first one that is not masked, unless a line up
to it is in service. -/
def request (p : Pic) (lines : Lines) : Option (Fin 8) :=
  match Lines.first fun i => lines i && !p.imr i with
  | some i => if ∃ j ≤ i, p.isr j = true then none else some i
  | none => none

/-- Requests go away before they were acknowledged. -/
def fall (p : Pic) (fallen : Lines) : Pic := { p with irr := fun i => p.irr i && !fallen i }

/-- A request goes into service. -/
def take (p : Pic) (i : Fin 8) : Pic :=
  { p with irr := Function.update p.irr i false, isr := Function.update p.isr i true }

end Pic

/-! ## The pair -/

/-- One of the sixteen lines. -/
inductive IrqLine
  | master (i : Fin 8)
  | slave (i : Fin 8)
deriving DecidableEq, Repr

/-- The number by which a PC calls the line. -/
def IrqLine.number : IrqLine → ℕ
  | .master i => i
  | .slave i => 8 + i

theorem IrqLine.number_lt (l : IrqLine) : l.number < 16 := by
  cases l with
  | master i => exact i.isLt.trans (by decide)
  | slave i => exact Nat.add_lt_add_left i.isLt 8

/-- Lines are known by their numbers. -/
theorem IrqLine.number_injective : Function.Injective IrqLine.number := by
  rintro (i | i) (j | j) h
  all_goals simp only [number] at h
  · rw [Fin.ext h]
  · omega
  · omega
  · rw [Fin.ext (Nat.add_left_cancel h)]

/-- The lines in the order of their priorities. The second chip takes the place of line 2. -/
def IrqLine.order : List IrqLine :=
  [.master 0, .master 1] ++ (List.finRange 8).map .slave ++
    [.master 3, .master 4, .master 5, .master 6, .master 7]

theorem IrqLine.nodup_order : IrqLine.order.Nodup := by decide

/-- Every line but that of the slave is in the order of priority. -/
theorem IrqLine.mem_order {l : IrqLine} (h : l ≠ .master 2) : l ∈ IrqLine.order := by
  cases l with
  | master i =>
    have hall : ∀ i : Fin 8, i ≠ 2 → IrqLine.master i ∈ IrqLine.order := by decide
    exact hall i fun hi => h (hi ▸ rfl)
  | slave i => simp [order]

/-- The lines of both chips. -/
def Lines.join (m s : Lines) : IrqLine → Bool
  | .master i => m i
  | .slave i => s i

/-- The two chips. -/
structure PicPair where
  /-- The controller that is connected to the processor. -/
  master : Pic
  /-- The controller on line 2 of the master. -/
  slave : Pic

/-- What the devices do to the lines: a request comes, or goes away before it was acknowledged. -/
inductive IrqEdge
  | raise (l : IrqLine)
  | fall (l : IrqLine)
deriving DecidableEq, Repr

namespace PicPair

/-- The requests that wait. Line 2 of the first chip leads to the second one and has no latch. -/
def waiting (p : PicPair) : IrqLine → Bool
  | .master i => i != 2 && p.master.irr i
  | .slave i => p.slave.irr i

/-- The chips with other requests. -/
def setWaiting (p : PicPair) (w : IrqLine → Bool) : PicPair :=
  ⟨{ p.master with irr := fun i => w (.master i) }, { p.slave with irr := fun i => w (.slave i) }⟩

end PicPair

/-- The requests after an edge. No device is on line 2 of the first chip. -/
def IrqEdge.apply (w : IrqLine → Bool) (e : IrqEdge) : IrqLine → Bool :=
  match e with
  | .raise l => if l = .master 2 then w else Function.update w l true
  | .fall l => Function.update w l false

/-- The line of an edge. -/
def IrqEdge.line : IrqEdge → IrqLine
  | .raise l => l
  | .fall l => l

/-- An edge concerns its own line. -/
theorem IrqEdge.apply_of_ne (w : IrqLine → Bool) {e : IrqEdge} {l : IrqLine} (h : e.line ≠ l) :
    e.apply w l = w l := by
  cases e with
  | raise l' =>
    rw [apply]
    split_ifs
    · rfl
    · exact Function.update_of_ne (Ne.symm h) ..
  | fall l' => exact Function.update_of_ne (Ne.symm h) ..

namespace PicPair

/-- An edge on a line. -/
def edge (p : PicPair) (e : IrqEdge) : PicPair := p.setWaiting (e.apply p.waiting)

/-- A write to a port. Other ports than those of the chips do not concern them. -/
def outb (p : PicPair) (w : ℕ × UInt8) : Option PicPair :=
  if w.1 = 0x20 then (p.master.command w.2).map fun m => { p with master := m }
  else if w.1 = 0x21 then (p.master.data w.2).map fun m => { p with master := m }
  else if w.1 = 0xA0 then (p.slave.command w.2).map fun s => { p with slave := s }
  else if w.1 = 0xA1 then (p.slave.data w.2).map fun s => { p with slave := s }
  else some p

/-- The lines of the first chip, with the request of the second one on line 2. -/
def masterLines (p : PicPair) : Lines :=
  Function.update p.master.irr 2 (p.slave.request p.slave.irr).isSome

/-- The acknowledge cycles, which give the processor the vector. The first chip has chosen its line
in the first cycle, and the lines `fallen` of the second chip fall before the second cycle. A chip
whose request has gone away answers for its line 7 and takes nothing into service. -/
def acknowledge (p : PicPair) (fallen : Lines) : Option (ℕ × PicPair) :=
  if p.master.phase = .ready ∧ p.slave.phase = .ready then
    let slave := p.slave.fall fallen
    match p.master.request p.masterLines with
    | none => some (p.master.base + 7, ⟨p.master, slave⟩)
    | some i =>
      -- The line leads to the slave, which answers if it is the one with this number.
      if p.master.cascade.toNat.testBit i then
        if slave.cascade.toNat = i then
          match slave.request slave.irr with
          | none => some (slave.base + 7, ⟨p.master.take i, slave⟩)
          | some k => some (slave.base + k, ⟨p.master.take i, slave.take k⟩)
        else none
      else some (p.master.base + i, ⟨p.master.take i, slave⟩)
  else none

/-- Both chips are set up, with all lines unmasked and the vectors of each chip from the given one
on. -/
structure Programmed (b₁ b₂ : ℕ) (p : PicPair) : Prop where
  /-- The master expects the slave on its line 2, and its vectors start at `b₁`. -/
  master : p.master.toPicSetup = ⟨.only none, b₁, 0x04, .ready⟩
  /-- The slave has the identity 2, and its vectors start at `b₂`. -/
  slave : p.slave.toPicSetup = ⟨.only none, b₂, 0x02, .ready⟩

end PicPair

/-! ## Registers with one line -/

namespace Lines

theorem only_none_apply (i : Fin 8) : only none i = false := rfl

/-- The first of at most one line. -/
theorem first_only (o : Option (Fin 8)) : (only o).first = o := by
  cases o with
  | none => decide
  | some i =>
    revert i
    decide

theorem update_only_none (i : Fin 8) : Function.update (only none) i true = only (some i) := by
  funext j
  revert i j
  decide

theorem update_only_some (i : Fin 8) : Function.update (only (some i)) i false = only none := by
  funext j
  revert i j
  decide

theorem apply_of_first {l : Lines} {i : Fin 8} (h : l.first = some i) : l i = true :=
  List.find?_some h

theorem apply_of_first_none {l : Lines} (h : l.first = none) (i : Fin 8) : l i = false := by
  have hi := List.find?_eq_none.mp h i (List.mem_finRange i)
  exact Bool.eq_false_iff.mpr hi

end Lines

namespace Pic

/-- The end of an interrupt when at most one line is in service. -/
theorem endOfInterrupt_of_only {p : Pic} {o : Option (Fin 8)} (h : p.isr = .only o) :
    p.endOfInterrupt = { p with isr := .only none } := by
  unfold endOfInterrupt
  rw [h, Lines.first_only]
  cases o with
  | none => rw [← h]
  | some i =>
    dsimp only
    rw [Lines.update_only_some]

/-- A chip that has nothing masked or in service passes on the first line. -/
theorem request_of_idle {p : Pic} (himr : p.imr = .only none) (hisr : p.isr = .only none)
    (lines : Lines) : p.request lines = lines.first := by
  have hlines : (fun i => lines i && !p.imr i) = lines := by
    funext i
    rw [himr, Lines.only_none_apply, Bool.not_false, Bool.and_true]
  unfold request
  rw [hlines]
  cases hfirst : lines.first with
  | none => rfl
  | some i =>
    have hfree : ¬∃ j ≤ i, p.isr j = true := by
      rintro ⟨j, -, hj⟩
      rw [hisr] at hj
      cases hj
    exact if_neg hfree

/-- A chip with other requests. -/
def setIrr (p : Pic) (l : Lines) : Pic := { p with irr := l }

/-- Pending requests do not matter for commands. -/
theorem command_setIrr (p : Pic) (l : Lines) (b : UInt8) :
    ∃ l', (p.setIrr l).command b = (p.command b).map fun q => q.setIrr l' := by
  unfold command
  split_ifs
  · -- ICW1 forgets the requests, whatever they were.
    exact ⟨.only none, rfl⟩
  · -- The end of an interrupt looks at the lines in service only.
    refine ⟨l, ?_⟩
    unfold endOfInterrupt
    rw [show (p.setIrr l).isr = p.isr from rfl]
    cases p.isr.first <;> rfl
  · exact ⟨l, rfl⟩

/-- Pending requests do not matter for data bytes. -/
theorem data_setIrr (p : Pic) (l : Lines) (b : UInt8) :
    (p.setIrr l).data b = (p.data b).map fun q => q.setIrr l := by
  unfold data
  rw [show (p.setIrr l).phase = p.phase from rfl]
  cases p.phase with
  | icw4 =>
    dsimp only
    split_ifs <;> rfl
  | _ => rfl

theorem irr_take_self (p : Pic) (i : Fin 8) : (p.take i).irr i = false :=
  Function.update_self ..

theorem irr_take_of_ne (p : Pic) {i j : Fin 8} (h : j ≠ i) : (p.take i).irr j = p.irr j :=
  Function.update_of_ne h ..

end Pic

namespace PicPair

variable {p : PicPair} {b₁ b₂ : ℕ}

/-- The lines of the master that wait, without that of the slave. -/
theorem waiting_mk_master (m s : Pic) (i : Fin 8) :
    waiting ⟨m, s⟩ (.master i) = (i != 2 && m.irr i) := rfl

theorem waiting_master_two (p : PicPair) : p.waiting (.master 2) = false := rfl

/-- An edge sets or clears what waits on its line. -/
theorem waiting_edge (p : PicPair) (e : IrqEdge) : (p.edge e).waiting = e.apply p.waiting := by
  -- The line of the slave never counts as a device that waits.
  have htwo : e.apply p.waiting (.master 2) = false := by
    cases e with
    | raise l =>
      rw [IrqEdge.apply]
      split_ifs with hl
      · rfl
      · rw [Function.update_of_ne (Ne.symm hl), waiting_master_two]
    | fall l =>
      rw [IrqEdge.apply, Function.update_apply]
      split_ifs
      · rfl
      · rfl
  funext l
  cases l with
  | master i =>
    rcases eq_or_ne i 2 with rfl | hi
    · rw [waiting_master_two, htwo]
    · show (i != 2 && e.apply p.waiting (.master i)) = _
      rw [bne_iff_ne.mpr hi, Bool.true_and]
  | slave i => rfl

/-! ## Acknowledgement -/

/-- The line that is acknowledged when nothing is in service: the first request in the order of the
priorities, but for the second chip the first one that is left when it is asked. Line 7 of a chip
stands for a request that has gone away. -/
def choose (w : IrqLine → Bool) (fallen : Lines) : IrqLine :=
  match IrqLine.order.find? w with
  | none => .master 7
  | some (.master i) => .master i
  | some (.slave _) => .slave ((Lines.first fun i => w (.slave i) && !fallen i).getD 7)

/-- Whether a line is among those of the second chip that fall. -/
def fell (fallen : Lines) : IrqLine → Bool
  | .master _ => false
  | .slave i => fallen i

/-- The requests that stay when the line `l` is acknowledged while lines of the second chip fall. -/
def stay (w : IrqLine → Bool) (fallen : Lines) (l : IrqLine) : IrqLine → Bool :=
  fun x => w x && !fell fallen x && x != l

/-- The vector of a line. -/
def vector (b₁ b₂ : ℕ) : IrqLine → ℕ
  | .master i => b₁ + i
  | .slave i => b₂ + i

/-- The first request in the order of the priorities, as the chips find it. -/
theorem find?_order (w : IrqLine → Bool) :
    IrqLine.order.find? w =
      match Lines.first (Function.update (fun i => w (.master i)) 2
        (Lines.first fun i => w (.slave i)).isSome) with
      | none => none
      | some i => if i = 2 then (Lines.first fun i => w (.slave i)).map .slave
          else some (.master i) := by
  have hslave : ((List.finRange 8).map IrqLine.slave).find? w =
      (Lines.first fun i => w (.slave i)).map .slave := List.find?_map ..
  rw [IrqLine.order, List.find?_append, List.find?_append, hslave]
  generalize Lines.first (fun i => w (.slave i)) = o
  have hlist : List.finRange 8 = [0, 1, 2, 3, 4, 5, 6, 7] := by decide
  rw [Lines.first, hlist]
  -- The first line that is set decides; the lines after 2 count if the second chip has none.
  cases h0 : w (.master 0) with
  | true => simp [List.find?_cons, h0]
  | false =>
    cases h1 : w (.master 1) with
    | true => simp [List.find?_cons, h0, h1]
    | false =>
      cases o with
      | some i => simp [List.find?_cons, h0, h1]
      | none =>
        cases h3 : w (.master 3) <;> cases h4 : w (.master 4) <;> cases h5 : w (.master 5) <;>
          cases h6 : w (.master 6) <;> cases h7 : w (.master 7) <;>
          simp [h0, h1, h3, h4, h5, h6, h7]

/-- A line is acknowledged only if it is requested, but for line 7 of a chip. -/
theorem waiting_of_choose {w : IrqLine → Bool} {fallen : Lines} {l : IrqLine}
    (hl : l = choose w fallen) (hm : l ≠ .master 7) (hs : l ≠ .slave 7) :
    w l = true ∧ fell fallen l = false := by
  subst hl
  unfold choose at hm hs ⊢
  cases hfind : IrqLine.order.find? w with
  | none =>
    rw [hfind] at hm
    exact absurd rfl hm
  | some l =>
    rw [hfind] at hs
    cases l with
    | master i => exact ⟨List.find?_some hfind, rfl⟩
    | slave i =>
      dsimp only at hs ⊢
      -- The request of the slave has gone unless one of its lines is still high.
      cases hfirst : Lines.first fun i => w (.slave i) && !fallen i with
      | none =>
        rw [hfirst] at hs
        exact absurd rfl hs
      | some k =>
        have hk := Lines.apply_of_first hfirst
        rw [Bool.and_eq_true, Bool.not_eq_true'] at hk
        exact hk

/-- While no line falls, the first request in the order of the priorities is acknowledged. -/
theorem choose_of_find? {w : IrqLine → Bool} {l : IrqLine}
    (hl : IrqLine.order.find? w = some l) : choose w (.only none) = l := by
  unfold choose
  rw [hl]
  cases l with
  | master i => rfl
  | slave i =>
    have hfree : (fun j => w (.slave j) && !Lines.only none j) = fun j => w (.slave j) := by
      funext j
      exact Bool.and_true _
    -- The second chip is asked only if it has the first request.
    have horder := find?_order w
    rw [hl] at horder
    dsimp only
    rw [hfree]
    cases hfirst : Lines.first (Function.update (fun i => w (.master i)) 2
        (Lines.first fun i => w (.slave i)).isSome) with
    | none =>
      rw [hfirst] at horder
      cases horder
    | some j =>
      rw [hfirst] at horder
      dsimp only at horder
      split_ifs at horder with hj
      · obtain ⟨k, hk, heq⟩ := Option.map_eq_some_iff.mp horder.symm
        rw [hk, ← heq]
        rfl
      · cases horder

/-- ICW3 of the first chip says that the second one is on line 2. -/
theorem testBit_cascade (i : Fin 8) : (0x04 : UInt8).toNat.testBit i = decide (i = 2) := by
  revert i
  decide

/-- What stays waiting is known line by line. -/
theorem eq_stay {w w' : IrqLine → Bool} {fallen : Lines} {l : IrqLine} (hl : w' l = false)
    (hne : ∀ x, x ≠ l → w' x = (w x && !fell fallen x)) : w' = stay w fallen l := by
  funext x
  unfold stay
  rcases eq_or_ne x l with rfl | hx
  · rw [hl, bne_self_eq_false, Bool.and_false]
  · rw [hne x hx, bne_iff_ne.mpr hx, Bool.and_true]

/-- What is in service at most after a line was acknowledged. -/
def InService (p : PicPair) : IrqLine → Prop
  | .master _ => (∃ o, p.master.isr = .only o) ∧ p.slave.isr = .only none
  | .slave _ => (∃ o, p.master.isr = .only o) ∧ ∃ o, p.slave.isr = .only o

/-- The chips after a line was acknowledged, with the requests `w`. -/
structure Taken (b₁ b₂ : ℕ) (w : IrqLine → Bool) (l : IrqLine) (p : PicPair) : Prop where
  /-- The pair is programmed. -/
  programmed : p.Programmed b₁ b₂
  /-- These lines are waiting. -/
  waiting : p.waiting = w
  /-- Exactly the line `l` is in service. -/
  inService : p.InService l

/-- Nothing is masked or in service. -/
structure Idle (b₁ b₂ : ℕ) (p : PicPair) : Prop where
  /-- The pair is programmed. -/
  programmed : p.Programmed b₁ b₂
  /-- The master has nothing in service. -/
  master_isr : p.master.isr = .only none
  /-- The slave has nothing in service. -/
  slave_isr : p.slave.isr = .only none

/-- With nothing in service, the master asks for its first line. -/
theorem Idle.request_master (h : p.Idle b₁ b₂) (lines : Lines) :
    p.master.request lines = lines.first :=
  Pic.request_of_idle (congrArg PicSetup.imr h.programmed.master) h.master_isr lines

/-- With nothing in service, the slave asks for its first line. -/
theorem Idle.request_slave (h : p.Idle b₁ b₂) (lines fallen : Lines) :
    (p.slave.fall fallen).request lines = lines.first :=
  Pic.request_of_idle (congrArg PicSetup.imr h.programmed.slave) h.slave_isr lines

/-- The lines of the first chip while nothing is in service. -/
theorem Idle.masterLines_eq (h : p.Idle b₁ b₂) :
    p.masterLines = Function.update (fun i => p.waiting (.master i)) 2
      (Lines.first fun i => p.waiting (.slave i)).isSome := by
  have hslave := Pic.request_of_idle (congrArg PicSetup.imr h.programmed.slave) h.slave_isr
  funext i
  rw [masterLines, hslave]
  rcases eq_or_ne i 2 with rfl | hi
  · rw [Function.update_self, Function.update_self]
    rfl
  · rw [Function.update_of_ne hi, Function.update_of_ne hi, waiting, bne_iff_ne.mpr hi,
      Bool.true_and]

variable {fallen : Lines}

/-- The first chip has no request any more. -/
theorem Idle.acknowledge_none (h : p.Idle b₁ b₂) (hreq : p.masterLines.first = none)
    (hseven : p.waiting (.master 7) = false) :
    ∃ p', p.acknowledge fallen = some (vector b₁ b₂ (.master 7), p') ∧
      p'.Taken b₁ b₂ (stay p.waiting fallen (.master 7)) (.master 7) := by
  obtain ⟨hm, hs⟩ := h.programmed
  refine ⟨⟨p.master, p.slave.fall fallen⟩, ?_, ⟨hm, hs⟩, eq_stay hseven ?_,
    ⟨none, h.master_isr⟩, h.slave_isr⟩
  · simp only [acknowledge, h.request_master, hreq, hm, hs]
    rfl
  · rintro (j | j) -
    · exact (Bool.and_true _).symm
    · rfl

/-- A line of the first chip. -/
theorem Idle.acknowledge_master (h : p.Idle b₁ b₂) {i : Fin 8}
    (hreq : p.masterLines.first = some i) (hi : i ≠ 2) :
    ∃ p', p.acknowledge fallen = some (vector b₁ b₂ (.master i), p') ∧
      p'.Taken b₁ b₂ (stay p.waiting fallen (.master i)) (.master i) := by
  obtain ⟨hm, hs⟩ := h.programmed
  refine ⟨⟨p.master.take i, p.slave.fall fallen⟩, ?_, ⟨hm, hs⟩, eq_stay ?_ ?_,
    ⟨some i, ?_⟩, h.slave_isr⟩
  · simp only [acknowledge, h.request_master, hreq, hm, hs, testBit_cascade, hi, decide_false]
    rfl
  · rw [waiting_mk_master, Pic.irr_take_self, Bool.and_false]
  · rintro (j | j) hj
    · have hne : j ≠ i := fun heq => hj (heq ▸ rfl)
      rw [waiting_mk_master, Pic.irr_take_of_ne _ hne]
      exact (Bool.and_true _).symm
    · rfl
  · rw [← Lines.update_only_none, ← h.master_isr]
    rfl

/-- A line of the second chip, which answers for line 7 if its request has gone away. -/
theorem Idle.acknowledge_slave (h : p.Idle b₁ b₂) (hreq : p.masterLines.first = some 2)
    {o : Option (Fin 8)} (ho : (p.slave.fall fallen).irr.first = o) :
    ∃ p', p.acknowledge fallen = some (vector b₁ b₂ (.slave (o.getD 7)), p') ∧
      p'.Taken b₁ b₂ (stay p.waiting fallen (.slave (o.getD 7))) (.slave (o.getD 7)) := by
  obtain ⟨hm, hs⟩ := h.programmed
  have hslave : (p.slave.fall fallen).toPicSetup = ⟨.only none, b₂, 0x02, .ready⟩ := hs
  refine ⟨⟨p.master.take 2, o.elim (p.slave.fall fallen) (p.slave.fall fallen).take⟩, ?_,
    ⟨hm, ?_⟩, eq_stay ?_ ?_, ⟨some 2, ?_⟩, ⟨o, ?_⟩⟩
  · simp only [acknowledge, h.request_master, hreq, hm, hs, hslave, testBit_cascade,
      h.request_slave, ho]
    cases o <;> rfl
  · cases o <;> exact hs
  · -- Line 7 is not requested if no line is.
    cases o with
    | none => exact Lines.apply_of_first_none ho 7
    | some k => exact Pic.irr_take_self ..
  · rintro (j | j) hj
    · rcases eq_or_ne j 2 with rfl | hne
      · rfl
      · rw [waiting_mk_master, Pic.irr_take_of_ne _ hne]
        exact (Bool.and_true _).symm
    · cases o with
      | none => rfl
      | some k =>
        have hne : j ≠ k := fun heq => hj (heq ▸ rfl)
        exact Pic.irr_take_of_ne _ hne
  · rw [← Lines.update_only_none, ← h.master_isr]
    rfl
  · cases o with
    | none => exact h.slave_isr
    | some k =>
      rw [← Lines.update_only_none, ← h.slave_isr]
      rfl

/-- The chips acknowledge the line that has the highest priority when nothing is in service. -/
theorem Idle.acknowledge (h : p.Idle b₁ b₂) (fallen : Lines) :
    ∃ p', p.acknowledge fallen = some (vector b₁ b₂ (choose p.waiting fallen), p') ∧
      p'.Taken b₁ b₂ (stay p.waiting fallen (choose p.waiting fallen))
        (choose p.waiting fallen) := by
  have horder := find?_order p.waiting
  rw [← h.masterLines_eq] at horder
  cases hreq : p.masterLines.first with
  | none =>
    rw [hreq] at horder
    have hseven := List.find?_eq_none.mp horder (.master 7) (by decide)
    rw [choose, horder]
    exact h.acknowledge_none hreq (Bool.eq_false_iff.mpr hseven)
  | some i =>
    rw [hreq] at horder
    dsimp only at horder
    rcases eq_or_ne i 2 with rfl | hi
    · -- Line 2 of the first chip is requested by the second chip, so this one has a request.
      have hsome := Lines.apply_of_first hreq
      rw [h.masterLines_eq, Function.update_self] at hsome
      obtain ⟨k, hk⟩ := Option.isSome_iff_exists.mp hsome
      rw [if_pos rfl, hk, Option.map_some] at horder
      rw [choose, horder]
      exact h.acknowledge_slave hreq rfl
    · rw [if_neg hi] at horder
      rw [choose, horder]
      exact h.acknowledge_master hreq hi

/-- Edges do not put anything in service. -/
theorem Idle.edge (h : p.Idle b₁ b₂) (e : IrqEdge) : (p.edge e).Idle b₁ b₂ :=
  ⟨⟨h.programmed.master, h.programmed.slave⟩, h.master_isr, h.slave_isr⟩

/-- While a line is in service, edges change what waits. -/
theorem Taken.edge {w : IrqLine → Bool} {l : IrqLine} (h : p.Taken b₁ b₂ w l) (e : IrqEdge) :
    (p.edge e).Taken b₁ b₂ (e.apply w) l := by
  refine ⟨⟨h.programmed.master, h.programmed.slave⟩, ?_, ?_⟩
  · rw [waiting_edge, h.waiting]
  · cases l <;> exact h.inService

/-! ## The end of an interrupt -/

variable {w : IrqLine → Bool} {i : Fin 8}

/-- The end of an interrupt is reported to the second chip. -/
theorem Taken.outb_slave (h : p.Taken b₁ b₂ w (.slave i)) :
    ∃ p', p.outb (0xA0, 0x20) = some p' ∧ p'.Taken b₁ b₂ w (.master i) := by
  obtain ⟨hm, o, hs⟩ := h.inService
  have hend := Pic.endOfInterrupt_of_only hs
  refine ⟨{ p with slave := { p.slave with isr := .only none } }, ?_,
    ⟨h.programmed.master, h.programmed.slave⟩, h.waiting, hm, rfl⟩
  rw [← hend]
  rfl

/-- The end of an interrupt is reported to the first chip. -/
theorem Taken.outb_master (h : p.Taken b₁ b₂ w (.master i)) :
    ∃ p', p.outb (0x20, 0x20) = some p' ∧ p'.Idle b₁ b₂ ∧ p'.waiting = w := by
  obtain ⟨⟨o, hm⟩, hs⟩ := h.inService
  have hend := Pic.endOfInterrupt_of_only hm
  refine ⟨{ p with master := { p.master with isr := .only none } }, ?_,
    ⟨⟨h.programmed.master, h.programmed.slave⟩, rfl, hs⟩, h.waiting⟩
  rw [← hend]
  rfl

/-! ## Programming while edges come -/

/-- Writes to ports, with edges between them. -/
def steps (p : PicPair) (es : List ((ℕ × UInt8) ⊕ IrqEdge)) : Option PicPair :=
  es.foldlM (fun p e => e.elim p.outb fun e => some (p.edge e)) p

/-- A write to a port treats the rest of a chip alike, whatever is requested. -/
theorem outb_setWaiting (p : PicPair) (w : IrqLine → Bool) (x : ℕ × UInt8) :
    ∃ w', (p.setWaiting w).outb x = (p.outb x).map fun q => q.setWaiting w' := by
  obtain ⟨l₁, h₁⟩ := p.master.command_setIrr (fun i => w (.master i)) x.2
  obtain ⟨l₂, h₂⟩ := p.slave.command_setIrr (fun i => w (.slave i)) x.2
  have h₃ := p.master.data_setIrr (fun i => w (.master i)) x.2
  have h₄ := p.slave.data_setIrr (fun i => w (.slave i)) x.2
  have hmaster : (p.setWaiting w).master = p.master.setIrr fun i => w (.master i) := rfl
  have hslave : (p.setWaiting w).slave = p.slave.setIrr fun i => w (.slave i) := rfl
  -- Each of the four ports belongs to one register of one controller.
  unfold outb
  split_ifs
  · refine ⟨Lines.join l₁ fun i => w (.slave i), ?_⟩
    rw [hmaster, h₁]
    cases p.master.command x.2 <;> rfl
  · refine ⟨w, ?_⟩
    rw [hmaster, h₃]
    cases p.master.data x.2 <;> rfl
  · refine ⟨Lines.join (fun i => w (.master i)) l₂, ?_⟩
    rw [hslave, h₂]
    cases p.slave.command x.2 <;> rfl
  · refine ⟨w, ?_⟩
    rw [hslave, h₄]
    cases p.slave.data x.2 <;> rfl
  · exact ⟨w, rfl⟩

/-- Edges between the writes change nothing but the requests. -/
theorem exists_steps_eq (p : PicPair) (w : IrqLine → Bool) (es : List ((ℕ × UInt8) ⊕ IrqEdge)) :
    ∃ w', (p.setWaiting w).steps es =
      ((es.filterMap Sum.getLeft?).foldlM outb p).map fun q => q.setWaiting w' := by
  -- The requests are generalised, since an edge and ICW1 change them.
  induction es generalizing p w with
  | nil => exact ⟨w, rfl⟩
  | cons e es ih =>
    cases e with
    | inl x =>
      obtain ⟨w₁, hx⟩ := outb_setWaiting p w x
      have hcons : (p.setWaiting w).steps (.inl x :: es) =
          ((p.setWaiting w).outb x).bind fun q => q.steps es := List.foldlM_cons ..
      have hwrites : (Sum.inl x :: es).filterMap Sum.getLeft? =
          x :: es.filterMap Sum.getLeft? := rfl
      rw [hcons, hx, hwrites, List.foldlM_cons]
      cases p.outb x with
      | none => exact ⟨w, rfl⟩
      | some q => exact ih q w₁
    | inr e => exact ih p _

end PicPair

end SysLib
