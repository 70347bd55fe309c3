import Mathlib.Data.List.ReduceOption
import Lightstreak.Arch.Idt
import Lightstreak.Lib.Run

/-!
# Hardware interrupts (`kernel/arch/irq.c`)

From the edge on a line of the interrupt controllers to the handler in `irq_handlers`: the
processor acknowledges the interrupt and goes through the table to the stub, and `irq_handler`
reports the end of the interrupt with `pic_send_eoi` before it calls the handler. Edges may come
between any two steps.

The controllers with their programming, the cascade and the registers in `pic_send_eoi` are compared
with one controller that has sixteen lines and forgets a request when it is accepted
(`IrqStep`):

* `IrqMachine.Inv.step`: one event, by the stage that the processor is in;
* `irq_refines`: after `idt_init`, under every interleaving of edges with the steps of the
  processor, the machine does what that controller does, and nothing is in service while a handler
  runs.
-/

namespace Lightstreak

open SysLib SysLib.X86

variable {H : Type}

/-! ## The code -/

/-- `pic_send_eoi(irq)`: what it writes to the ports. -/
def picSendEoi (irq : UInt8) : List (ℕ × UInt8) :=
  (if 8 ≤ irq.toNat then [(0xA0, 0x20)] else []) ++ [(0x20, 0x20)]

/-- The number that a stub pushes. -/
def Stub.intNo : Stub → ℕ
  | .isr n => n
  | .isr128 => 128
  | .irq k => 32 + k

/-- `irq` in `irq_handler`. -/
def irqOf (intNo : ℕ) : UInt8 := UInt8.ofNat (sub32 intNo 32)

/-- The handler that `irq_handler` calls. -/
def InterruptState.handlerOf (s : InterruptState H) (irq : UInt8) : Option H :=
  if h : irq.toNat < 16 then s.irqHandlers ⟨irq.toNat, h⟩ else none

/-- All stubs. -/
def Stub.all : List Stub :=
  (List.finRange 32).map .isr ++ [.isr128] ++ (List.finRange 16).map .irq

/-- The stub at an address. -/
def StubLayout.stubAt (stubs : StubLayout) (offset : ℕ) : Option Stub :=
  Stub.all.find? fun st => (stubs.addr st).toNat == offset

/-! ## The machine -/

/-- Where the processor is: in code that can be interrupted, in `pic_send_eoi` with the writes that
are left, or in a handler. -/
inductive IrqStage
  | free
  | eoi (irq : UInt8) (todo : List (ℕ × UInt8))
  | handler (irq : UInt8)
deriving DecidableEq, Repr

structure IrqMachine (H : Type) where
  /-- The tables and the controllers. -/
  int : InterruptState H
  /-- Where the processor is in the service of an interrupt. -/
  stage : IrqStage

/-- An edge on a line, a call of `irq_register` by the code that is interrupted, or a step of the
processor. If the step acknowledges an interrupt, then lines of the second chip may fall
meanwhile. -/
inductive IrqEvent (H : Type)
  | edge (e : IrqEdge)
  | register (irq : UInt8) (handler : H)
  | cpu (fallen : Lines)

/-- What can be observed: an edge, a call of `irq_register`, an interrupt that is accepted, the call
of a handler, and the return to the interrupted code. -/
inductive IrqLabel (H : Type)
  | edge (e : IrqEdge)
  | register (irq : UInt8) (handler : H)
  | accept (fallen : Lines) (irq : UInt8)
  | call (handler : H)
  | ret

/-- The processor takes an interrupt: it acknowledges the vector and enters the stub, which calls
`irq_handler`. The gate clears the interrupt flag. -/
def IrqMachine.accept (stubs : StubLayout) (m : IrqMachine H) (fallen : Lines) :
    Option (Option (IrqLabel H) × IrqMachine H) := do
  let (v, pics) ← m.int.pics.acknowledge fallen
  match m.int.deliver none (UInt8.ofNat v) with
  | .gate _ offset =>
    -- The offset in the gate is the address of a stub.
    match stubs.stubAt offset with
    | some (.irq k) =>
      let irq := irqOf (Stub.irq k).intNo
      some (some (.accept fallen irq),
        ⟨{ m.int with pics := pics, intFlag := false }, .eoi irq (picSendEoi irq)⟩)
    | _ => none
  | _ => none

/-- One event. A handler returns, or leaves by a switch to another process; in both cases `iret` or
the other process enables interrupts again. -/
def IrqMachine.step (stubs : StubLayout) (m : IrqMachine H) :
    IrqEvent H → Option (Option (IrqLabel H) × IrqMachine H)
  | .edge e => some (some (.edge e), { m with int := { m.int with pics := m.int.pics.edge e } })
  | .register irq handler =>
    match m.stage with
    | .free => some (some (.register irq handler), ⟨irqRegister m.int irq handler, .free⟩)
    | _ => some (none, m)
  | .cpu fallen =>
    match m.stage with
    -- A request that has gone away may still be acknowledged, so that none has to wait here.
    | .free => if m.int.intFlag then m.accept stubs fallen else some (none, m)
    | .eoi irq (w :: todo) => do
      let pics ← m.int.pics.outb w
      return (none, ⟨{ m.int with pics := pics }, .eoi irq todo⟩)
    -- `pic_send_eoi` has returned.
    | .eoi irq [] =>
      match m.int.handlerOf irq with
      | some h => some (some (.call h), { m with stage := .handler irq })
      | none => some (some .ret, ⟨{ m.int with intFlag := true }, .free⟩)
    | .handler _ => some (some .ret, ⟨{ m.int with intFlag := true }, .free⟩)

/-! ## A controller with sixteen lines -/

/-- What happens to an interrupt: nothing, it is accepted, or its handler runs. -/
inductive IrqService
  | free
  | accepted (irq : UInt8)
  | running (irq : UInt8)
deriving DecidableEq, Repr

def IrqStage.service : IrqStage → IrqService
  | .free => .free
  | .eoi irq _ => .accepted irq
  | .handler irq => .running irq

/-- The lines that are requested, and the handlers. -/
structure IrqView (H : Type) where
  /-- The lines that wait. -/
  waiting : IrqLine → Bool
  /-- The handler that is registered for a line number. -/
  handlerOf : UInt8 → Option H
  /-- What is being served. -/
  service : IrqService

/-- One controller with sixteen lines. It forgets a request when it is accepted. -/
inductive IrqStep : IrqView H → IrqLabel H → IrqView H → Prop
  | edge (v : IrqView H) (e : IrqEdge) :
      IrqStep v (.edge e) { v with waiting := e.apply v.waiting }
  | register (v : IrqView H) (hv : v.service = .free) (irq : UInt8) (h : H)
      (hirq : irq.toNat < 16) : IrqStep v (.register irq h)
        { v with handlerOf := Function.update v.handlerOf irq (some h) }
  | refuse (v : IrqView H) (hv : v.service = .free) (irq : UInt8) (h : H)
      (hirq : 16 ≤ irq.toNat) : IrqStep v (.register irq h) v
  | accept (v : IrqView H) (hv : v.service = .free) (fallen : Lines) (l : IrqLine)
      (hl : l = PicPair.choose v.waiting fallen) :
      IrqStep v (.accept fallen (UInt8.ofNat l.number))
        { v with
          waiting := PicPair.stay v.waiting fallen l
          service := .accepted (UInt8.ofNat l.number) }
  | call (v : IrqView H) (irq : UInt8) (hv : v.service = .accepted irq) (h : H)
      (hh : v.handlerOf irq = some h) : IrqStep v (.call h) { v with service := .running irq }
  | skip (v : IrqView H) (irq : UInt8) (hv : v.service = .accepted irq)
      (hh : v.handlerOf irq = none) : IrqStep v .ret { v with service := .free }
  | ret (v : IrqView H) (irq : UInt8) (hv : v.service = .running irq) :
      IrqStep v .ret { v with service := .free }

/-! ## From a line to `irq_handler` -/

theorem Stub.mem_all (st : Stub) : st ∈ Stub.all := by
  cases st <;> simp [Stub.all]

/-- Each stub has an address of its own. -/
theorem stubAt_addr (stubs : StubLayout) (st : Stub) :
    stubs.stubAt (stubs.addr st).toNat = some st := by
  unfold StubLayout.stubAt
  cases hfind : Stub.all.find? fun st' => (stubs.addr st').toNat == (stubs.addr st).toNat with
  | none => exact absurd (List.find?_eq_none.mp hfind st st.mem_all) (by simp)
  | some st' =>
    have haddr := List.find?_some hfind
    rw [beq_iff_eq] at haddr
    rw [stubs.injective (UInt32.toNat_inj.mp haddr)]

/-- The vectors of both chips follow one another. -/
theorem vector_eq (l : IrqLine) : PicPair.vector 32 40 l = 32 + l.number := by
  cases l with
  | master i => rfl
  | slave i => exact Nat.add_assoc 32 8 i

/-- A stub of a line passes its number on. -/
theorem irqOf_intNo (k : Fin 16) : irqOf (Stub.irq k).intNo = UInt8.ofNat k := by
  have hk : sub32 (32 + k) 32 = k := by
    unfold sub32
    omega
  rw [irqOf, Stub.intNo, hk]

variable {stubs : StubLayout} {m : IrqMachine H}

/-- The processor enters `irq_handler` with the number of the line that was acknowledged. -/
theorem accept_of_acknowledge (hs : m.int.Filled stubs) {fallen : Lines} {l : IrqLine}
    {pics : PicPair}
    (hack : m.int.pics.acknowledge fallen = some (PicPair.vector 32 40 l, pics)) :
    m.accept stubs fallen = some (some (.accept fallen (UInt8.ofNat l.number)),
      ⟨{ m.int with pics := pics, intFlag := false },
        .eoi (UInt8.ofNat l.number) (picSendEoi (UInt8.ofNat l.number))⟩) := by
  -- The gate is not checked against the ring of the interrupted code, so any ring will do.
  have hdeliver : m.int.deliver none (UInt8.ofNat (32 + l.number)) =
      .gate 0x08 (stubs.addr (.irq ⟨l.number, l.number_lt⟩)).toNat :=
    deliver_interrupt hs (.irq ⟨l.number, l.number_lt⟩) 0
  simp only [IrqMachine.accept, hack, vector_eq, Option.bind_eq_bind, Option.bind_some, hdeliver,
    stubAt_addr, irqOf_intNo]

/-! ## The invariant -/

/-- The controllers while `pic_send_eoi` has still to write `todo`. -/
inductive EoiLeft (p : PicPair) : List (ℕ × UInt8) → Prop
  | done (h : p.Idle 32 40) : EoiLeft p []
  | master (i : Fin 8) (h : p.Taken 32 40 p.waiting (.master i)) : EoiLeft p [(0x20, 0x20)]
  | slave (i : Fin 8) (h : p.Taken 32 40 p.waiting (.slave i)) :
      EoiLeft p [(0xA0, 0x20), (0x20, 0x20)]

/-- What is in service at each stage. -/
def IrqStage.Controls (p : PicPair) : IrqStage → Prop
  | .free => p.Idle 32 40
  | .eoi _ todo => EoiLeft p todo
  | .handler _ => p.Idle 32 40

structure IrqMachine.Inv (stubs : StubLayout) (m : IrqMachine H) : Prop where
  /-- The interrupt table is filled. -/
  filled : m.int.Filled stubs
  /-- Outside of handlers interrupts are on. -/
  flag : m.stage = .free → m.int.intFlag = true
  /-- The controllers are in the state that belongs to the stage. -/
  controls : m.stage.Controls m.int.pics

/-- What the controller with sixteen lines sees. -/
def IrqMachine.view (m : IrqMachine H) : IrqView H :=
  ⟨m.int.pics.waiting, m.int.handlerOf, m.stage.service⟩

/-- Edges do not disturb an end of interrupt under way. -/
theorem EoiLeft.edge {p : PicPair} {todo : List (ℕ × UInt8)} (h : EoiLeft p todo) (e : IrqEdge) :
    EoiLeft (p.edge e) todo := by
  have hwaiting := p.waiting_edge e
  cases h with
  | done h => exact .done (h.edge e)
  | master i h => exact .master i (hwaiting ▸ h.edge e)
  | slave i h => exact .slave i (hwaiting ▸ h.edge e)

/-- Edges do not move the processor. -/
theorem IrqStage.Controls.edge {p : PicPair} {stage : IrqStage} (h : stage.Controls p)
    (e : IrqEdge) : stage.Controls (p.edge e) := by
  cases stage with
  | free => exact PicPair.Idle.edge h e
  | eoi irq todo => exact EoiLeft.edge h e
  | handler irq => exact PicPair.Idle.edge h e

/-- `pic_send_eoi` has to report to each chip that has a line in service. -/
theorem eoiLeft_picSendEoi {p : PicPair} {w : IrqLine → Bool} {l : IrqLine}
    (h : p.Taken 32 40 w l) : EoiLeft p (picSendEoi (UInt8.ofNat l.number)) := by
  have hnum : (UInt8.ofNat l.number).toNat = l.number :=
    toNat_vector (l.number_lt.trans (by decide))
  have h' : p.Taken 32 40 p.waiting l := h.waiting ▸ h
  unfold picSendEoi
  rw [hnum]
  cases l with
  | master i =>
    rw [IrqLine.number, if_neg (not_le.mpr i.isLt)]
    exact .master i h'
  | slave i =>
    rw [IrqLine.number, if_pos (Nat.le_add_right 8 i)]
    exact .slave i h'

/-- A write of `pic_send_eoi` leaves the requests alone. -/
theorem EoiLeft.outb {p : PicPair} {x : ℕ × UInt8} {todo : List (ℕ × UInt8)}
    (h : EoiLeft p (x :: todo)) :
    ∃ p', p.outb x = some p' ∧ EoiLeft p' todo ∧ p'.waiting = p.waiting := by
  cases h with
  | master i h =>
    obtain ⟨p', hout, hidle, hwaiting⟩ := h.outb_master
    exact ⟨p', hout, .done hidle, hwaiting⟩
  | slave i h =>
    obtain ⟨p', hout, htaken⟩ := h.outb_slave
    have hwaiting := htaken.waiting
    rw [← hwaiting] at htaken
    exact ⟨p', hout, .master i htaken, hwaiting⟩

/-- Registering a handler for a line replaces the one that was there. -/
theorem handlerOf_irqRegister_of_lt (s : InterruptState H) {irq : UInt8} (h : irq.toNat < 16)
    (handler : H) :
    (irqRegister s irq handler).handlerOf = Function.update s.handlerOf irq (some handler) := by
  funext x
  unfold irqRegister InterruptState.handlerOf
  rw [dif_pos h, Function.update_apply]
  split_ifs with hx heq heq
  · subst heq
    exact Function.update_self ..
  · exact Function.update_of_ne (fun hfin => heq (UInt8.toNat_inj.mp (Fin.mk.inj hfin))) ..
  · exact absurd (heq ▸ h) hx
  · rfl

/-- Registering for a number that is no line does nothing. -/
theorem irqRegister_of_ge (s : InterruptState H) {irq : UInt8} (h : 16 ≤ irq.toNat) (handler : H) :
    irqRegister s irq handler = s := dif_neg h.not_gt

/-- `irq_register` changes nothing but the handlers. -/
theorem irqRegister_eq (s : InterruptState H) (irq : UInt8) (handler : H) :
    irqRegister s irq handler =
      { s with irqHandlers := (irqRegister s irq handler).irqHandlers } := by
  unfold irqRegister
  split_ifs <;> rfl

/-- The machine takes an event and keeps the invariant, by a step of the controller with sixteen
lines or by one that it does not see. -/
def IrqMachine.Simulates (stubs : StubLayout) (m : IrqMachine H) (e : IrqEvent H) : Prop :=
  ∃ out m', m.step stubs e = some (out, m') ∧ m'.Inv stubs ∧
    (out = none ∧ m'.view = m.view ∨ ∃ l, out = some l ∧ IrqStep m.view l m'.view)

namespace IrqMachine.Inv

variable {int : InterruptState H} {irq : UInt8}

/-- An edge is seen as an edge. -/
theorem step_edge (h : m.Inv stubs) (e : IrqEdge) : m.Simulates stubs (.edge e) := by
  have hstep := IrqStep.edge m.view e
  rw [show e.apply m.view.waiting = (m.int.pics.edge e).waiting from
    (m.int.pics.waiting_edge e).symm] at hstep
  exact ⟨_, _, rfl, ⟨⟨h.filled.idt, h.filled.limit⟩, h.flag, h.controls.edge e⟩,
    .inr ⟨_, rfl, hstep⟩⟩

/-- A registration is seen as a registration. -/
theorem step_register (h : Inv stubs ⟨int, .free⟩) (irq : UInt8) (handler : H) :
    Simulates stubs ⟨int, .free⟩ (.register irq handler) := by
  have hkeep := irqRegister_eq int irq handler
  refine ⟨_, _, rfl, ⟨?_, ?_, ?_⟩, .inr ⟨_, rfl, ?_⟩⟩
  · rw [hkeep]
    exact ⟨h.filled.idt, h.filled.limit⟩
  · rw [hkeep]
    exact h.flag
  · rw [hkeep]
    exact h.controls
  · -- `irq_register` ignores a number that no line has.
    rcases lt_or_ge irq.toNat 16 with hirq | hirq
    · have hstep := IrqStep.register (IrqMachine.view ⟨int, .free⟩) rfl irq handler hirq
      have hview : IrqMachine.view ⟨irqRegister int irq handler, .free⟩ =
          { IrqMachine.view ⟨int, .free⟩ with
            handlerOf := Function.update int.handlerOf irq (some handler) } := by
        rw [IrqMachine.view, handlerOf_irqRegister_of_lt int hirq, hkeep]
        rfl
      rw [hview]
      exact hstep
    · rw [irqRegister_of_ge int hirq]
      exact .refuse _ rfl irq handler hirq

/-- An interrupt is accepted: `irq_handler` is entered with the number of the line. -/
theorem exists_accept (h : Inv stubs ⟨int, .free⟩) (fallen : Lines) {l : IrqLine}
    (hl : l = PicPair.choose int.pics.waiting fallen) :
    ∃ pics, IrqMachine.step stubs ⟨int, .free⟩ (.cpu fallen) =
        some (some (.accept fallen (UInt8.ofNat l.number)),
          ⟨{ int with pics := pics, intFlag := false },
            .eoi (UInt8.ofNat l.number) (picSendEoi (UInt8.ofNat l.number))⟩) ∧
      Inv stubs ⟨{ int with pics := pics, intFlag := false },
        .eoi (UInt8.ofNat l.number) (picSendEoi (UInt8.ofNat l.number))⟩ ∧
      pics.waiting = PicPair.stay int.pics.waiting fallen l := by
  have hidle : int.pics.Idle 32 40 := h.controls
  obtain ⟨pics, hack, htaken⟩ := hidle.acknowledge fallen
  rw [← hl] at hack htaken
  exact ⟨pics, (if_pos (h.flag rfl)).trans (accept_of_acknowledge h.filled hack),
    ⟨⟨h.filled.idt, h.filled.limit⟩, by rintro ⟨⟩, eoiLeft_picSendEoi htaken⟩, htaken.waiting⟩

/-- The free processor accepts the first line that waits, or nothing happens. -/
theorem step_accept (h : Inv stubs ⟨int, .free⟩) (fallen : Lines) :
    Simulates stubs ⟨int, .free⟩ (.cpu fallen) := by
  obtain ⟨pics, hstep, hinv, hwaiting⟩ := h.exists_accept fallen rfl
  have hsees := IrqStep.accept (IrqMachine.view ⟨int, .free⟩) rfl fallen _ rfl
  rw [show (IrqMachine.view ⟨int, .free⟩).waiting = int.pics.waiting from rfl, ← hwaiting] at hsees
  exact ⟨_, _, hstep, hinv, .inr ⟨_, rfl, hsees⟩⟩

/-- A write of `pic_send_eoi` leaves the requests alone. -/
theorem exists_eoi {x : ℕ × UInt8} {todo : List (ℕ × UInt8)}
    (h : Inv stubs ⟨int, .eoi irq (x :: todo)⟩) (fallen : Lines) :
    ∃ pics, IrqMachine.step stubs ⟨int, .eoi irq (x :: todo)⟩ (.cpu fallen) =
        some (none, ⟨{ int with pics := pics }, .eoi irq todo⟩) ∧
      Inv stubs ⟨{ int with pics := pics }, .eoi irq todo⟩ ∧ pics.waiting = int.pics.waiting := by
  obtain ⟨pics, hout, hleft, hwaiting⟩ := EoiLeft.outb h.controls
  refine ⟨pics, ?_, ⟨⟨h.filled.idt, h.filled.limit⟩, by rintro ⟨⟩, hleft⟩, hwaiting⟩
  simp only [IrqMachine.step, hout]
  rfl

/-- A write of the end of interrupt is not seen. -/
theorem step_eoi {x : ℕ × UInt8} {todo : List (ℕ × UInt8)}
    (h : Inv stubs ⟨int, .eoi irq (x :: todo)⟩) (fallen : Lines) :
    Simulates stubs ⟨int, .eoi irq (x :: todo)⟩ (.cpu fallen) := by
  obtain ⟨pics, hstep, hinv, hwaiting⟩ := h.exists_eoi fallen
  refine ⟨_, _, hstep, hinv, .inl ⟨rfl, ?_⟩⟩
  simp only [IrqMachine.view, hwaiting]
  rfl

/-- Both chips have been told, so nothing is in service when the handler is called. -/
theorem idle_of_eoi (h : Inv stubs ⟨int, .eoi irq []⟩) : int.pics.Idle 32 40 := by
  cases h.controls with
  | done hidle => exact hidle

/-- After the last write the handler is called. -/
theorem step_call (h : Inv stubs ⟨int, .eoi irq []⟩) (fallen : Lines) :
    Simulates stubs ⟨int, .eoi irq []⟩ (.cpu fallen) := by
  have hidle := h.idle_of_eoi
  cases hh : int.handlerOf irq with
  | some f =>
    refine ⟨some (.call f), ⟨int, .handler irq⟩, ?_,
      ⟨⟨h.filled.idt, h.filled.limit⟩, by rintro ⟨⟩, hidle⟩, .inr ⟨_, rfl, ?_⟩⟩
    · simp only [IrqMachine.step, hh]
    · exact .call (IrqMachine.view ⟨int, .eoi irq []⟩) irq rfl f hh
  | none =>
    refine ⟨some .ret, ⟨{ int with intFlag := true }, .free⟩, ?_,
      ⟨⟨h.filled.idt, h.filled.limit⟩, fun _ => rfl, hidle⟩, .inr ⟨_, rfl, ?_⟩⟩
    · simp only [IrqMachine.step, hh]
    · exact .skip (IrqMachine.view ⟨int, .eoi irq []⟩) irq rfl hh

/-- The return of the handler ends the service. -/
theorem step_return (h : Inv stubs ⟨int, .handler irq⟩) (fallen : Lines) :
    Simulates stubs ⟨int, .handler irq⟩ (.cpu fallen) :=
  ⟨_, _, rfl, ⟨⟨h.filled.idt, h.filled.limit⟩, fun _ => rfl, h.controls⟩,
    .inr ⟨_, rfl, .ret (IrqMachine.view ⟨int, .handler irq⟩) irq rfl⟩⟩

/-- Every event is a step of the abstract machine, or is not seen. -/
theorem step (h : m.Inv stubs) (e : IrqEvent H) : m.Simulates stubs e := by
  obtain ⟨int, stage⟩ := m
  cases e with
  | edge e => exact h.step_edge e
  | register irq handler =>
    cases stage with
    | free => exact h.step_register irq handler
    | eoi irq todo => exact ⟨none, _, rfl, h, .inl ⟨rfl, rfl⟩⟩
    | handler irq => exact ⟨none, _, rfl, h, .inl ⟨rfl, rfl⟩⟩
  | cpu fallen =>
    cases stage with
    | free => exact h.step_accept fallen
    | eoi irq todo =>
      cases todo with
      | nil => exact h.step_call fallen
      | cons x todo => exact h.step_eoi fallen
    | handler irq => exact h.step_return fallen

end IrqMachine.Inv

/-! ## Runs -/

/-- What the controller with sixteen lines sees after `idt_init`. -/
def IrqView.boot : IrqView H := ⟨fun _ => false, fun _ => none, .free⟩

/-- A whole run of the machine is a run of the abstract one. -/
theorem IrqMachine.Inv.run (h : m.Inv stubs) (events : List (IrqEvent H)) :
    ∃ outs m', feed (IrqMachine.step stubs) m events = some (outs, m') ∧ m'.Inv stubs ∧
      Run IrqStep m.view outs.reduceOption m'.view := by
  refine exists_feed_concat
    (fun _ outs (m' : IrqMachine H) => m'.Inv stubs ∧ Run IrqStep m.view outs.reduceOption m'.view)
    ⟨h, .nil _⟩ (fun _ outs m' e hm' => ?_) events
  obtain ⟨hinv, hrun⟩ := hm'
  obtain ⟨out, m'', hstep, hinv', hsees⟩ := hinv.step e
  refine ⟨out, m'', hstep, hinv', ?_⟩
  rw [← List.concat_eq_append, List.reduceOption_concat]
  rcases hsees with ⟨rfl, hview⟩ | ⟨l, rfl, hl⟩
  · -- A step that the controller with sixteen lines does not see.
    rw [hview, Option.toList_none, List.append_nil]
    exact hrun
  · exact hrun.snoc hl

/-- The machine as `idt_init` leaves it. -/
theorem exists_boot (stubs : StubLayout) (idtAddr : UInt32) (s : InterruptState H) :
    ∃ s', idtInit stubs idtAddr s = some s' ∧ IrqMachine.Inv stubs ⟨s', .free⟩ ∧
      IrqMachine.view ⟨s', .free⟩ = .boot := by
  obtain ⟨s', hinit, hfilled, hflag, hidle, hwaiting, hhandlers⟩ := exists_idtInit stubs idtAddr s
  refine ⟨s', hinit, ⟨hfilled, fun _ => hflag, hidle⟩, ?_⟩
  have hnone : s'.handlerOf = fun _ => none := by
    funext irq
    unfold InterruptState.handlerOf
    rw [hhandlers]
    split_ifs <;> rfl
  rw [IrqMachine.view, IrqView.boot, hwaiting, hnone]
  rfl

/-- From the line to the handler. After `idt_init`, whatever state the controllers were in before
and however edges on the lines and calls of `irq_register` come between the steps of the processor,
the machine does what one controller with sixteen lines does that forgets a request when it is
accepted. No line is masked or in service when a handler is called, so that interrupts go on even if
it does not return. -/
theorem irq_refines (stubs : StubLayout) (idtAddr : UInt32) (s : InterruptState H)
    (events : List (IrqEvent H)) :
    ∃ s' outs m, idtInit stubs idtAddr s = some s' ∧
      feed (IrqMachine.step stubs) ⟨s', .free⟩ events = some (outs, m) ∧
      Run IrqStep .boot outs.reduceOption m.view ∧
      (∀ irq, m.stage = .handler irq → m.int.pics.Idle 32 40) := by
  obtain ⟨s', hinit, hinv, hview⟩ := exists_boot stubs idtAddr s
  obtain ⟨outs, m, hfeed, hm, hrun⟩ := hinv.run events
  refine ⟨s', outs, m, hinit, hfeed, hview ▸ hrun, fun irq hstage => ?_⟩
  have hcontrols := hm.controls
  rw [hstage] at hcontrols
  exact hcontrols

end Lightstreak
