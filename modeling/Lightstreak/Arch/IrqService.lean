import Lightstreak.Arch.Irq

/-!
# What becomes of a request (`kernel/arch/irq.c`)

Two consequences of `IrqMachine.Inv.run`, for whole runs from `idt_init` on. The first follows one
line through the labels of a run of the controller with sixteen lines; the second runs the processor
until no request waits.

* `irq_accounted`: an interrupt is accepted only for a request, at most once for each edge, and an
  edge is not lost;
* `irqs_served`: the requests that wait are served in the order of their priorities, and then none
  waits.
-/

namespace Lightstreak

open SysLib

variable {H : Type} {l : IrqLine}

/-! ## Stubs at given addresses -/

/-- Each vector that has a stub enters the one that pushes its number. -/
theorem stubOf_intNo (st : Stub) : stubOf (UInt8.ofNat st.intNo) = some st := by
  cases st with
  | isr n => exact stubOf_vector (.exception n 0)
  | isr128 => exact stubOf_vector .syscall
  | irq k => exact stubOf_vector (.irq k)

/-- Stubs are known by the vector they push. -/
theorem Stub.intNo_injective : Function.Injective Stub.intNo := by
  intro st st' h
  have hstub := stubOf_intNo st
  rw [h, stubOf_intNo] at hstub
  exact (Option.some.inj hstub).symm

/-- The vector fits the word that is pushed. -/
theorem toNat_intNo (st : Stub) : (UInt32.ofNat st.intNo).toNat = st.intNo := by
  have hlt : st.intNo < 2 ^ 32 := by
    cases st with
    | isr n => exact n.isLt.trans (by decide)
    | isr128 => decide
    | irq k => exact (Nat.add_lt_add_left k.isLt 32).trans (by decide)
  rw [UInt32.toNat_ofNat']
  exact Nat.mod_eq_of_lt hlt

/-- The numbers that the stubs push are different. -/
theorem injective_ofNat_intNo : Function.Injective fun st : Stub => UInt32.ofNat st.intNo := by
  intro st st' h
  refine Stub.intNo_injective ?_
  rw [← toNat_intNo st, ← toNat_intNo st']
  exact congrArg UInt32.toNat h

/-- Stubs at the addresses that are their numbers. -/
def packedStubs : StubLayout := ⟨fun st => UInt32.ofNat st.intNo, injective_ofNat_intNo⟩

/-- Before `idt_init`, with one kind of handler. -/
def coldInterrupts : InterruptState Unit :=
  ⟨noGates, ⟨0, 0⟩, false, fun _ => none, foreignPics⟩

/-! ## Accounts of a line -/

/-- An edge that requests the line. -/
def IrqLabel.raises (l : IrqLine) : IrqLabel H → Bool
  | .edge (.raise l') => l' == l
  | _ => false

/-- An interrupt of the line is accepted. -/
def IrqLabel.accepts (l : IrqLine) : IrqLabel H → Bool
  | .accept _ irq => irq.toNat == l.number
  | _ => false

/-- The request of the line goes away. -/
def IrqLabel.withdraws (l : IrqLine) : IrqLabel H → Bool
  | .edge (.fall l') => l' == l
  | .accept fallen _ => PicPair.fell fallen l
  | _ => false

/-- The acceptance of a line concerns this line only. -/
theorem accepts_accept_iff (fallen : Lines) (l' : IrqLine) :
    (IrqLabel.accept fallen (UInt8.ofNat l'.number) : IrqLabel H).accepts l = true ↔ l' = l := by
  have hnum : (UInt8.ofNat l'.number).toNat = l'.number :=
    toNat_vector (l'.number_lt.trans (by decide))
  rw [IrqLabel.accepts, hnum, beq_iff_eq]
  exact IrqLine.number_injective.eq_iff

/-- One step: an interrupt of the line uses up a request, and only an edge makes one. -/
theorem IrqStep.account {v v' : IrqView H} {x : IrqLabel H} (h : IrqStep v x v')
    (hm : l ≠ .master 7) (hs : l ≠ .slave 7) :
    (x.accepts l).toNat + (v'.waiting l).toNat ≤ (x.raises l).toNat + (v.waiting l).toNat := by
  cases h with
  | edge e =>
    by_cases he : e.line = l
    · cases e with
      | raise l' =>
        -- The line may have been requested already: a second edge makes no second request.
        have hone : ((IrqLabel.edge (.raise l') : IrqLabel H).raises l).toNat = 1 := by
          rw [IrqLabel.raises, show l' = l from he, beq_self_eq_true, Bool.toNat_true]
        have hle := Bool.toNat_le ((IrqEdge.raise l').apply v.waiting l)
        have hzero : ((IrqLabel.edge (.raise l') : IrqLabel H).accepts l).toNat = 0 := rfl
        dsimp only
        omega
      | fall l' =>
        have hgone : (IrqEdge.fall l').apply v.waiting l = false := by
          rw [show l = l' from he.symm]
          exact Function.update_self ..
        dsimp only
        rw [hgone]
        exact Nat.zero_le _
    · dsimp only
      rw [e.apply_of_ne v.waiting he]
      exact Nat.add_le_add_right (Nat.zero_le _) _
  | accept hv fallen l' hl =>
    by_cases hll : l' = l
    · -- The line was requested, and is not any more.
      obtain ⟨hw, -⟩ := PicPair.waiting_of_choose (hll ▸ hl) hm hs
      have hgone : PicPair.stay v.waiting fallen l' l = false := by
        rw [PicPair.stay, hll, bne_self_eq_false, Bool.and_false]
      have hone := Bool.toNat_le
        ((IrqLabel.accept fallen (UInt8.ofNat l'.number) : IrqLabel H).accepts l)
      dsimp only
      rw [hgone, hw]
      exact hone.trans (Nat.le_add_left _ _)
    · have hzero :
          (IrqLabel.accept fallen (UInt8.ofNat l'.number) : IrqLabel H).accepts l = false :=
        Bool.eq_false_iff.mpr fun h => hll ((accepts_accept_iff fallen l').mp h)
      have hstay : (PicPair.stay v.waiting fallen l' l).toNat ≤ (v.waiting l).toNat := by
        unfold PicPair.stay
        cases v.waiting l with
        | false => exact le_of_eq rfl
        | true => exact Bool.toNat_le _
      rw [hzero]
      exact Nat.add_le_add (Nat.zero_le _) hstay
  | register => exact le_of_eq rfl
  | refuse => exact le_of_eq rfl
  | call => exact le_of_eq rfl
  | skip => exact le_of_eq rfl
  | ret => exact le_of_eq rfl

/-- One step: a request that is not withdrawn is accepted or stays. -/
theorem IrqStep.keeps {v v' : IrqView H} {x : IrqLabel H} (h : IrqStep v x v')
    (hw : v.waiting l = true) (hx : x.withdraws l = false) :
    x.accepts l = true ∨ v'.waiting l = true := by
  cases h with
  | edge e =>
    right
    -- Only a falling edge of the line itself withdraws the request.
    by_cases he : e.line = l
    · cases e with
      | raise l' =>
        dsimp only [IrqEdge.apply]
        split_ifs
        · exact hw
        · rw [show l' = l from he, Function.update_self]
      | fall l' =>
        rw [IrqLabel.withdraws, show l' = l from he, beq_self_eq_true] at hx
        cases hx
    · rw [← hw]
      exact e.apply_of_ne v.waiting he
  | accept hv fallen l' hl =>
    -- Either this line is accepted, or it goes on waiting behind the one that is.
    by_cases hll : l' = l
    · exact .inl ((accepts_accept_iff fallen l').mpr hll)
    · right
      have hfell : PicPair.fell fallen l = false := hx
      dsimp only [PicPair.stay]
      rw [hw, hfell, bne_iff_ne.mpr (Ne.symm hll)]
      rfl
  | register => exact .inr hw
  | refuse => exact .inr hw
  | call => exact .inr hw
  | skip => exact .inr hw
  | ret => exact .inr hw

/-- The accounts of a line over a run. -/
theorem count_accepts_le {v v' : IrqView H} {xs : List (IrqLabel H)} (h : Run IrqStep v xs v')
    (hm : l ≠ .master 7) (hs : l ≠ .slave 7) :
    xs.countP (IrqLabel.accepts l) + (v'.waiting l).toNat ≤
      xs.countP (IrqLabel.raises l) + (v.waiting l).toNat := by
  refine h.invariant (fun xs v' => xs.countP (IrqLabel.accepts l) + (v'.waiting l).toNat ≤
    xs.countP (IrqLabel.raises l) + (v.waiting l).toNat) le_rfl ?_
  intro xs t x u hxs hstep
  have hone := hstep.account hm hs
  have hcount : ∀ p : IrqLabel H → Bool, (xs ++ [x]).countP p = xs.countP p + (p x).toNat := by
    intro p
    rw [List.countP_append, List.countP_singleton]
    cases p x <;> rfl
  rw [hcount, hcount]
  omega

/-- Since an edge that requests the line, it was accepted or waits, unless it was withdrawn. -/
theorem accepted_or_waiting {v v' : IrqView H} {xs : List (IrqLabel H)} (h : Run IrqStep v xs v')
    (h2 : l ≠ .master 2) {pre post : List (IrqLabel H)}
    (hxs : xs = pre ++ .edge (.raise l) :: post)
    (hpost : ∀ x ∈ post, x.withdraws l = false) :
    (∃ x ∈ post, x.accepts l = true) ∨ v'.waiting l = true := by
  subst hxs
  refine h.since (fun post v' => (∀ x ∈ post, x.withdraws l = false) →
    (∃ x ∈ post, x.accepts l = true) ∨ v'.waiting l = true) ?_ ?_ hpost
  · -- The edge itself makes the request.
    intro t u hstep _
    cases hstep with
    | edge e =>
      right
      dsimp only [IrqEdge.apply]
      rw [if_neg h2, Function.update_self]
  · intro post t x u ih hstep hpost
    have hlater : (∃ z ∈ post, z.accepts l = true) ∨ t.waiting l = true :=
      ih fun z hz => hpost z (List.mem_append_left _ hz)
    rcases hlater with ⟨z, hz, haccepts⟩ | hwaiting
    · exact .inl ⟨z, List.mem_append_left _ hz, haccepts⟩
    · rcases hstep.keeps hwaiting (hpost x (by simp)) with haccepts | hwaiting'
      · exact .inl ⟨x, by simp, haccepts⟩
      · exact .inr hwaiting'

/-- No request is lost or invented. In every run from `idt_init` on, under every interleaving of
edges with the steps of the processor, the interrupts of a line that are accepted and the request
that waits are together at most as many as the edges on the line; and since each edge an interrupt
of the line was accepted or its request waits, unless it was withdrawn. Line 7 of each chip is left
out because it also reports requests that have gone away, and line 2 of the first chip because the
second chip is on it. -/
theorem irq_accounted (stubs : StubLayout) (idtAddr : UInt32) (s : InterruptState H)
    (events : List (IrqEvent H)) (l : IrqLine) (h2 : l ≠ .master 2) (hm : l ≠ .master 7)
    (hs : l ≠ .slave 7) :
    ∃ s' outs m, idtInit stubs idtAddr s = some s' ∧
      feed (IrqMachine.step stubs) ⟨s', .free⟩ events = some (outs, m) ∧
      outs.reduceOption.countP (IrqLabel.accepts l) + (m.int.pics.waiting l).toNat ≤
        outs.reduceOption.countP (IrqLabel.raises l) ∧
      ∀ pre post, outs.reduceOption = pre ++ .edge (.raise l) :: post →
        (∀ x ∈ post, x.withdraws l = false) →
        (∃ x ∈ post, x.accepts l = true) ∨ m.int.pics.waiting l = true := by
  obtain ⟨s', hinit, hinv, hview⟩ := exists_boot stubs idtAddr s
  obtain ⟨outs, m, hfeed, -, hrun⟩ := hinv.run events
  rw [hview] at hrun
  exact ⟨s', outs, m, hinit, hfeed, count_accepts_le hrun hm hs,
    fun pre post hxs hpost => accepted_or_waiting hrun h2 hxs hpost⟩

/-- A tick of the timer, which comes again while `pic_send_eoi` runs. -/
theorem irq_accounted_timer :
    ∃ s' outs m, idtInit packedStubs 0 coldInterrupts = some s' ∧
      feed (IrqMachine.step packedStubs) ⟨s', .free⟩
        [.register 0 (), .edge (.raise (.master 0)), .cpu (.only none),
          .edge (.raise (.master 0)), .cpu (.only none)] = some (outs, m) ∧
      outs.reduceOption.countP (IrqLabel.accepts (.master 0)) +
        (m.int.pics.waiting (.master 0)).toNat ≤
        outs.reduceOption.countP (IrqLabel.raises (.master 0)) := by
  obtain ⟨s', outs, m, hinit, hfeed, hcount, -⟩ := irq_accounted packedStubs 0 coldInterrupts
    [.register 0 (), .edge (.raise (.master 0)), .cpu (.only none), .edge (.raise (.master 0)),
      .cpu (.only none)] (.master 0) (by decide) (by decide) (by decide)
  exact ⟨s', outs, m, hinit, hfeed, hcount⟩

/-! ## Service -/

/-- A step of the processor while the lines are quiet. -/
abbrev quietStep : IrqEvent H := .cpu (.only none)

/-- What follows when `irq_handler` has been entered. -/
def serviceLabels (handlerOf : UInt8 → Option H) (irq : UInt8) : List (IrqLabel H) :=
  (handlerOf irq).elim [.ret] fun h => [.call h, .ret]

variable {stubs : StubLayout} {int : InterruptState H} {irq : UInt8}

/-- `irq_handler` comes to its end. -/
theorem IrqMachine.Inv.finish {todo : List (ℕ × UInt8)} (h : Inv stubs ⟨int, .eoi irq todo⟩) :
    ∃ n outs int', n ≤ todo.length + 2 ∧
      feed (IrqMachine.step stubs) ⟨int, .eoi irq todo⟩ (List.replicate n quietStep) =
        some (outs, ⟨int', .free⟩) ∧ Inv stubs ⟨int', .free⟩ ∧
      int'.pics.waiting = int.pics.waiting ∧ int'.handlerOf = int.handlerOf ∧
      outs.reduceOption = serviceLabels int.handlerOf irq := by
  induction todo generalizing int with
  | nil =>
    have hinv : Inv stubs ⟨{ int with intFlag := true }, .free⟩ :=
      ⟨⟨h.filled.idt, h.filled.limit⟩, fun _ => rfl, h.idle_of_eoi⟩
    cases hh : int.handlerOf irq with
    | some f =>
      have hcall : IrqMachine.step stubs ⟨int, .eoi irq []⟩ quietStep =
          some (some (.call f), ⟨int, .handler irq⟩) := by
        simp only [IrqMachine.step, hh]
      refine ⟨2, [some (.call f), some .ret], _, le_rfl, ?_, hinv, rfl, rfl, ?_⟩
      · rw [List.replicate_succ, feed_cons_of_some hcall]
        rfl
      · rw [serviceLabels, hh]
        rfl
    | none =>
      have hret : IrqMachine.step stubs ⟨int, .eoi irq []⟩ quietStep =
          some (some .ret, ⟨{ int with intFlag := true }, .free⟩) := by
        simp only [IrqMachine.step, hh]
      refine ⟨1, [some .ret], _, by decide, ?_, hinv, rfl, rfl, ?_⟩
      · rw [List.replicate_succ, feed_cons_of_some hret]
        rfl
      · rw [serviceLabels, hh]
        rfl
  | cons x todo ih =>
    -- One write of `pic_send_eoi`, then the rest.
    obtain ⟨pics, hstep, hinv, hwaiting⟩ := h.exists_eoi (.only none)
    obtain ⟨n, outs, int', hn, hfeed, hinv', hwaiting', hhandlers, houts⟩ := ih hinv
    refine ⟨n + 1, none :: outs, int', ?_, ?_, hinv', hwaiting'.trans hwaiting, hhandlers, houts⟩
    · rw [List.length_cons]
      omega
    · rw [List.replicate_succ, feed_cons_of_some hstep, hfeed]
      rfl

/-- The end of an interrupt takes one write, or two for the slave. -/
theorem length_picSendEoi_le (irq : UInt8) : (picSendEoi irq).length ≤ 2 := by
  unfold picSendEoi
  split_ifs <;> decide

/-- The first request in the order of the priorities is served, within five steps. -/
theorem IrqMachine.Inv.serve (h : Inv stubs ⟨int, .free⟩)
    (hl : IrqLine.order.find? int.pics.waiting = some l) :
    ∃ n outs int', n ≤ 5 ∧
      feed (IrqMachine.step stubs) ⟨int, .free⟩ (List.replicate n quietStep) =
        some (outs, ⟨int', .free⟩) ∧ Inv stubs ⟨int', .free⟩ ∧
      int'.pics.waiting = PicPair.stay int.pics.waiting (.only none) l ∧
      int'.handlerOf = int.handlerOf ∧
      outs.reduceOption = .accept (.only none) (UInt8.ofNat l.number) ::
        serviceLabels int.handlerOf (UInt8.ofNat l.number) := by
  obtain ⟨pics, hstep, hinv, hwaiting⟩ :=
    h.exists_accept (.only none) (PicPair.choose_of_find? hl).symm
  -- After the acceptance the service is completed: the writes to the controllers, the handler and
  -- its return.
  obtain ⟨n, outs, int', hn, hfeed, hinv', hwaiting', hhandlers, houts⟩ := hinv.finish
  have hlength := length_picSendEoi_le (UInt8.ofNat l.number)
  refine ⟨n + 1, some (.accept (.only none) (UInt8.ofNat l.number)) :: outs, int', by omega, ?_,
    hinv', hwaiting'.trans hwaiting, hhandlers, ?_⟩
  · rw [List.replicate_succ, feed_cons_of_some hstep, hfeed]
    rfl
  · rw [List.reduceOption_cons_of_some, houts]
    rfl

/-- The requests after the first one, in the order of the priorities. -/
theorem filter_stay {w : IrqLine → Bool} {ls : List IrqLine}
    (h : IrqLine.order.filter w = l :: ls) :
    IrqLine.order.filter (PicPair.stay w (.only none) l) = ls := by
  have hstay : PicPair.stay w (.only none) l = fun x => x != l && w x := by
    funext x
    have hfell : PicPair.fell (.only none) x = false := by cases x <;> rfl
    rw [PicPair.stay, hfell, Bool.not_false, Bool.and_true, Bool.and_comm]
  have hnodup : (l :: ls).Nodup := h ▸ IrqLine.nodup_order.filter w
  rw [hstay, ← List.filter_filter, h, List.filter_cons_of_neg (by simp)]
  refine List.filter_eq_self.mpr fun x hx => bne_iff_ne.mpr ?_
  rintro rfl
  exact (List.nodup_cons.mp hnodup).1 hx

/-- All requests are served. -/
theorem IrqMachine.Inv.serveAll {ls : List IrqLine} (h : Inv stubs ⟨int, .free⟩)
    (hls : IrqLine.order.filter int.pics.waiting = ls) :
    ∃ n outs int', n ≤ 5 * ls.length ∧
      feed (IrqMachine.step stubs) ⟨int, .free⟩ (List.replicate n quietStep) =
        some (outs, ⟨int', .free⟩) ∧
      IrqLine.order.filter int'.pics.waiting = [] ∧
      outs.reduceOption = ls.flatMap fun l => .accept (.only none) (UInt8.ofNat l.number) ::
        serviceLabels int.handlerOf (UInt8.ofNat l.number) := by
  -- By induction on the requests that wait.
  induction ls generalizing int with
  | nil => exact ⟨0, [], int, le_rfl, rfl, hls, rfl⟩
  | cons l ls ih =>
    have hfirst : IrqLine.order.find? int.pics.waiting = some l := by
      rw [← List.head?_filter, hls]
      rfl
    obtain ⟨n, outs, int', hn, hfeed, hinv, hwaiting, hhandlers, houts⟩ := h.serve hfirst
    obtain ⟨n', outs', int'', hn', hfeed', hnone, houts'⟩ :=
      ih hinv (by rw [hwaiting]; exact filter_stay hls)
    refine ⟨n + n', outs ++ outs', int'', ?_, ?_, hnone, ?_⟩
    · rw [List.length_cons]
      omega
    · rw [List.replicate_add, feed_append, hfeed, Option.bind_some, hfeed']
      rfl
    · rw [List.reduceOption_append, houts, houts', hhandlers]
      rfl

/-- Every request is served. After every run from `idt_init` on that has come back to the
interrupted code, if the lines stay quiet then within five steps of the processor for each request
`irq_handler` has been entered for all lines that are requested, each once and in the order of the
priorities, with the handlers that are registered called, and no request waits any more. -/
theorem irqs_served (stubs : StubLayout) (idtAddr : UInt32) (s : InterruptState H)
    (events : List (IrqEvent H)) :
    ∃ s' outs m, idtInit stubs idtAddr s = some s' ∧
      feed (IrqMachine.step stubs) ⟨s', .free⟩ events = some (outs, m) ∧
      (m.stage = .free → ∃ n outs' m',
        n ≤ 5 * (IrqLine.order.filter m.int.pics.waiting).length ∧
        feed (IrqMachine.step stubs) m (List.replicate n quietStep) = some (outs', m') ∧
        m'.stage = .free ∧ (∀ l, m'.int.pics.waiting l = false) ∧
        outs'.reduceOption = (IrqLine.order.filter m.int.pics.waiting).flatMap fun l =>
          .accept (.only none) (UInt8.ofNat l.number) ::
            serviceLabels m.int.handlerOf (UInt8.ofNat l.number)) := by
  obtain ⟨s', hinit, hinv, -⟩ := exists_boot stubs idtAddr s
  obtain ⟨outs, m, hfeed, hm, -⟩ := hinv.run events
  refine ⟨s', outs, m, hinit, hfeed, fun hstage => ?_⟩
  obtain ⟨int, stage⟩ := m
  obtain rfl : stage = .free := hstage
  obtain ⟨n, outs', int', hn, hfeed', hnone, houts⟩ := hm.serveAll rfl
  refine ⟨n, outs', ⟨int', .free⟩, hn, hfeed', rfl, fun l => ?_, houts⟩
  -- Line 2 of the first chip is not among the priorities, but nothing waits there.
  by_cases hl : l = .master 2
  · rw [hl]
    exact int'.pics.waiting_master_two
  · exact Bool.eq_false_iff.mpr (List.filter_eq_nil_iff.mp hnone l (IrqLine.mem_order hl))

end Lightstreak
