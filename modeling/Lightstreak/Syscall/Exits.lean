import Lightstreak.Proc.RoundRobin
import Lightstreak.Syscall.Dispatch

/-!
# The order of the exits

The timer interrupt of `kernel/kernel.c` does not call the scheduler, so that a process runs until
it exits. `sys_exit` leaves the zombie in the ring and switches to the next READY process; if there
is none, the machine halts.

* `ExitInv.exit`: one exit hands the machine to the next process of the ring, or halts it;
* `exits_in_turn`: along every run of timer interrupts and system calls, the processes exit in the
  order of the ring, each with its own exit code, and the machine halts with the last one.
-/

namespace Lightstreak

open SysLib

variable {P : Type} [DecidableEq P]

/-- The exit codes that the `SYS_EXIT` calls among the events pass. -/
def exitCodes (events : List KernelEvent) : List ℤ :=
  events.filterMap fun e =>
    match e with
    | .timerIrq => none
    | .syscall a => if a.eax.toNat = 1 then some (toInt32 a.ebx.toNat) else none

/-- The first processes of the ring `l` have exited with the given codes, the next one runs and the
ones behind it wait. The machine halts when all have exited. -/
structure ExitInv (k : KernelState P) (l : List P) (codes : List ℤ) : Prop where
  /-- The processes are a ring, in the order in which they exit. -/
  ring : Ring.IsRing k.sched.next l
  /-- The head of the queue is in the ring. -/
  queue : ∃ h ∈ l, k.sched.runQueue = some h
  /-- There are not more exits than processes. -/
  le : codes.length ≤ l.length
  /-- The machine has halted once all processes have exited. -/
  halted : k.halted = true ↔ codes.length = l.length
  /-- The processes that have exited are zombies. -/
  exited : ∀ p ∈ l.take codes.length, k.sched.state p = .zombie
  /-- Each of them has the code it exited with. -/
  exitCode : (l.take codes.length).map k.sched.exitCode = codes
  /-- The next one is running. -/
  current : ∀ p ∈ l[codes.length]?, k.sched.current = some p ∧ k.sched.state p = .running
  /-- The others are ready. -/
  waiting : ∀ p ∈ l.drop (codes.length + 1), k.sched.state p = .ready

variable {k k' : KernelState P} {l : List P} {codes : List ℤ} {fuel : ℕ} {a : SyscallArgs}

/-- Before the first exit the invariant says that the processes are in turn. -/
theorem exitInv_of_inTurn (ht : InTurn k.sched l) (hlive : k.halted = false) :
    ExitInv k l [] := by
  obtain ⟨h, hmem, hrq⟩ := ht.queue
  obtain ⟨c, t, rfl⟩ := List.exists_cons_of_ne_nil (List.ne_nil_of_mem hmem)
  have hcur : k.sched.current = some c := ht.current
  refine ⟨ht.ring, ⟨h, hmem, hrq⟩, Nat.zero_le _, by simp [hlive], by simp, rfl, fun p hp => ?_,
    fun p hp => ?_⟩
  · obtain rfl : c = p := Option.some.inj hp
    exact ⟨hcur, by rw [ht.state c (by simp), if_pos hcur]⟩
  · have hp' : p ∈ t := hp
    have hpc : c ≠ p := fun heq => (List.nodup_cons.mp ht.ring.nodup).1 (heq ▸ hp')
    rw [ht.state p (List.mem_cons_of_mem c hp'), hcur, if_neg (by simpa using hpc)]

omit [DecidableEq P] in
/-- The invariant when the process `c` behind those that have exited is one of them now. -/
theorem exitInv_concat {s : SchedState P} {done waiting : List P} {c : P} {code : ℤ} {halted : Bool}
    (hdone : done.length = codes.length) (hring : Ring.IsRing s.next (done ++ c :: waiting))
    (hqueue : ∃ h ∈ done ++ c :: waiting, s.runQueue = some h)
    (hhalted : halted = true ↔ waiting = [])
    (hexited : ∀ p ∈ done ++ [c], s.state p = .zombie)
    (hcodes : (done ++ [c]).map s.exitCode = codes ++ [code])
    (hcur : ∀ p ∈ waiting.head?, s.current = some p ∧ s.state p = .running)
    (hwaiting : ∀ p ∈ waiting.tail, s.state p = .ready) :
    ExitInv { k with sched := s, halted := halted } (done ++ c :: waiting) (codes ++ [code]) := by
  -- With one more exit, the list is cut one place further.
  have hlen : (codes ++ [code]).length = (done ++ [c]).length := by simp [hdone]
  have hsplit : done ++ c :: waiting = (done ++ [c]) ++ waiting := by simp
  have htotal : (done ++ c :: waiting).length = (done ++ [c]).length + waiting.length := by
    rw [hsplit]
    exact List.length_append
  have htake : (done ++ c :: waiting).take (codes ++ [code]).length = done ++ [c] := by
    rw [hsplit, hlen, List.take_left]
  have hget : (done ++ c :: waiting)[(codes ++ [code]).length]? = waiting.head? := by
    rw [hsplit, hlen, List.getElem?_append_right le_rfl, Nat.sub_self, List.head?_eq_getElem?]
  have hdrop : (done ++ c :: waiting).drop ((codes ++ [code]).length + 1) = waiting.tail := by
    rw [hsplit, hlen, ← List.drop_drop, List.drop_left, List.drop_one]
  refine ⟨hring, hqueue, ?_, ?_, ?_, ?_, ?_, ?_⟩
  · rw [hlen, htotal]
    exact Nat.le_add_right _ _
  · rw [hlen, htotal, Nat.left_eq_add, List.length_eq_zero_iff]
    exact hhalted
  · rwa [htake]
  · rwa [htake]
  · rwa [hget]
  · rwa [hdrop]

/-! ## One exit -/

/-- The scheduler when `sys_exit` of the process `c` calls `scheduler_tick`: `c` is a zombie like
the processes in front of it, and the ones behind it wait. -/
structure Exiting (s : SchedState P) (done : List P) (c : P) (waiting : List P)
    (codes : List ℤ) : Prop where
  /-- The ring has the processes that have exited, then `c`, then those that wait. -/
  ring : Ring.IsRing s.next (done ++ c :: waiting)
  /-- The run queue leads to the ring. -/
  queue : ∃ h ∈ done ++ c :: waiting, s.runQueue = some h
  /-- `c` is still current. -/
  current : s.current = some c
  /-- `c` and the processes in front of it are zombies. -/
  exited : ∀ p ∈ done ++ [c], s.state p = .zombie
  /-- They have these exit codes. -/
  exitCode : (done ++ [c]).map s.exitCode = codes
  /-- The others are ready. -/
  waiting : ∀ p ∈ waiting, s.state p = .ready

/-- `sys_exit` up to its call of `scheduler_tick`. -/
theorem ExitInv.exiting (hi : ExitInv k l codes) (hlive : k.halted = false) (code : ℤ) :
    ∃ done c waiting, done.length = codes.length ∧ l = done ++ c :: waiting ∧
      k.sched.current = some c ∧
      Exiting ((k.sched.setState c .zombie).setExitCode c code) done c waiting
        (codes ++ [code]) := by
  have hlt : codes.length < l.length :=
    lt_of_le_of_ne hi.le fun h => by simp [hi.halted.mpr h] at hlive
  obtain ⟨done, c, waiting, hdone, rfl⟩ : ∃ done c waiting, done.length = codes.length ∧
      l = done ++ c :: waiting :=
    ⟨l.take codes.length, l[codes.length], l.drop (codes.length + 1),
      List.length_take_of_le hi.le, by simp⟩
  obtain ⟨hring, hqueue, -, -, hexited, hcodes, hcur, hwaiting⟩ := hi
  rw [← hdone, List.take_left] at hexited hcodes
  rw [← hdone, ← List.drop_drop, List.drop_left, List.drop_one, List.tail_cons] at hwaiting
  rw [← hdone, List.getElem?_append_right le_rfl, Nat.sub_self] at hcur
  obtain ⟨hcur, -⟩ := hcur c rfl
  -- No process stands twice in the ring, so that only `c` changes.
  obtain ⟨hcd, hcw⟩ : c ∉ done ∧ c ∉ waiting := by
    have hnd := List.nodup_append.mp hring.nodup
    exact ⟨fun hc => hnd.2.2 c hc c (by simp) rfl, (List.nodup_cons.mp hnd.2.1).1⟩
  refine ⟨done, c, waiting, hdone, rfl, hcur, by simpa using hring, hqueue, hcur, fun p hp => ?_,
    ?_, fun p hp => ?_⟩
  · simp only [SchedState.state_setExitCode, SchedState.state_setState]
    rcases List.mem_append.mp hp with hp | hp
    · have hpc : p ≠ c := fun heq => hcd (heq ▸ hp)
      rw [Function.update_of_ne hpc, hexited p hp]
    · rw [List.mem_singleton.mp hp, Function.update_self]
  · simp only [SchedState.exitCode_setExitCode, SchedState.exitCode_setState]
    rw [List.map_append, ← hcodes, List.map_singleton, Function.update_self]
    congr 1
    refine List.map_congr_left fun p hp => ?_
    have hpc : p ≠ c := fun heq => hcd (heq ▸ hp)
    exact Function.update_of_ne hpc _ _
  · simp only [SchedState.state_setExitCode, SchedState.state_setState]
    have hpc : p ≠ c := fun heq => hcw (heq ▸ hp)
    rw [Function.update_of_ne hpc, hwaiting p hp]

namespace Exiting

variable {s : SchedState P} {done waiting : List P} {b c : P} {code : ℤ}

omit [DecidableEq P] in
theorem ring_rotate (h : Exiting s done c waiting codes) :
    Ring.IsRing s.next (c :: (waiting ++ done)) := by
  have hrot := h.ring.rotate done.length
  rwa [List.rotate_append_length_eq] at hrot

/-- If no process waits, all are zombies and the tick finds none. -/
theorem tick_nil (h : Exiting s done c [] codes) : schedulerTick s = some (timerTick s, none) := by
  obtain ⟨g, -, hrq⟩ := h.queue
  have hnone : (([] ++ done : List P).take 65).find? (fun p => s.state p = .ready) = none := by
    refine List.find?_eq_none.mpr fun p hp => ?_
    rw [h.exited p (List.mem_append_left _ (List.mem_of_mem_take hp))]
    decide
  rw [schedulerTick_eq h.ring_rotate hrq h.current, hnone]

omit [DecidableEq P] in
theorem exitInv_nil (h : Exiting s done c [] (codes ++ [code]))
    (hdone : done.length = codes.length) :
    ExitInv { k with sched := timerTick s, halted := true } (done ++ [c]) (codes ++ [code]) :=
  exitInv_concat hdone h.ring h.queue (by simp) h.exited h.exitCode (by simp) (by simp)

/-- The first process that waits is READY, and the tick switches to it. -/
theorem tick_cons (h : Exiting s done c (b :: waiting) codes) :
    schedulerTick s = some (tickSwitch (timerTick s) c b, some (c, b)) := by
  obtain ⟨g, -, hrq⟩ := h.queue
  have hfind : ((b :: waiting ++ done).take 65).find? (fun p => s.state p = .ready) = some b := by
    simp [h.waiting b]
  rw [schedulerTick_eq h.ring_rotate hrq h.current, hfind]

/-- The zombie is not demoted to READY, and `b` runs. -/
theorem state_tickSwitch (h : Exiting s done c (b :: waiting) codes) :
    (tickSwitch (timerTick s) c b).state = Function.update s.state b .running := by
  have hc : (timerTick s).state c ≠ .running := by
    rw [show (timerTick s).state c = s.state c from rfl, h.exited c (by simp)]
    decide
  rw [Lightstreak.state_tickSwitch, if_neg hc]
  rfl

/-- The next process of the ring has taken over. -/
theorem exitInv_cons (h : Exiting s done c (b :: waiting) (codes ++ [code]))
    (hdone : done.length = codes.length) :
    ExitInv { k with sched := tickSwitch (timerTick s) c b, halted := false }
      (done ++ c :: b :: waiting) (codes ++ [code]) := by
  obtain ⟨hnext, hcode, -⟩ := tickSwitch_fields (timerTick s) c b
  obtain ⟨g, hg, hrq⟩ := h.queue
  -- The next process is ready, hence none of those that have exited.
  have hzombies : ∀ p ∈ done ++ [c], p ≠ b := fun p hp heq => by
    have hb := h.waiting b List.mem_cons_self
    rw [← heq, h.exited p hp] at hb
    cases hb
  have hbw : b ∉ waiting := fun hbw =>
    (List.nodup_cons.mp (List.nodup_cons.mp (List.nodup_append.mp h.ring.nodup).2.1).2).1 hbw
  refine exitInv_concat hdone ?_ ⟨g, hg, ?_⟩ (by simp) (fun p hp => ?_) ?_ (fun p hp => ?_)
    fun p hp => ?_
  · rw [hnext]
    exact h.ring
  · exact (runQueue_tickSwitch _ _ _).trans hrq
  · rw [h.state_tickSwitch, Function.update_of_ne (hzombies p hp), h.exited p hp]
  · rw [hcode]
    exact h.exitCode
  · obtain rfl : b = p := Option.some.inj hp
    exact ⟨rfl, by rw [h.state_tickSwitch, Function.update_self]⟩
  · have hp' : p ∈ waiting := hp
    have hpb : p ≠ b := fun heq => hbw (heq ▸ hp')
    rw [h.state_tickSwitch, Function.update_of_ne hpb, h.waiting p (List.mem_cons_of_mem b hp')]

end Exiting

/-- One exit: the next process of the ring runs, or there is none and the machine halts. -/
theorem ExitInv.exit (hi : ExitInv k l codes) (hlive : k.halted = false) (code : ℤ) :
    ∃ s halted, sysExit k.sched code = some (s, halted) ∧
      ExitInv { k with sched := s, halted := halted } l (codes ++ [code]) := by
  obtain ⟨done, c, waiting, hdone, rfl, hcur, h⟩ := hi.exiting hlive code
  have hexit : sysExit k.sched code =
      (schedulerTick ((k.sched.setState c .zombie).setExitCode c code)).map fun r =>
        (r.1, r.2.isNone) := by
    simp only [sysExit, hcur]
    cases schedulerTick ((k.sched.setState c .zombie).setExitCode c code) <;> rfl
  cases waiting with
  | nil => exact ⟨_, _, by rw [hexit, h.tick_nil]; rfl, h.exitInv_nil hdone⟩
  | cons b waiting => exact ⟨_, _, by rw [hexit, h.tick_cons]; rfl, h.exitInv_cons hdone⟩

/-! ## Runs -/

omit [DecidableEq P] in
/-- A timer interrupt, or a system call that is no exit. -/
theorem ExitInv.congr (hi : ExitInv k l codes) (hnext : k'.sched.next = k.sched.next)
    (hrq : k'.sched.runQueue = k.sched.runQueue) (hcur : k'.sched.current = k.sched.current)
    (hstate : k'.sched.state = k.sched.state) (hcode : k'.sched.exitCode = k.sched.exitCode)
    (hhalted : k'.halted = k.halted) : ExitInv k' l codes where
  ring := hnext ▸ hi.ring
  queue := hrq ▸ hi.queue
  le := hi.le
  halted := hhalted ▸ hi.halted
  exited := hstate ▸ hi.exited
  exitCode := hcode ▸ hi.exitCode
  current := hcur ▸ hstate ▸ hi.current
  waiting := hstate ▸ hi.waiting

/-- A system call that is no exit does not halt the machine. -/
theorem halted_syscallHandler {out : ℕ × UserData} (hnum : a.eax.toNat ≠ 1)
    (h : syscallHandler fuel k a = some (out, k')) : k'.halted = k.halted := by
  unfold syscallHandler at h
  split at h
  case h_5 hexit => exact absurd hexit hnum
  case h_1 | h_2 | h_3 | h_7 | h_8 | h_10 =>
    obtain ⟨r, -, h⟩ := Option.bind_eq_some_iff.mp h
    obtain ⟨-, rfl⟩ := Prod.mk.inj (Option.some.inj h)
    rfl
  case h_9 =>
    split at h <;>
    · obtain ⟨-, rfl⟩ := Prod.mk.inj (Option.some.inj h)
      rfl
  all_goals
    obtain ⟨-, rfl⟩ := Prod.mk.inj (Option.some.inj h)
    rfl

/-- Every event keeps the invariant, with the exit code that it adds. -/
theorem ExitInv.exec {e : KernelEvent} {out : ℕ × UserData} (hi : ExitInv k l codes)
    (h : k.exec fuel e = some (out, k')) : ExitInv k' l (codes ++ exitCodes [e]) := by
  unfold KernelState.exec at h
  split at h
  · cases h
  next hlive =>
    cases e with
    | timerIrq =>
      obtain ⟨-, rfl⟩ := Prod.mk.inj (Option.some.inj h)
      rw [show exitCodes [.timerIrq] = [] from rfl, List.append_nil]
      exact hi.congr rfl rfl rfl rfl rfl rfl
    | syscall a =>
      -- Only call number 1 changes the scheduler.
      by_cases hnum : a.eax.toNat = 1
      · have hcodes : exitCodes [.syscall a] = [toInt32 a.ebx.toNat] := by
          simp [exitCodes, hnum]
        obtain ⟨s, halted, hexit, hi'⟩ :=
          hi.exit (Bool.not_eq_true _ ▸ hlive) (toInt32 a.ebx.toNat)
        simp only [syscallHandler, hnum, hexit] at h
        obtain ⟨-, rfl⟩ := Prod.mk.inj (Option.some.inj h)
        rwa [hcodes]
      · have hcodes : exitCodes [.syscall a] = [] := by simp [exitCodes, hnum]
        obtain ⟨hsched, -⟩ := sched_syscallHandler hnum h
        rw [hcodes, List.append_nil]
        exact hi.congr (by rw [hsched]) (by rw [hsched]) (by rw [hsched]) (by rw [hsched])
          (by rw [hsched]) (halted_syscallHandler hnum h)

theorem exitCodes_cons (e : KernelEvent) (events : List KernelEvent) :
    exitCodes (e :: events) = exitCodes [e] ++ exitCodes events := by
  rw [exitCodes, exitCodes, exitCodes, ← List.filterMap_append, List.singleton_append]

/-- Take any ring of processes that wait for the current one to exit. Along every run of timer
interrupts and system calls from there, there are at most as many exits as processes, and the
machine halts exactly with the last of them. The processes exit in the order of the ring: those at
the front are zombies with the exit codes that were passed, in this order, the next one is current
and runs, and all behind it still wait. -/
theorem exits_in_turn (ht : InTurn k.sched l) (hlive : k.halted = false)
    {events : List KernelEvent} {outs : List (ℕ × UserData)}
    (hrun : feed (KernelState.exec fuel) k events = some (outs, k')) :
    (exitCodes events).length ≤ l.length ∧
      (k'.halted = true ↔ (exitCodes events).length = l.length) ∧
      (l.take (exitCodes events).length).map k'.sched.exitCode = exitCodes events ∧
      (∀ p ∈ l.take (exitCodes events).length, k'.sched.state p = .zombie) ∧
      (∀ p ∈ l[(exitCodes events).length]?, k'.sched.current = some p ∧
        k'.sched.state p = .running) ∧
      ∀ p ∈ l.drop ((exitCodes events).length + 1), k'.sched.state p = .ready := by
  -- The codes of the exits before are generalized, since the list of all codes grows at its end.
  suffices h : ∀ codes, ExitInv k l codes → ExitInv k' l (codes ++ exitCodes events) by
    have hi := h [] (exitInv_of_inTurn ht hlive)
    exact ⟨hi.le, hi.halted, hi.exitCode, hi.exited, hi.current, hi.waiting⟩
  clear ht hlive
  induction events generalizing k outs with
  | nil =>
    intro codes hi
    obtain ⟨-, rfl⟩ := Prod.mk.inj (Option.some.inj hrun)
    rwa [show exitCodes [] = [] from rfl, List.append_nil]
  | cons e events ih =>
    intro codes hi
    obtain ⟨out, k₁, outs', hexec, hfeed, -⟩ := exists_of_feed_cons hrun
    rw [exitCodes_cons, ← List.append_assoc]
    exact ih hfeed _ (hi.exec hexec)

/-- The idle process and the shell exit one after the other, with a timer interrupt between. -/
theorem exits_in_turn_bootedKernel :
    ∃ outs k', feed (KernelState.exec 0) bootedKernel [plainCall 1, .timerIrq, plainCall 1] =
        some (outs, k') ∧
      (k'.halted = true ↔
        (exitCodes [plainCall 1, .timerIrq, plainCall 1]).length = [0, 1].length) := by
  have hturn : InTurn bootedKernel.sched [0, 1] :=
    ⟨⟨⟨rfl, rfl⟩, by decide⟩, ⟨0, by decide, rfl⟩, rfl, by decide⟩
  refine ⟨_, _, rfl, ?_⟩
  exact (exits_in_turn hturn rfl (show feed (KernelState.exec 0) bootedKernel
    [plainCall 1, .timerIrq, plainCall 1] = _ from rfl)).2.1

end Lightstreak
