import Lightstreak.Drivers.Timer
import Lightstreak.Mm.PmmAccounting
import Lightstreak.Syscall.FileCalls
import Lightstreak.Syscall.Ps

/-!
# The system call dispatcher (`kernel/syscall/syscall.c`)

`syscall_handler` on the state of the whole kernel: files, scheduler, frame allocator and timer.
The registers come with the memory that the pointers among them lead to, and what a call stores
through such a pointer is returned. Between system calls the timer interrupts, whose handler is
`timer_irq_tick` of `kernel/kernel.c`.

* `tickCount_syscallHandler`: of all system calls, only `SYS_EXIT` touches the tick counter; it
  counts a tick.
* `syscallHandler_ticked`: an interrupt during a call that neither exits nor reads the counter is
  like one before it.
* `tickCount_of_feed`: the counter along a run.
* `sysUptime_exact_iff`: the runs along which `SYS_UPTIME` tells the seconds of the timer
  interrupts.
-/

namespace Lightstreak

open SysLib

/-- The parts of the kernel that system calls and timer interrupts work on. -/
structure KernelState (P : Type) where
  /-- The files, the descriptors and the console. -/
  files : FileState P
  /-- The scheduler. -/
  sched : SchedState P
  /-- The frame allocator. -/
  pmm : PmmState
  /-- The timer. -/
  pit : Pit
  /-- The machine is in `khalt`. -/
  halted : Bool

/-- The registers of a system call, with the memory behind the pointers that it may hold. -/
structure SyscallArgs where
  /-- The number of the call. -/
  eax : UInt32
  /-- The first argument. -/
  ebx : UInt32
  /-- The second argument. -/
  ecx : UInt32
  /-- The third argument. -/
  edx : UInt32
  /-- The bytes that can be read from the address `ebx` on, if it is a path. -/
  path : List UInt8
  /-- The memory from the address `ecx` on, if it is a buffer to write from. -/
  buf : ℕ → UInt8

/-- What a system call stores through a pointer of its caller. -/
inductive UserData
  | nothing
  | bytes (l : List UInt8)
  | dirents (l : List Dirent)
  | meminfo (m : Meminfo)
  | psEntries (l : List PsEntry)

variable {P : Type} [DecidableEq P]

/-- `sys_readdir` -/
def sysReaddir (s : FileState P) (max : ℤ) : Option (ℤ × List Dirent) :=
  vfsReaddir s.mountedFs s.files max

/-- `sys_uptime` -/
def sysUptime (k : KernelState P) : Option ℕ := timerGetSeconds k.pit k.sched

/-- The conversion of an `int32_t` to `uint32_t` -/
def ofInt32 (r : ℤ) : ℕ := (r % 2 ^ 32).toNat

/-- `syscall_handler(regs)`: the value of `regs->eax` afterwards, what was stored for the caller,
and the state. `fuel` bounds the turns of the loop of `sys_ps`. -/
def syscallHandler (fuel : ℕ) (k : KernelState P) (a : SyscallArgs) :
    Option ((ℕ × UserData) × KernelState P) :=
  match a.eax.toNat with
  | 2 => do -- `SYS_WRITE`
    let (r, files) ← sysWrite k.files k.sched.current a.ebx.toNat a.buf a.edx.toNat
    return ((ofInt32 r, .nothing), { k with files := files })
  | 3 => do -- `SYS_READ`
    let ((r, bytes), files) ← sysRead k.files k.sched.current a.ebx.toNat a.edx.toNat
    return ((ofInt32 r, .bytes bytes), { k with files := files })
  | 4 => do -- `SYS_OPEN`
    let (r, files) ← sysOpen k.files k.sched.current a.path
    return ((ofInt32 r, .nothing), { k with files := files })
  | 5 => -- `SYS_CLOSE`
    let (r, files) := sysClose k.files k.sched.current a.ebx.toNat
    some ((ofInt32 r, .nothing), { k with files := files })
  | 1 => do -- `SYS_EXIT` does not return to its caller, so that `eax` stays as it is.
    let (s, halted) ← sysExit k.sched (toInt32 a.ebx.toNat)
    return ((a.eax.toNat, .nothing), { k with sched := s, halted := halted })
  | 6 => -- `SYS_GETPID`
    some ((sysGetpid k.sched, .nothing), k)
  | 7 => do -- `SYS_READDIR`
    let (r, entries) ← sysReaddir k.files (toInt32 a.ecx.toNat)
    return ((ofInt32 r, .dirents entries), k)
  | 8 => do -- `SYS_UPTIME`
    let r ← sysUptime k
    return ((r, .nothing), k)
  | 9 => -- `SYS_MEMINFO`, through the pointer `ebx`
    if a.ebx = 0 then some ((ofInt32 (sysMeminfo k.pmm none).1, .nothing), k)
    else
      let (r, info) := sysMeminfo k.pmm (some ⟨0, 0, 0⟩)
      some ((ofInt32 r, info.elim .nothing .meminfo), k)
  | 10 => do -- `SYS_PS`
    let (r, entries) ← sysPs fuel k.sched (a.ebx = 0) (toInt32 a.ecx.toNat)
    return ((ofInt32 r, .psEntries entries), k)
  | _ => some ((ofInt32 (-1), .nothing), k)

/-! ## Runs -/

/-- What happens to a running kernel. -/
inductive KernelEvent
  | timerIrq
  | syscall (a : SyscallArgs)

/-- The event is a `SYS_EXIT`. -/
def KernelEvent.isExit : KernelEvent → Bool
  | .timerIrq => false
  | .syscall a => a.eax.toNat = 1

/-- The event is a timer interrupt. -/
def KernelEvent.isTimerIrq : KernelEvent → Bool
  | .timerIrq => true
  | .syscall _ => false

/-- The state after a timer interrupt. -/
def KernelState.ticked (k : KernelState P) : KernelState P := { k with sched := timerTick k.sched }

/-- One event, with what a system call returns. Nothing happens in `khalt`, which is entered with
interrupts off. -/
def KernelState.exec (fuel : ℕ) (k : KernelState P) (e : KernelEvent) :
    Option ((ℕ × UserData) × KernelState P) :=
  if k.halted then none
  else
    match e with
    | .timerIrq => some ((0, .nothing), k.ticked)
    | .syscall a => syscallHandler fuel k a

/-! ## The tick counter -/

variable {k k' : KernelState P} {fuel : ℕ}

theorem tickCount_tickSwitch (s : SchedState P) (c n : P) :
    (tickSwitch s c n).tickCount = s.tickCount := by
  by_cases hrun : s.state c = .running <;> simp [tickSwitch, hrun, SchedState.setState,
    SchedState.modify]

/-- Every scheduler tick is counted, if it switches or not. -/
theorem tickCount_schedulerTick {s : SchedState P} {r : SchedState P × Option (P × P)}
    (h : schedulerTick s = some r) : r.1.tickCount = add32 s.tickCount 1 := by
  simp only [schedulerTick] at h
  split at h
  · obtain ⟨next, -, h⟩ := Option.bind_eq_some_iff.mp h
    split at h
    · obtain rfl := Option.some.inj h
      rfl
    · split at h
      · obtain rfl := Option.some.inj h
        rfl
      · obtain rfl := Option.some.inj h
        exact tickCount_tickSwitch _ _ _
  · obtain rfl := Option.some.inj h
    rfl

/-- An exit runs the scheduler, which counts a tick. -/
theorem tickCount_sysExit {s : SchedState P} {code : ℤ} {r : SchedState P × Bool}
    (h : sysExit s code = some r) : r.1.tickCount = add32 s.tickCount 1 := by
  obtain ⟨q, hq, hr⟩ := Option.bind_eq_some_iff.mp h
  obtain rfl := Option.some.inj hr
  rw [tickCount_schedulerTick hq]
  cases s.current <;> rfl

/-- A system call other than `SYS_EXIT` leaves the scheduler and the timer alone. -/
theorem sched_syscallHandler {a : SyscallArgs} {out : ℕ × UserData} (hnum : a.eax.toNat ≠ 1)
    (h : syscallHandler fuel k a = some (out, k')) :
    k'.sched = k.sched ∧ k'.pit = k.pit := by
  unfold syscallHandler at h
  split at h
  case h_5 hexit => exact absurd hexit hnum
  -- The calls that may have no result, `SYS_MEMINFO` with its two branches, and the others.
  case h_1 | h_2 | h_3 | h_7 | h_8 | h_10 =>
    obtain ⟨r, -, h⟩ := Option.bind_eq_some_iff.mp h
    obtain ⟨-, rfl⟩ := Prod.mk.inj (Option.some.inj h)
    exact ⟨rfl, rfl⟩
  case h_9 =>
    split at h <;>
    · obtain ⟨-, rfl⟩ := Prod.mk.inj (Option.some.inj h)
      exact ⟨rfl, rfl⟩
  all_goals
    obtain ⟨-, rfl⟩ := Prod.mk.inj (Option.some.inj h)
    exact ⟨rfl, rfl⟩

/-- Of all system calls, only `SYS_EXIT` changes the tick counter, and none the timer. -/
theorem tickCount_syscallHandler {a : SyscallArgs} {out : ℕ × UserData}
    (h : syscallHandler fuel k a = some (out, k')) :
    k'.pit = k.pit ∧ k'.sched.tickCount =
      if a.eax.toNat = 1 then add32 k.sched.tickCount 1 else k.sched.tickCount := by
  by_cases hnum : a.eax.toNat = 1
  · simp only [syscallHandler, hnum] at h
    obtain ⟨r, hr, h⟩ := Option.bind_eq_some_iff.mp h
    obtain ⟨-, rfl⟩ := Prod.mk.inj (Option.some.inj h)
    exact ⟨rfl, by rw [if_pos hnum]; exact tickCount_sysExit hr⟩
  · obtain ⟨hsched, hpit⟩ := sched_syscallHandler hnum h
    exact ⟨hpit, by rw [hsched, if_neg hnum]⟩

/-- A timer interrupt commutes with every system call but `SYS_UPTIME`, which reads the counter,
and `SYS_EXIT`, which does not return. -/
theorem syscallHandler_ticked (k : KernelState P) {a : SyscallArgs} (hexit : a.eax.toNat ≠ 1)
    (huptime : a.eax.toNat ≠ 8) :
    syscallHandler fuel k.ticked a =
      (syscallHandler fuel k a).map fun r => (r.1, r.2.ticked) := by
  -- What the calls read of the state does not depend on the counter.
  have hfiles : k.ticked.files = k.files := rfl
  have hcur : k.ticked.sched.current = k.sched.current := rfl
  have hps : sysPs fuel k.ticked.sched = sysPs fuel k.sched := rfl
  unfold syscallHandler
  rw [hfiles, hcur, hps]
  split
  case h_5 h => exact absurd h hexit
  case h_8 h => exact absurd h huptime
  case h_1 => cases sysWrite k.files k.sched.current a.ebx.toNat a.buf a.edx.toNat <;> rfl
  case h_2 => cases sysRead k.files k.sched.current a.ebx.toNat a.edx.toNat <;> rfl
  case h_3 => cases sysOpen k.files k.sched.current a.path <;> rfl
  case h_7 => cases sysReaddir k.files (toInt32 a.ecx.toNat) <;> rfl
  case h_9 => split <;> rfl
  case h_10 => cases sysPs fuel k.sched (a.ebx = 0) (toInt32 a.ecx.toNat) <;> rfl
  all_goals rfl

/-- The number of timer interrupts among the events. -/
def timerIrqs (events : List KernelEvent) : ℕ := events.countP KernelEvent.isTimerIrq

/-- The number of `SYS_EXIT` calls among the events. -/
def exits (events : List KernelEvent) : ℕ := events.countP KernelEvent.isExit

/-- The counter after an event: interrupts and exits count, in 32 bits. -/
theorem tickCount_exec {e : KernelEvent} {out : ℕ × UserData}
    (h : k.exec fuel e = some (out, k')) (hlt : k.sched.tickCount < 2 ^ 32) :
    k'.pit = k.pit ∧
      k'.sched.tickCount = (k.sched.tickCount + timerIrqs [e] + exits [e]) % 2 ^ 32 := by
  unfold KernelState.exec at h
  split at h
  · cases h
  cases e with
  | timerIrq =>
    obtain ⟨-, rfl⟩ := Prod.mk.inj (Option.some.inj h)
    exact ⟨rfl, rfl⟩
  | syscall a =>
    obtain ⟨hpit, hcount⟩ := tickCount_syscallHandler h
    refine ⟨hpit, hcount.trans ?_⟩
    -- Among the calls only the exit runs the scheduler.
    by_cases hnum : a.eax.toNat = 1
    · simp [timerIrqs, exits, KernelEvent.isTimerIrq, KernelEvent.isExit, hnum, add32]
    · simp only [timerIrqs, exits, KernelEvent.isTimerIrq, KernelEvent.isExit, hnum, if_false,
        List.countP_singleton, decide_false, Bool.false_eq_true]
      exact (Nat.mod_eq_of_lt hlt).symm

/-- The tick counter is the number of timer interrupts and exits, in 32 bits. -/
theorem tickCount_of_feed {events : List KernelEvent} {outs : List (ℕ × UserData)}
    (hlt : k.sched.tickCount < 2 ^ 32)
    (h : feed (KernelState.exec fuel) k events = some (outs, k')) :
    k'.pit = k.pit ∧
      k'.sched.tickCount = (k.sched.tickCount + timerIrqs events + exits events) % 2 ^ 32 := by
  induction events generalizing k outs with
  | nil =>
    obtain ⟨-, rfl⟩ := Prod.mk.inj (Option.some.inj h)
    exact ⟨rfl, (Nat.mod_eq_of_lt hlt).symm⟩
  | cons e events ih =>
    obtain ⟨out, k₁, outs', hexec, hfeed, -⟩ := exists_of_feed_cons h
    obtain ⟨hpit, hcount⟩ := tickCount_exec hexec hlt
    obtain ⟨hpit', hcount'⟩ := ih (hcount ▸ Nat.mod_lt _ (by decide)) hfeed
    -- The counts of the first event and of the others add up.
    have hirqs : timerIrqs (e :: events) = timerIrqs events + timerIrqs [e] := by
      simp [timerIrqs, List.countP_cons]
    have hexits : exits (e :: events) = exits events + exits [e] := by
      simp [exits, List.countP_cons]
    refine ⟨hpit'.trans hpit, ?_⟩
    rw [hcount', hcount, hirqs, hexits]
    omega

/-! ## Uptime -/

/-- Along the events, every `SYS_UPTIME` would return the seconds of the timer interrupts so far,
and none would return less than an earlier one. -/
structure UptimeExact (fuel : ℕ) (k : KernelState P) (hz : ℕ) (events : List KernelEvent) :
    Prop where
  /-- After any part of the run the call returns the full seconds since the timer was started. -/
  seconds : ∀ i outs k', feed (KernelState.exec fuel) k (events.take i) = some (outs, k') →
    ∀ a : SyscallArgs, a.eax.toNat = 8 → syscallHandler fuel k' a =
      some ((timerIrqs (events.take i) / hz, .nothing), k')
  /-- Later calls return no less. -/
  mono : ∀ i j outs outs' k₁ k₂ u₁ u₂, i ≤ j →
    feed (KernelState.exec fuel) k (events.take i) = some (outs, k₁) →
    feed (KernelState.exec fuel) k (events.take j) = some (outs', k₂) →
    sysUptime k₁ = some u₁ → sysUptime k₂ = some u₂ → u₁ ≤ u₂

omit [DecidableEq P] in
/-- The uptime is the counter divided by the frequency. -/
theorem sysUptime_eq {hz : ℕ} (hhz : 0 < hz) (hpit : k.pit.ticksPerSecond = hz) :
    sysUptime k = some (k.sched.tickCount / hz) := by
  rw [sysUptime, timerGetSeconds, hpit, if_neg hhz.ne']
  rfl

/-- Call number 8 returns the uptime and changes nothing. -/
theorem syscallHandler_uptime {a : SyscallArgs} (ha : a.eax.toNat = 8) {u : ℕ}
    (hup : sysUptime k = some u) : syscallHandler fuel k a = some ((u, .nothing), k) := by
  simp only [syscallHandler, ha, hup]
  rfl

/-- One more event counts as an interrupt, as an exit or as neither. -/
theorem counts_take_succ (events : List KernelEvent) (i : ℕ) :
    (timerIrqs (events.take (i + 1)) = timerIrqs (events.take i) ∧
      exits (events.take (i + 1)) ≤ exits (events.take i) + 1) ∨
    (timerIrqs (events.take (i + 1)) = timerIrqs (events.take i) + 1 ∧
      exits (events.take (i + 1)) = exits (events.take i)) := by
  simp only [timerIrqs, exits, List.take_add_one, List.countP_append]
  rcases events[i]? with _ | e
  · exact .inl ⟨rfl, Nat.le_succ _⟩
  · cases e with
    | timerIrq => exact .inr ⟨rfl, rfl⟩
    | syscall a => exact .inl ⟨rfl, Nat.add_le_add_left List.countP_le_length _⟩

/-- After `timer_init(hz)`, `SYS_UPTIME` tells the seconds of the timer interrupts along the whole
run exactly when at every point the interrupts and the exits so far together are fewer than
`2 ^ 32` and the exits do not carry the interrupts into the next second: each exit counts as a tick
of the timer. -/
theorem sysUptime_exact_iff {hz : UInt32} (hhz : 0 < hz.toNat) {k₀ : KernelState P} {pit : Pit}
    (hzero : k₀.sched.tickCount = 0) (hinit : timerInit k₀.pit hz.toNat = some pit)
    {events : List KernelEvent} {outs : List (ℕ × UserData)}
    (hrun : feed (KernelState.exec fuel) { k₀ with pit := pit } events = some (outs, k)) :
    UptimeExact fuel { k₀ with pit := pit } hz.toNat events ↔
      ∀ i, timerIrqs (events.take i) + exits (events.take i) < 2 ^ 32 ∧
        timerIrqs (events.take i) % hz.toNat + exits (events.take i) < hz.toNat := by
  have hpit : pit.ticksPerSecond = hz.toNat := by
    rw [timerInit, if_neg hhz.ne'] at hinit
    exact Option.some.inj hinit ▸ rfl
  have hlt : ({ k₀ with pit := pit } : KernelState P).sched.tickCount < 2 ^ 32 :=
    hzero.trans_lt (by decide)
  -- What `SYS_UPTIME` computes in the state after `i` events.
  have hup : ∀ i outs' k', feed (KernelState.exec fuel) { k₀ with pit := pit } (events.take i) =
      some (outs', k') → sysUptime k' =
        some ((timerIrqs (events.take i) + exits (events.take i)) % 2 ^ 32 / hz.toNat) := by
    intro i outs' k' hfeed
    obtain ⟨hpit', hcount⟩ := tickCount_of_feed hlt hfeed
    rw [sysUptime_eq hhz ((congrArg Pit.ticksPerSecond hpit').trans hpit), hcount, hzero,
      Nat.zero_add]
  rw [← uptime_eq_iff hhz hz.toNat_lt (by simp [timerIrqs]) (by simp [exits])
    (counts_take_succ events)]
  constructor
  · -- The first `i` events return as well, so that the question can be asked after them.
    intro hexact i
    obtain ⟨outs', k', hfeed⟩ := exists_feed_take hrun i
    have hcall := hexact.seconds i outs' k' hfeed ⟨8, 0, 0, 0, [], fun _ => 0⟩ rfl
    rw [syscallHandler_uptime rfl (hup i outs' k' hfeed)] at hcall
    exact congrArg (·.1.1) (Option.some.inj hcall)
  · intro hall
    have hup' : ∀ i outs' k', feed (KernelState.exec fuel) { k₀ with pit := pit }
        (events.take i) = some (outs', k') →
          sysUptime k' = some (timerIrqs (events.take i) / hz.toNat) :=
      fun i outs' k' hfeed => (hup i outs' k' hfeed).trans (congrArg some (hall i))
    refine ⟨fun i outs' k' hfeed a ha => syscallHandler_uptime ha (hup' i outs' k' hfeed), ?_⟩
    -- Interrupts only become more, and with them the seconds.
    intro i j _ _ k₁ k₂ u₁ u₂ hij hfeed₁ hfeed₂ h₁ h₂
    obtain rfl := Option.some.inj ((hup' i _ k₁ hfeed₁).symm.trans h₁)
    obtain rfl := Option.some.inj ((hup' j _ k₂ hfeed₂).symm.trans h₂)
    exact Nat.div_le_div_right ((List.take_sublist_take_left hij).countP_le)

/-- The kernel with the idle process and one more, before `timer_init`. -/
def bootedKernel : KernelState ℕ where
  files :=
    { mountedFs := none
      files := fun _ => ⟨[], fun _ => 0, 0, false⟩
      fdTable := fun _ _ => ⟨-1, 0, false⟩
      keyboard := fun _ => 0
      console := [] }
  sched := schedulerAdd (initPcb idleOnly 1 8192) (some 1)
  pmm := ⟨fun _ => 0, 0, 0⟩
  pit := ⟨100, [], []⟩
  halted := false

/-- A system call that takes no arguments, or only zeros. -/
def plainCall (num : UInt32) : KernelEvent := .syscall ⟨num, 0, 0, 0, [], fun _ => 0⟩

/-- The timer interrupts until a second has passed, one process asks for the time and exits, and the
timer interrupts the other one. -/
def secondAndExit : List KernelEvent :=
  List.replicate 101 .timerIrq ++ [plainCall 8, plainCall 1, .timerIrq]

set_option maxRecDepth 4000 in
/-- At 100 Hz, the exit right after a full second does no harm. -/
theorem sysUptime_exact_iff_secondAndExit :
    ∃ pit outs k, timerInit bootedKernel.pit (100 : UInt32).toNat = some pit ∧
      feed (KernelState.exec 0) { bootedKernel with pit := pit } secondAndExit = some (outs, k) ∧
      sysUptime k = some 1 ∧
      UptimeExact 0 { bootedKernel with pit := pit } (100 : UInt32).toNat secondAndExit := by
  refine ⟨_, _, _, rfl, rfl, rfl, (sysUptime_exact_iff
    (show 0 < (100 : UInt32).toNat by decide) rfl rfl rfl).mpr ?_⟩
  have hall : ∀ i < 105, timerIrqs (secondAndExit.take i) + exits (secondAndExit.take i) < 2 ^ 32 ∧
      timerIrqs (secondAndExit.take i) % 100 + exits (secondAndExit.take i) < 100 := by
    decide +kernel
  intro i
  rcases lt_or_ge i 105 with hi | hi
  · exact hall i hi
  · -- There are no more than 104 events.
    have hlen : secondAndExit.length = 104 := by decide +kernel
    rw [List.take_of_length_le (by omega), ← List.take_of_length_le hlen.le]
    exact hall 104 (by decide)

set_option maxRecDepth 4000 in
/-- At 100 Hz, 99 interrupts and the exit of one of two processes make a second. -/
theorem not_uptimeExact_exit :
    ∃ pit outs k, timerInit bootedKernel.pit 100 = some pit ∧
      feed (KernelState.exec 0) { bootedKernel with pit := pit }
        (List.replicate 99 .timerIrq ++ [plainCall 1]) = some (outs, k) ∧
      sysUptime k = some 1 ∧
      ¬UptimeExact 0 { bootedKernel with pit := pit } 100
        (List.replicate 99 .timerIrq ++ [plainCall 1]) := by
  have hup : ∃ pit outs k, timerInit bootedKernel.pit 100 = some pit ∧
      feed (KernelState.exec 0) { bootedKernel with pit := pit }
        (List.replicate 99 .timerIrq ++ [plainCall 1]) = some (outs, k) ∧
      sysUptime k = some 1 := ⟨_, _, _, rfl, rfl, rfl⟩
  obtain ⟨pit, outs, k, hinit, hfeed, hup⟩ := hup
  refine ⟨pit, outs, k, hinit, hfeed, hup, fun hexact => ?_⟩
  have hcall := hexact.seconds 100 outs k hfeed ⟨8, 0, 0, 0, [], fun _ => 0⟩ rfl
  rw [syscallHandler_uptime rfl hup] at hcall
  have hone :
      1 = timerIrqs ((List.replicate 99 KernelEvent.timerIrq ++ [plainCall 1]).take 100) / 100 :=
    congrArg (·.1.1) (Option.some.inj hcall)
  exact absurd hone (by decide)

end Lightstreak
