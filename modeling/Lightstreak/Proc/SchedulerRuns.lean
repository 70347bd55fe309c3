import Lightstreak.Proc.RunQueue

/-!
# Process states along scheduler runs

After `scheduler_init` the scheduler is driven by new processes, timer ticks and the exits of
running processes. `SchedRun` is its state with what the run has done so far: which processes were
created, whether a switch has happened and whether the machine has halted.

* `schedulerTick_spec`: on a ring with `current` in it a tick returns, and either changes only the
  tick count or switches to another, READY process of the ring.
* `SchedRun.Inv.exec`: every step keeps the invariant `SchedRun.Inv` and every zombie.
* `scheduler_invariant_of_run`: what holds in every reachable state.
-/

namespace Lightstreak

open SysLib

variable {P : Type} [DecidableEq P] {s : SchedState P} {p c n : P} {q : List P}

/-! ## The fields after each operation -/

section Fields

variable (s p) (top : ℕ)

@[simp]
theorem next_initPcb : (initPcb s p top).next = Function.update s.next p none :=
  s.field_modify_of_const p _ Pcb.next fun _ => rfl

@[simp]
theorem state_initPcb : (initPcb s p top).state = Function.update s.state p .ready :=
  s.field_modify_of_const p _ Pcb.state fun _ => rfl

@[simp]
theorem exitCode_initPcb : (initPcb s p top).exitCode = Function.update s.exitCode p 0 :=
  s.field_modify_of_const p _ Pcb.exitCode fun _ => rfl

@[simp]
theorem kernelStackTop_initPcb :
    (initPcb s p top).kernelStackTop = Function.update s.kernelStackTop p top :=
  s.field_modify_of_const p _ Pcb.kernelStackTop fun _ => rfl

/-- `scheduler_add` sets the state of the process and changes no other field but `next`. -/
theorem schedulerAdd_fields :
    (schedulerAdd s (some p)).state = Function.update s.state p .ready ∧
      (schedulerAdd s (some p)).exitCode = s.exitCode ∧
      (schedulerAdd s (some p)).kernelStackTop = s.kernelStackTop ∧
      (schedulerAdd s (some p)).current = s.current ∧
      (schedulerAdd s (some p)).esp0 = s.esp0 := by
  cases hrq : s.runQueue with
  | none =>
    simp only [schedulerAdd, SchedState.runQueue_setState, hrq]
    refine ⟨?_, ?_, ?_, rfl, rfl⟩
    · rw [SchedState.state_setNext]
      exact s.state_setState p .ready
    · rw [SchedState.exitCode_setNext]
      exact s.exitCode_setState p .ready
    · rw [SchedState.kernelStackTop_setNext]
      exact s.kernelStackTop_setState p .ready
  | some rq => simp [schedulerAdd, hrq]

variable (c n)

/-- A switch changes no field of a process but the two states. -/
theorem tickSwitch_fields :
    (tickSwitch s c n).next = s.next ∧ (tickSwitch s c n).exitCode = s.exitCode ∧
      (tickSwitch s c n).kernelStackTop = s.kernelStackTop := by
  by_cases hrun : s.state c = .running
  · simp only [tickSwitch, hrun, if_true]
    exact ⟨(SchedState.next_setState _ _ _).trans (s.next_setState _ _),
      (SchedState.exitCode_setState _ _ _).trans (s.exitCode_setState _ _),
      (SchedState.kernelStackTop_setState _ _ _).trans (s.kernelStackTop_setState _ _)⟩
  · simp only [tickSwitch, hrun, if_false]
    exact ⟨s.next_setState _ _, s.exitCode_setState _ _, s.kernelStackTop_setState _ _⟩

/-- A switch makes the old process ready, if it was running, and the new one running. -/
theorem state_tickSwitch :
    (tickSwitch s c n).state = Function.update
      (if s.state c = .running then Function.update s.state c .ready else s.state) n .running := by
  by_cases hrun : s.state c = .running
  · simp only [tickSwitch, hrun, if_true]
    exact (SchedState.state_setState _ _ _).trans (by rw [s.state_setState])
  · simp only [tickSwitch, hrun, if_false]
    exact s.state_setState _ _

theorem runQueue_tickSwitch : (tickSwitch s c n).runQueue = s.runQueue := by
  by_cases hrun : s.state c = .running <;> simp [tickSwitch, hrun]

/-- The switch sets `tss.esp0` to the stack of the process that it switches to. -/
theorem esp0_tickSwitch : (tickSwitch s c n).esp0 = s.kernelStackTop n := by
  by_cases hrun : s.state c = .running <;> simp [tickSwitch, hrun]

end Fields

/-! ## The tick on a ring -/

omit [DecidableEq P] in
theorem SchedState.IsQueue.timerTick (hq : s.IsQueue q) : (timerTick s).IsQueue q :=
  hq.congr rfl fun _ _ => rfl

/-- The search stays in the ring, whatever the number of its steps. -/
theorem tickSearch_mem (hring : Ring.IsRing s.next q) (steps : ℕ) (hn : n ∈ q) :
    ∃ x ∈ q, tickSearch s c steps (some n) = some x := by
  induction steps generalizing n with
  | zero => exact ⟨n, hn, rfl⟩
  | succ steps ih =>
    by_cases hgo : s.state n ≠ .ready ∧ n ≠ c
    · -- The search goes on to the next process, which is in the ring again.
      obtain ⟨x, hx, hnext⟩ := hring.next_mem hn
      obtain ⟨y, hy, hsearch⟩ := ih hx
      exact ⟨y, hy, by rw [tickSearch, if_pos hgo, hnext, hsearch]⟩
    · exact ⟨n, hn, by rw [tickSearch, if_neg hgo]⟩

/-- What a tick does with the process that its search returns. -/
theorem schedulerTick_of_search {h : P} (hrq : s.runQueue = some h) (hcur : s.current = some c)
    (hsearch : tickSearch (timerTick s) c 64 (s.next c) = some n) :
    schedulerTick s = some (if n = c ∨ s.state n ≠ .ready then (timerTick s, none)
      else (tickSwitch (timerTick s) c n, some (c, n))) := by
  have hrq' : (timerTick s).runQueue = some h := hrq
  have hcur' : (timerTick s).current = some c := hcur
  have hsearch' : tickSearch (timerTick s) c 64 ((timerTick s).next c) = some n := hsearch
  have hstate : (timerTick s).state n = s.state n := rfl
  simp only [schedulerTick, hrq', hcur', hsearch', Option.bind_eq_bind, Option.bind_some, hstate]
  by_cases hc : n = c
  · simp [hc]
  · by_cases hready : s.state n = .ready <;> simp [hc, hready]

/-- On a ring with `current` in it, a tick returns; it counts, and either does nothing more or
switches to another process of the ring that is READY. -/
theorem schedulerTick_spec (hq : s.IsQueue q) (hcur : s.current = some c) (hc : c ∈ q) :
    schedulerTick s = some (timerTick s, none) ∨
      ∃ n ∈ q, n ≠ c ∧ s.state n = .ready ∧
        schedulerTick s = some (tickSwitch (timerTick s) c n, some (c, n)) := by
  obtain ⟨h, hrq⟩ : ∃ h, s.runQueue = some h := by
    obtain ⟨h, t, rfl⟩ := List.exists_cons_of_ne_nil (List.ne_nil_of_mem hc)
    exact ⟨h, hq.head⟩
  obtain ⟨x, hx, hnext⟩ := hq.ring.next_mem hc
  obtain ⟨n, hn, hsearch⟩ := tickSearch_mem (s := timerTick s) (c := c) hq.ring 64 hx
  rw [schedulerTick_of_search hrq hcur (hnext ▸ hsearch)]
  by_cases hstay : n = c ∨ s.state n ≠ .ready
  · exact .inl (by rw [if_pos hstay])
  · obtain ⟨hnc, hready⟩ := not_or.mp hstay
    exact .inr ⟨n, hn, hnc, not_not.mp hready, by rw [if_neg hstay]⟩

/-- After a switch exactly the process switched to is RUNNING, and every zombie still is one. -/
theorem tickSwitch_spec (hq : s.IsQueue q) (hone : ∀ p ∈ q, s.state p = .running → p = c)
    (hready : s.state n = .ready) :
    (tickSwitch s c n).IsQueue q ∧ (tickSwitch s c n).state n = .running ∧
      (∀ p ∈ q, (tickSwitch s c n).state p = .running → p = n) ∧
      ∀ p, s.state p = .zombie → (tickSwitch s c n).state p = .zombie := by
  refine ⟨hq.congr (runQueue_tickSwitch s c n) fun x _ => by rw [(tickSwitch_fields s c n).1],
    by rw [state_tickSwitch, Function.update_self], fun p hp hrun => ?_, fun p hz => ?_⟩
  · by_contra hpn
    rw [state_tickSwitch, Function.update_of_ne hpn] at hrun
    by_cases hc : s.state c = .running
    · -- The old process was demoted, and nobody else was RUNNING.
      rw [if_pos hc] at hrun
      by_cases hpc : p = c
      · simp [hpc] at hrun
      · rw [Function.update_of_ne hpc] at hrun
        exact hpc (hone p hp hrun)
    · rw [if_neg hc] at hrun
      exact hc (hone p hp hrun ▸ hrun)
  · -- The switch writes to a READY and to a RUNNING process, and a zombie is neither.
    have hpn : p ≠ n := fun h => by simp [h, hready] at hz
    rw [state_tickSwitch, Function.update_of_ne hpn]
    by_cases hc : s.state c = .running
    · have hpc : p ≠ c := fun h => by simp [h, hc] at hz
      rw [if_pos hc, Function.update_of_ne hpc, hz]
    · rw [if_neg hc, hz]

/-! ## Runs -/

/-- The scheduler, with what the run has done so far. -/
structure SchedRun (P : Type) where
  /-- The scheduler. -/
  sched : SchedState P
  /-- The processes that were created and added. -/
  created : Finset P
  /-- Some tick or exit has switched processes. -/
  switched : Bool
  /-- The machine is in `khalt`. -/
  halted : Bool

/-- What drives the scheduler: a new process (its PCB and stack top, or `none` if it could not be
created), a timer tick, or an exit of the current process. -/
inductive SchedOp (P : Type)
  | add (new : Option (P × ℕ))
  | tick
  | exit (code : ℤ)

/-- Carry out one operation. -/
def SchedRun.exec (m : SchedRun P) : SchedOp P → Option (SchedRun P)
  | .add none => some { m with sched := schedulerAdd m.sched none }
  | .add (some (p, top)) =>
    some { m with
      sched := schedulerAdd (initPcb m.sched p top) (some p)
      created := insert p m.created }
  | .tick => do
    let (s, switch) ← schedulerTick m.sched
    return { m with sched := s, switched := m.switched || switch.isSome }
  -- If no other process is ready, `scheduler_tick` comes back and `khalt` follows.
  | .exit code => do
    let (s, halted) ← sysExit m.sched code
    return { m with sched := s, switched := m.switched || !halted, halted := halted }

/-- A new process has a PCB that no process had before. -/
def SchedRun.Fresh (m : SchedRun P) : SchedOp P → Prop
  | .add (some (p, _)) => p ∉ m.created
  | _ => True

/-- One step. Interrupts are off in `khalt`, so that nothing happens after it. -/
def SchedStep (m : SchedRun P) (op : SchedOp P) (m' : SchedRun P) : Prop :=
  m.halted = false ∧ m.Fresh op ∧ m.exec op = some m'

/-- The scheduler right after `scheduler_init`. -/
def SchedRun.boot (s : SchedState P) (idle : P) : SchedRun P :=
  ⟨s, {idle}, false, false⟩

/-- The ring `q` of the created processes, with `c` current in it. -/
structure SchedRun.Inv (m : SchedRun P) (q : List P) (c : P) : Prop where
  /-- The processes are in the queue. -/
  queue : m.sched.IsQueue q
  /-- The queue has all processes that were created, and no others. -/
  mem : ∀ p, p ∈ q ↔ p ∈ m.created
  /-- There is a current process. -/
  current : m.sched.current = some c
  /-- The current process is in the queue. -/
  current_mem : c ∈ q
  /-- The current process is running, or is a zombie if the machine has halted. -/
  current_state : m.sched.state c = if m.halted then .zombie else .running
  /-- No other process is running. -/
  running : ∀ p ∈ q, m.sched.state p = .running → p = c
  /-- After a switch the TSS has the stack of the current process. -/
  esp0 : m.switched = true → m.sched.esp0 = m.sched.kernelStackTop c

/-- The zombies among the processes `q` stay zombies with the same exit code. -/
def KeepsZombies (q : List P) (s s' : SchedState P) : Prop :=
  ∀ p ∈ q, s.state p = .zombie → s'.state p = .zombie ∧ s'.exitCode p = s.exitCode p

omit [DecidableEq P] in
theorem KeepsZombies.trans {q' : List P} {s s' s'' : SchedState P} (h : KeepsZombies q s s')
    (h' : KeepsZombies q' s' s'') (hsub : q ⊆ q') : KeepsZombies q s s'' := fun p hp hz => by
  obtain ⟨h₁, h₂⟩ := h p hp hz
  obtain ⟨h₃, h₄⟩ := h' p (hsub hp) h₁
  exact ⟨h₃, h₄.trans h₂⟩

section Steps

variable {m : SchedRun P}

/-- A new process keeps the invariant. -/
theorem SchedRun.Inv.add (hinv : m.Inv q c) (hp : p ∉ m.created) (top : ℕ) :
    SchedRun.Inv { m with
      sched := schedulerAdd (initPcb m.sched p top) (some p)
      created := insert p m.created } (insertAfterHead p q) c ∧
    KeepsZombies q m.sched (schedulerAdd (initPcb m.sched p top) (some p)) := by
  have hpq : p ∉ q := mt (hinv.mem p).mp hp
  have hne : ∀ x ∈ q, x ≠ p := fun x hx h => hpq (h ▸ hx)
  obtain ⟨hstate, hexit, htop, hcur, hesp⟩ := schedulerAdd_fields (initPcb m.sched p top) p
  -- The new PCB is none of the ring, so that the states of its processes stay.
  have hsame : ∀ x ∈ q, (schedulerAdd (initPcb m.sched p top) (some p)).state x =
      m.sched.state x := fun x hx => by
    simp [hstate, hne x hx]
  have hqueue : (initPcb m.sched p top).IsQueue q :=
    hinv.queue.congr rfl fun x hx => by simp [hne x hx]
  refine ⟨⟨schedulerAdd_isQueue hqueue hpq, fun x => ?_, hcur.trans hinv.current,
    mem_insertAfterHead.mpr (.inr hinv.current_mem),
    (hsame c hinv.current_mem).trans hinv.current_state, fun x hx hrun => ?_, fun hsw => ?_⟩,
    fun x hx hz => ⟨(hsame x hx).trans hz, ?_⟩⟩
  · rw [mem_insertAfterHead, hinv.mem, Finset.mem_insert]
  · rcases mem_insertAfterHead.mp hx with rfl | hx
    · simp [hstate] at hrun
    · exact hinv.running x hx ((hsame x hx).symm.trans hrun)
  · show (schedulerAdd _ _).esp0 = (schedulerAdd _ _).kernelStackTop c
    rw [hesp, htop, kernelStackTop_initPcb, Function.update_of_ne (hne c hinv.current_mem)]
    exact hinv.esp0 hsw
  · rw [hexit, exitCode_initPcb, Function.update_of_ne (hne x hx)]

/-- A tick that switches from `c` to `n`, whatever state it left `c` in before. -/
theorem SchedRun.inv_of_switch {s : SchedState P} (hq : s.IsQueue q)
    (hmem : ∀ p, p ∈ q ↔ p ∈ m.created) (hone : ∀ p ∈ q, s.state p = .running → p = c)
    (hn : n ∈ q) (hready : s.state n = .ready) :
    SchedRun.Inv { m with sched := tickSwitch s c n, switched := true, halted := false } q n ∧
      KeepsZombies q s (tickSwitch s c n) := by
  obtain ⟨hqueue, hrun, hone', hz⟩ := tickSwitch_spec hq hone hready
  obtain ⟨-, hexit, htop⟩ := tickSwitch_fields s c n
  refine ⟨⟨hqueue, hmem, rfl, hn, hrun, hone', fun _ => ?_⟩, fun p _ hp => ⟨hz p hp, ?_⟩⟩
  · rw [esp0_tickSwitch, htop]
  · rw [hexit]

/-- A tick keeps the invariant. -/
theorem SchedRun.Inv.tick (hinv : m.Inv q c) (hlive : m.halted = false) :
    ∃ m' c', m.exec .tick = some m' ∧ m'.Inv q c' ∧ KeepsZombies q m.sched m'.sched ∧
      m'.halted = false := by
  rcases schedulerTick_spec hinv.queue hinv.current hinv.current_mem with
    htick | ⟨n, hn, -, hready, htick⟩
  · refine ⟨{ m with sched := timerTick m.sched }, c, ?_, ?_, fun p _ hz => ⟨hz, rfl⟩, hlive⟩
    · simp [SchedRun.exec, htick]
    · exact ⟨hinv.queue.timerTick, hinv.mem, hinv.current, hinv.current_mem, hinv.current_state,
        hinv.running, hinv.esp0⟩
  · obtain ⟨hinv', hz⟩ :=
      SchedRun.inv_of_switch hinv.queue.timerTick hinv.mem hinv.running hn hready
    refine ⟨_, n, ?_, hinv', hz, rfl⟩
    simp [SchedRun.exec, htick, hlive]

/-- An exit is a tick with the current process a zombie. -/
theorem SchedRun.exec_exit (hcur : m.sched.current = some c) (code : ℤ) :
    m.exec (.exit code) =
      (schedulerTick ((m.sched.setState c .zombie).setExitCode c code)).map fun r =>
        { m with sched := r.1, switched := m.switched || r.2.isSome, halted := r.2.isNone } := by
  simp only [SchedRun.exec, sysExit, hcur]
  cases schedulerTick ((m.sched.setState c .zombie).setExitCode c code) with
  | none => rfl
  | some r =>
    obtain ⟨s, switch⟩ := r
    cases switch <;> rfl

/-- An exit keeps the invariant. The machine halts only if the current process stays. -/
theorem SchedRun.Inv.exit (hinv : m.Inv q c) (hlive : m.halted = false) (code : ℤ) :
    ∃ m' c', m.exec (.exit code) = some m' ∧ m'.Inv q c' ∧ KeepsZombies q m.sched m'.sched ∧
      (c' = c ∨ m'.halted = false) := by
  -- `s` is the scheduler when `sys_exit` calls `scheduler_tick`.
  let s := (m.sched.setState c .zombie).setExitCode c code
  have hstate : s.state = Function.update m.sched.state c .zombie := by simp [s]
  have hexit : s.exitCode = Function.update m.sched.exitCode c code := by simp [s]
  have hqueue : s.IsQueue q := hinv.queue.congr rfl fun x _ => by simp [s]
  have hone : ∀ p ∈ q, s.state p = .running → p = c := fun p hp hrun => by
    by_contra hpc
    rw [hstate, Function.update_of_ne hpc] at hrun
    exact hpc (hinv.running p hp hrun)
  have hzombies : KeepsZombies q m.sched s := fun p _ hz => by
    have hpc : p ≠ c := fun h => by simp [h, hinv.current_state, hlive] at hz
    rw [hstate, hexit, Function.update_of_ne hpc, Function.update_of_ne hpc]
    exact ⟨hz, rfl⟩
  rcases schedulerTick_spec hqueue hinv.current hinv.current_mem with
    htick | ⟨n, hn, hnc, hready, htick⟩
  · -- Nothing to switch to: `sys_exit` goes on to `khalt`, with the zombie still current.
    refine ⟨{ m with sched := timerTick s, halted := true }, c, ?_, ?_, hzombies, .inl rfl⟩
    · simp [SchedRun.exec_exit hinv.current, s, htick]
    · refine ⟨hqueue.timerTick, hinv.mem, hinv.current, hinv.current_mem, ?_, hone, fun hsw => ?_⟩
      · show s.state c = .zombie
        rw [hstate, Function.update_self]
      · show s.esp0 = s.kernelStackTop c
        simpa [s] using hinv.esp0 hsw
  · obtain ⟨hinv', hz⟩ := SchedRun.inv_of_switch hqueue.timerTick hinv.mem hone hn hready
    refine ⟨_, n, ?_, hinv', hzombies.trans hz (List.Subset.refl q), .inr rfl⟩
    simp [SchedRun.exec_exit hinv.current, s, htick]

/-- Every operation that can happen returns and keeps the invariant and the zombies. The current
process changes only in a machine that goes on. -/
theorem SchedRun.Inv.exec {op : SchedOp P} (hinv : m.Inv q c) (hlive : m.halted = false)
    (hfresh : m.Fresh op) :
    ∃ m' q' c', m.exec op = some m' ∧ m'.Inv q' c' ∧ q ⊆ q' ∧
      KeepsZombies q m.sched m'.sched ∧ (c' = c ∨ m'.halted = false) := by
  match op, hfresh with
  | .add none, _ => exact ⟨m, q, c, rfl, hinv, fun _ => id, fun _ _ hz => ⟨hz, rfl⟩, .inl rfl⟩
  | .add (some (p, top)), hp =>
    obtain ⟨hinv', hz⟩ := hinv.add hp top
    exact ⟨_, _, c, rfl, hinv', fun x hx => mem_insertAfterHead.mpr (.inr hx), hz, .inl rfl⟩
  | .tick, _ =>
    obtain ⟨m', c', hexec, hinv', hz, hlive'⟩ := hinv.tick hlive
    exact ⟨m', q, c', hexec, hinv', fun _ => id, hz, .inr hlive'⟩
  | .exit code, _ =>
    obtain ⟨m', c', hexec, hinv', hz, hcase⟩ := hinv.exit hlive code
    exact ⟨m', q, c', hexec, hinv', fun _ => id, hz, hcase⟩

end Steps

/-- `scheduler_init` leaves a ring of the idle process alone, RUNNING. -/
theorem SchedRun.inv_boot {s₀ : SchedState P} {idle : P} {top : ℕ} (hrq : s₀.runQueue = none)
    (hinit : schedulerInit s₀ (some (idle, top)) = some s) :
    (SchedRun.boot s idle).Inv [idle] idle := by
  obtain rfl := Option.some.inj hinit
  -- Whatever was in the PCB before, the queue was empty.
  have hempty : ((initPcb s₀ idle top).setPid idle 0).IsQueue [] := ⟨hrq, trivial⟩
  have hadd := schedulerAdd_isQueue hempty (p := idle) List.not_mem_nil
  refine ⟨hadd.congr rfl fun x _ => ?_, fun p => ?_, rfl, List.mem_singleton_self idle, ?_,
    fun p hp _ => List.mem_singleton.mp hp, fun h => by cases h⟩
  · exact congrFun (SchedState.next_setState _ idle .running) x
  · simp [SchedRun.boot]
  · exact (congrFun (SchedState.state_setState _ idle .running) idle).trans
      (Function.update_self _ _ _)

variable {m₀ m m' : SchedRun P} {ops ops' : List (SchedOp P)}

/-- A run keeps the invariant. Zombies that are not current never become current. -/
theorem SchedRun.Inv.of_run (hinv : m₀.Inv q c) (hrun : Run SchedStep m₀ ops m) :
    ∃ q' c', m.Inv q' c' ∧ q ⊆ q' ∧ KeepsZombies q m₀.sched m.sched ∧
      ∀ p ∈ q, m₀.sched.state p = .zombie → p ≠ c → p ≠ c' := by
  refine hrun.invariant (fun _ m => ∃ q' c', m.Inv q' c' ∧ q ⊆ q' ∧
    KeepsZombies q m₀.sched m.sched ∧ ∀ p ∈ q, m₀.sched.state p = .zombie → p ≠ c → p ≠ c')
    ⟨q, c, hinv, fun _ => id, fun _ _ hz => ⟨hz, rfl⟩, fun _ _ _ => id⟩ ?_
  rintro _ m₁ op m₂ ⟨q₁, c₁, hinv₁, hsub, hz, hcur⟩ ⟨hlive, hfresh, hexec⟩
  obtain ⟨m₂', q₂, c₂, hexec', hinv₂, hsub', hz', hcase⟩ := hinv₁.exec hlive hfresh
  obtain rfl : m₂ = m₂' := Option.some.inj (hexec.symm.trans hexec')
  have hzombie := hz.trans hz' hsub
  refine ⟨q₂, c₂, hinv₂, List.Subset.trans hsub hsub', hzombie, fun p hp hzp hpc heq => ?_⟩
  rcases hcase with rfl | hlive'
  · exact hcur p hp hzp hpc heq
  · -- The machine goes on, so that its current process is RUNNING.
    have hstate := hinv₂.current_state
    rw [hlive', ← heq, (hzombie p hp hzp).1] at hstate
    cases hstate

/-- In every state `m` reached from `scheduler_init`, the created processes form the ring and
`current` is one of them, the only one that may be RUNNING, and RUNNING unless the machine halted
in its exit; `tss.esp0` is its stack top once a switch was made; every operation returns; and what
is a zombie in `m` is one with the same exit code in every later state `m'`, and not current there
unless it was in `m`. -/
theorem scheduler_invariant_of_run {s₀ : SchedState P} {idle : P} {top : ℕ}
    (hrq : s₀.runQueue = none) (hinit : schedulerInit s₀ (some (idle, top)) = some s)
    (hrun : Run SchedStep (SchedRun.boot s idle) ops m) (hrun' : Run SchedStep m ops' m') :
    (∃ q c, m.sched.IsQueue q ∧ (∀ p, p ∈ q ↔ p ∈ m.created) ∧
      m.sched.current = some c ∧ c ∈ q ∧
      (∀ p ∈ m.created, m.sched.state p = .running → p = c) ∧
      m.sched.state c = (if m.halted then .zombie else .running) ∧
      (m.switched = true → m.sched.esp0 = m.sched.kernelStackTop c)) ∧
    (m.halted = false → ∀ op, m.Fresh op → ∃ m₁, m.exec op = some m₁) ∧
    ∀ p ∈ m.created, m.sched.state p = .zombie →
      m'.sched.state p = .zombie ∧ m'.sched.exitCode p = m.sched.exitCode p ∧
      (m.sched.current ≠ some p → m'.sched.current ≠ some p) := by
  obtain ⟨q, c, hinv, -⟩ := (SchedRun.inv_boot hrq hinit).of_run hrun
  obtain ⟨q', c', hinv', -, hz, hcur⟩ := hinv.of_run hrun'
  refine ⟨⟨q, c, hinv.queue, hinv.mem, hinv.current, hinv.current_mem,
    fun p hp => hinv.running p ((hinv.mem p).mpr hp), hinv.current_state, hinv.esp0⟩,
    fun hlive op hfresh => ?_, fun p hp hzp => ?_⟩
  · obtain ⟨m₁, -, -, hexec, -⟩ := hinv.exec hlive hfresh
    exact ⟨m₁, hexec⟩
  · -- A process that has exited is never chosen again.
    have hpq := (hinv.mem p).mpr hp
    refine ⟨(hz p hpq hzp).1, (hz p hpq hzp).2, fun hne => ?_⟩
    rw [hinv'.current]
    rw [hinv.current] at hne
    exact fun h => hcur p hpq hzp (fun h => hne (by rw [h])) (Option.some.inj h).symm

/-- The scheduler with the idle process alone. -/
def idleOnly : SchedState ℕ :=
  (schedulerInit emptyQueue.sched (some (0, 4096))).getD emptyQueue.sched

/-- A second process is added, runs and exits with code 7: the idle process takes over. -/
theorem scheduler_invariant_of_run_exit :
    ∃ m m', Run SchedStep (SchedRun.boot idleOnly 0) [.add (some (1, 8192)), .tick, .exit 7] m ∧
      Run SchedStep m [.tick] m' ∧ m'.sched.state 1 = .zombie ∧ m'.sched.exitCode 1 = 7 ∧
      m'.sched.current ≠ some 1 := by
  have hadd : SchedStep (SchedRun.boot idleOnly 0) (.add (some (1, 8192))) _ :=
    ⟨rfl, by simp [SchedRun.Fresh, SchedRun.boot], rfl⟩
  have hrun₁ := (Run.nil _).snoc hadd
  have hrun₂ := hrun₁.snoc (a := SchedOp.tick) ⟨rfl, trivial, rfl⟩
  have hrun₃ := hrun₂.snoc (a := SchedOp.exit 7) ⟨rfl, trivial, rfl⟩
  refine ⟨_, _, hrun₃, (Run.nil _).snoc (a := SchedOp.tick) ⟨rfl, trivial, rfl⟩, ?_⟩
  obtain ⟨-, -, hz⟩ := scheduler_invariant_of_run
    (show emptyQueue.sched.runQueue = none from rfl) rfl hrun₃
    ((Run.nil _).snoc (a := SchedOp.tick) ⟨rfl, trivial, rfl⟩)
  obtain ⟨hstate, hexit, hcur⟩ := hz 1 (by decide) rfl
  exact ⟨hstate, hexit, hcur (by decide)⟩

end Lightstreak
