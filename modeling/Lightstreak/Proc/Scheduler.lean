import Lightstreak.Lib.Word
import Lightstreak.Lib.Ring

/-!
# The round-robin scheduler (`kernel/proc/scheduler.c`)

The run queue is a circular list linked through the `next` fields of the process control blocks.
A process is a value of an arbitrary type `P`, which stands for the address of its `process_t`;
`NULL` is `none`. Dereferencing `NULL` makes a function return `none`.

`scheduler_tick` reports the switch it makes as the pair handed to `context_switch`; the switch
itself is modelled in `Lightstreak.Proc.ContextSwitch`. `sys_exit` of `kernel/syscall/syscall.c`
is here because it works on the same state.
-/

namespace Lightstreak

open SysLib

/-- `proc_state_t` -/
inductive ProcState
  | ready
  | running
  | blocked
  | zombie
deriving DecidableEq, Repr

/-- The fields of `process_t` that the scheduler uses. -/
structure Pcb (P : Type) where
  /-- The process id. `0` is the idle process. -/
  pid : ℕ
  /-- `kernel_stack_top`, to which `esp0` is set when the process is switched in. -/
  kernelStackTop : ℕ
  /-- Where the process is in its life. -/
  state : ProcState
  /-- What the process passed to `sys_exit`. -/
  exitCode : ℤ
  /-- The link of the run queue, `none` for `NULL`. -/
  next : Option P

/-- The static variables of `scheduler.c` and the memory that it works on. -/
structure SchedState (P : Type) where
  /-- The process that runs; `none` before `scheduler_init`. -/
  current : Option P
  /-- `run_queue`, the entry to the ring. -/
  runQueue : Option P
  /-- The process control blocks in memory. -/
  procs : P → Pcb P
  /-- `next_pid` of `process.c` -/
  nextPid : ℕ
  /-- `tss.esp0` -/
  esp0 : ℕ
  /-- `tick_count` of `timer.c` -/
  tickCount : ℕ

variable {P : Type} [DecidableEq P]

namespace SchedState

/-- The `next` field of a process. -/
def next (s : SchedState P) (p : P) : Option P := (s.procs p).next

/-- The `state` field of a process. -/
def state (s : SchedState P) (p : P) : ProcState := (s.procs p).state

/-- The `exit_code` field of a process. -/
def exitCode (s : SchedState P) (p : P) : ℤ := (s.procs p).exitCode

/-- The `kernel_stack_top` field of a process. -/
def kernelStackTop (s : SchedState P) (p : P) : ℕ := (s.procs p).kernelStackTop

/-- An assignment to a field of the PCB `p`. -/
def modify (s : SchedState P) (p : P) (f : Pcb P → Pcb P) : SchedState P :=
  { s with procs := Function.update s.procs p (f (s.procs p)) }

/-- `p->pid = pid` -/
def setPid (s : SchedState P) (p : P) (pid : ℕ) : SchedState P :=
  s.modify p fun r => { r with pid := pid }

/-- `p->next = q` -/
def setNext (s : SchedState P) (p : P) (q : Option P) : SchedState P :=
  s.modify p fun r => { r with next := q }

/-- `p->state = st` -/
def setState (s : SchedState P) (p : P) (st : ProcState) : SchedState P :=
  s.modify p fun r => { r with state := st }

/-- `p->exit_code = code` -/
def setExitCode (s : SchedState P) (p : P) (code : ℤ) : SchedState P :=
  s.modify p fun r => { r with exitCode := code }

end SchedState

/-! ## Queue management -/

/-- `scheduler_add` -/
def schedulerAdd (s : SchedState P) : Option P → SchedState P
  | none => s
  | some p =>
    let s := s.setState p .ready
    match s.runQueue with
    | none => { s with runQueue := some p }.setNext p (some p)
    | some rq => (s.setNext p (s.next rq)).setNext rq (some p)

/-- `scheduler_remove`. The search for the predecessor is a `while` loop; `fuel` bounds its turns.
-/
def schedulerRemove (fuel : ℕ) (s : SchedState P) (p : Option P) : Option (SchedState P) :=
  match p, s.runQueue with
  | some p, some rq => do
    let prev ← (loop (Ring.findPred s.next p rq) fuel rq).join
    if s.next prev ≠ some p then
      -- Not found
      return s
    let s' :=
      if s.next p = some p then
        -- Only one element
        { s with runQueue := none }
      else
        let s' := s.setNext prev (s.next p)
        if rq = p then { s' with runQueue := s'.next p } else s'
    return s'.setNext p none
  | _, _ => some s

/-! ## Creation and start -/

/-- What `process_create` and `process_create_user` leave for the scheduler in the zeroed PCB `p`,
whose kernel stack ends at `top`. -/
def initPcb (s : SchedState P) (p : P) (top : ℕ) : SchedState P :=
  { s.modify p fun _ =>
      { pid := s.nextPid, kernelStackTop := top, state := .ready, exitCode := 0, next := none } with
    nextPid := add32 s.nextPid 1 }

/-- `scheduler_init`. `idle` is the PCB and the stack top of the idle process, or `none` if
`process_create` fails; the kernel then halts (`none`). -/
def schedulerInit (s : SchedState P) : Option (P × ℕ) → Option (SchedState P)
  | none => none
  | some (idle, top) =>
    let s := (initPcb s idle top).setPid idle 0
    let s := schedulerAdd s (some idle)
    some ({ s with current := some idle }.setState idle .running)

/-! ## The timer tick -/

/-- `timer_tick` -/
def timerTick (s : SchedState P) : SchedState P :=
  { s with tickCount := add32 s.tickCount 1 }

/-- The search of `scheduler_tick` for a READY process, with the number of steps left. -/
def tickSearch (s : SchedState P) (cur : P) : ℕ → Option P → Option P
  | _, none => none
  | 0, some next => some next
  | steps + 1, some next =>
    if s.state next ≠ .ready ∧ next ≠ cur then tickSearch s cur steps (s.next next)
    else some next

/-- The end of `scheduler_tick`, up to the call of `context_switch`. -/
def tickSwitch (s : SchedState P) (cur next : P) : SchedState P :=
  -- A process that has just exited is a zombie here, and stays one.
  let s := if s.state cur = .running then s.setState cur .ready else s
  let s := s.setState next .running
  { s with current := some next, esp0 := s.kernelStackTop next }

/-- `scheduler_tick`, with the arguments of the `context_switch` it ends in, if any. -/
def schedulerTick (s : SchedState P) : Option (SchedState P × Option (P × P)) :=
  let s := timerTick s
  match s.runQueue, s.current with
  | some _, some cur => do
    let next ← tickSearch s cur 64 (s.next cur)
    -- The search came back to `cur`, or gave up after 64 steps.
    if next = cur then
      return (s, none)
    if s.state next ≠ .ready then
      return (s, none)
    return (tickSwitch s cur next, some (cur, next))
  | _, _ => some (s, none)

/-- `sys_exit`, and whether it ends in `khalt`: a process that is switched out in the tick halts
only if it is ever switched in again. -/
def sysExit (s : SchedState P) (code : ℤ) : Option (SchedState P × Bool) := do
  let s :=
    match s.current with
    | some cur => (s.setState cur .zombie).setExitCode cur code
    | none => s
  let (s, switched) ← schedulerTick s
  return (s, switched.isNone)

/-! ## Field lemmas -/

namespace SchedState

variable {β : Type*} (s : SchedState P) (p : P) (f : Pcb P → Pcb P)

/-- A field that the assignment does not write. -/
theorem field_modify_of_eq (g : Pcb P → β) (hg : ∀ r, g (f r) = g r) :
    (fun q => g ((s.modify p f).procs q)) = fun q => g (s.procs q) := by
  funext q
  rcases eq_or_ne q p with rfl | h
  · simp [modify, hg]
  · simp [modify, h]

/-- The field that the assignment writes. -/
theorem field_modify_of_const (g : Pcb P → β) {x : β} (hg : ∀ r, g (f r) = x) :
    (fun q => g ((s.modify p f).procs q)) = Function.update (fun q => g (s.procs q)) p x := by
  funext q
  rcases eq_or_ne q p with rfl | h
  · simp [modify, hg]
  · simp [modify, h]

variable (x : Option P) (st : ProcState) (code : ℤ)

/-- Setting the link of a process. -/
@[simp]
theorem next_setNext : (s.setNext p x).next = Function.update s.next p x :=
  s.field_modify_of_const p _ Pcb.next fun _ => rfl

/-- An assignment to `state` leaves the links. -/
@[simp]
theorem next_setState : (s.setState p st).next = s.next :=
  s.field_modify_of_eq p _ Pcb.next fun _ => rfl

/-- An assignment to `exit_code` leaves the links. -/
@[simp]
theorem next_setExitCode : (s.setExitCode p code).next = s.next :=
  s.field_modify_of_eq p _ Pcb.next fun _ => rfl

/-- Setting the state of a process. -/
@[simp]
theorem state_setState : (s.setState p st).state = Function.update s.state p st :=
  s.field_modify_of_const p _ Pcb.state fun _ => rfl

/-- An assignment to `next` leaves the states. -/
@[simp]
theorem state_setNext : (s.setNext p x).state = s.state :=
  s.field_modify_of_eq p _ Pcb.state fun _ => rfl

/-- An assignment to `exit_code` leaves the states. -/
@[simp]
theorem state_setExitCode : (s.setExitCode p code).state = s.state :=
  s.field_modify_of_eq p _ Pcb.state fun _ => rfl

/-- Setting the exit code of a process. -/
@[simp]
theorem exitCode_setExitCode :
    (s.setExitCode p code).exitCode = Function.update s.exitCode p code :=
  s.field_modify_of_const p _ Pcb.exitCode fun _ => rfl

/-- An assignment to `state` leaves the exit codes. -/
@[simp]
theorem exitCode_setState : (s.setState p st).exitCode = s.exitCode :=
  s.field_modify_of_eq p _ Pcb.exitCode fun _ => rfl

/-- An assignment to `next` leaves the exit codes. -/
@[simp]
theorem exitCode_setNext : (s.setNext p x).exitCode = s.exitCode :=
  s.field_modify_of_eq p _ Pcb.exitCode fun _ => rfl

/-- An assignment to `state` leaves the stack tops. -/
@[simp]
theorem kernelStackTop_setState : (s.setState p st).kernelStackTop = s.kernelStackTop :=
  s.field_modify_of_eq p _ Pcb.kernelStackTop fun _ => rfl

/-- An assignment to `next` leaves the stack tops. -/
@[simp]
theorem kernelStackTop_setNext : (s.setNext p x).kernelStackTop = s.kernelStackTop :=
  s.field_modify_of_eq p _ Pcb.kernelStackTop fun _ => rfl

/-- An assignment to `exit_code` leaves the stack tops. -/
@[simp]
theorem kernelStackTop_setExitCode :
    (s.setExitCode p code).kernelStackTop = s.kernelStackTop :=
  s.field_modify_of_eq p _ Pcb.kernelStackTop fun _ => rfl

/-- An assignment to `next` does not move `run_queue`. -/
@[simp]
theorem runQueue_setNext : (s.setNext p x).runQueue = s.runQueue := rfl

/-- An assignment to `state` does not move `run_queue`. -/
@[simp]
theorem runQueue_setState : (s.setState p st).runQueue = s.runQueue := rfl

/-- An assignment to `exit_code` does not move `run_queue`. -/
@[simp]
theorem runQueue_setExitCode : (s.setExitCode p code).runQueue = s.runQueue := rfl

/-- An assignment to `next` does not change which process is current. -/
@[simp]
theorem current_setNext : (s.setNext p x).current = s.current := rfl

/-- An assignment to `state` does not change which process is current. -/
@[simp]
theorem current_setState : (s.setState p st).current = s.current := rfl

/-- An assignment to `exit_code` does not change which process is current. -/
@[simp]
theorem current_setExitCode : (s.setExitCode p code).current = s.current := rfl

/-- An assignment to `next` does not touch the TSS. -/
@[simp]
theorem esp0_setNext : (s.setNext p x).esp0 = s.esp0 := rfl

/-- An assignment to `state` does not touch the TSS. -/
@[simp]
theorem esp0_setState : (s.setState p st).esp0 = s.esp0 := rfl

/-- An assignment to `exit_code` does not touch the TSS. -/
@[simp]
theorem esp0_setExitCode : (s.setExitCode p code).esp0 = s.esp0 := rfl

end SchedState

end Lightstreak
