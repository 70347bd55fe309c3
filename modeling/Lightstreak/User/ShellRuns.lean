import Lightstreak.User.CommandSpecs
import Lightstreak.User.ShellScreen

/-!
# Sessions with the shell (`_start` of `userspace/shell/shell.c`)

`_start` prints its banner and then, in a loop, the prompt, reads a line and runs it. It waits for
characters only, so that a session is a run over the characters that are typed, with timer
interrupts between them.

Timer interrupts that come while a command is running are moved out of it. By
`syscallHandler_ticked` they commute with all system calls of the commands but `SYS_UPTIME`: one
that comes before that call is like one before the command, and one that comes after it, like one
before the next character.

* `transcript` is what the user is to see: characters are echoed, and each line is answered with its
  `output`, until `exit`;
* `session_transcript`: the shell never fails, whatever is typed, prints exactly the transcript and
  leaves no descriptor open and no file changed.
-/

namespace Lightstreak.User

open SysLib

variable {P : Type}

/-! ## The loop -/

/-- A character arrives for `sys_read`, or the timer interrupts. -/
inductive ShellEvent
  | key (c : UInt8)
  | timerIrq

/-- The shell waits in `readline` with `cmd` and `pos`, or it has called `sys_exit`. -/
inductive Session (P : Type)
  | waiting (k : KernelState P) (cmd : ℕ → UInt8) (pos : ℕ)
  | exited (k : KernelState P)

/-- The state of the kernel. -/
def Session.kernel : Session P → KernelState P
  | .waiting k _ _ | .exited k => k

/-- The lines that are printed first. -/
def banner : List (List UInt8) :=
  [ascii "\n",
    ascii "  ___                _                ___  ___\n",
    ascii " / _ \\              | |               |  \\/  |\n",
    ascii "/ /_\\ \\_ __  _   _| |__   __ ___   _| .  . |\n",
    ascii "|  _  | '_ \\| | | | '_ \\ / _` \\ \\ / / |\\/| |\n",
    ascii "| | | | | | | |_| | |_) | (_| |\\ V /| |  | |\n",
    ascii "\\_| |_/_| |_|\\__,_|_.__/ \\__,_| \\_/ \\_|  |_/\n",
    ascii "\n",
    ascii "Welcome to AnubhavOS! Type 'help' for commands.\n\n"]

variable [DecidableEq P] (env : Env)

/-- `print_prompt()` and the start of `readline`. -/
def awaitLine (k : KernelState P) (cmd : ℕ → UInt8) : Option (Session P) := do
  let (_, k) ← printPrompt env k
  return .waiting k cmd 0

/-- `_start` up to the first wait. -/
def start (k : KernelState P) (cmd : ℕ → UInt8) : Option (Session P) := do
  let (_, k) ← (banner.forM fun s => print env (s ++ [0])) k
  awaitLine env k cmd

/-- From the return of `readline` to the next wait. -/
def afterLine (k : KernelState P) (cmd : ℕ → UInt8) (len : ℕ) : Option (Session P) :=
  if len = 0 then awaitLine env k cmd
  else do
    let (more, k) ← runCommand env (bufText cmdBufSize cmd) k
    if more then awaitLine env k cmd else return .exited k

/-- One event. After `sys_exit` the program is over. A command runs to its end within the event of
its last character, and the timer interrupts that come meanwhile are events of their own before or
after it. -/
def Session.step : Session P → ShellEvent → Option (Session P)
  | .exited k, _ => some (.exited k)
  | .waiting k cmd pos, .timerIrq => do
    let (_, k) ← k.exec env.fuel .timerIrq
    return .waiting k cmd pos
  | .waiting k cmd pos, .key c => do
    let (line, s) ← readlineStep env ⟨k, cmd, pos⟩ c
    match line with
    | none => return .waiting s.kernel s.cmd s.pos
    | some (len, cmd) => afterLine env s.kernel cmd len

/-! ## The transcript -/

/-- What is shown of a character, behind the text of the line. -/
def echoOf (text : List UInt8) (c : UInt8) : List UInt8 :=
  if isEnter c then [0x0A] else echoKey text c

/-- A line ends the session. -/
def isExit (line : List UInt8) : Bool := commandOf (cstr line) = .exit

/-- The answer to a line, up to the next one. -/
def answer (v : View) (line : List UInt8) : List UInt8 :=
  if line = [] then prompt
  else output v (cstr line) ++ if isExit line then [] else prompt

/-- What the user knows of the session: what the kernel shows and the text of the line, or that it
is over. -/
abbrev UserState := Option (View × List UInt8)

/-- The line that the character completes, if it does. -/
def completed (text : List UInt8) (c : UInt8) : Option (List UInt8) :=
  (lineStep isEnter isErase 255 ([], text) c).1.head?

/-- What is shown in answer to an event, and what the user knows afterwards. -/
def reaction : UserState → ShellEvent → List UInt8 × UserState
  | none, _ => ([], none)
  | some (v, text), .timerIrq => ([], some ({ v with ticks := add32 v.ticks 1 }, text))
  | some (v, text), .key c =>
    let text' := (lineStep isEnter isErase 255 ([], text) c).2
    match completed text c with
    | none => (echoOf text c, some (v, text'))
    | some line => (echoOf text c ++ answer v line, if isExit line then none else some (v, text'))

/-- What the user knows after the events. -/
def UserState.after (u : UserState) (events : List ShellEvent) : UserState :=
  events.foldl (fun u e => (reaction u e).2) u

/-- What is shown during a session. -/
def transcript : UserState → List ShellEvent → List UInt8
  | _, [] => []
  | u, e :: es => (reaction u e).1 ++ transcript (reaction u e).2 es

theorem after_append (u : UserState) (es es' : List ShellEvent) :
    u.after (es ++ es') = (u.after es).after es' := List.foldl_append

theorem transcript_append (u : UserState) (es es' : List ShellEvent) :
    transcript u (es ++ es') = transcript u es ++ transcript (u.after es) es' := by
  induction es generalizing u with
  | nil => rfl
  | cons e es ih =>
    rw [List.cons_append, transcript, ih, transcript, List.append_assoc]
    rfl

/-! ## One event -/

variable {k : KernelState P} {q : List P} {c : P} {cmd : ℕ → UInt8}

/-- The session is as the user knows it. -/
inductive Session.Tracks (q : List P) (c : P) : Session P → UserState → Prop
  | waiting {k : KernelState P} {cmd : ℕ → UInt8} {pos : ℕ} (hr : Ready env k q c)
      (hlive : k.halted = false) (hpos : pos < 255) :
      Tracks q c (.waiting k cmd pos) (some (view k q c, bufText pos cmd))
  | exited {k : KernelState P} {c' : P} (hi : KernelInv k q c') : Tracks q c (.exited k) none

/-- After printing the shell is ready as before. -/
theorem Prints.ready {k₀ : KernelState P} {out : List UInt8} (h : Prints k₀ k out)
    (hr : Ready env k₀ q c) : Ready env k q c where
  toKernelInv := h.kernelInv hr.toKernelInv
  pid_lt := h.sched ▸ hr.pid_lt
  ticks_lt := h.sched ▸ hr.ticks_lt
  queue_le := hr.queue_le
  chunks_lt := hr.chunks_lt

/-- The prompt, and an empty line. -/
theorem awaitLine_spec (hr : Ready env k q c) (hlive : k.halted = false) (cmd : ℕ → UInt8) :
    ∃ s, awaitLine env k cmd = some s ∧ s.Tracks env q c (some (view k q c, [])) ∧
      Wrote k s.kernel prompt := by
  have hprints := prints_console k prompt
  have htracks : Session.Tracks env q c (.waiting (printed k prompt) cmd 0) _ :=
    .waiting (hprints.ready env hr) hlive (Nat.zero_lt_succ 254)
  rw [hprints.view q c] at htracks
  refine ⟨_, ?_, htracks, hprints.toWrote⟩
  rw [awaitLine, printPrompt_console]
  rfl

/-- The command line that is read from the buffer ends at the first terminator. -/
theorem exists_bufText_eq {len : ℕ} (hlen : len ≤ 255) (hterm : cmd len = 0) :
    ∃ rest, bufText cmdBufSize cmd = cstr (bufText len cmd) ++ 0 :: rest := by
  have hsplit : bufText cmdBufSize cmd =
      bufText len cmd ++ 0 :: (List.range (255 - len)).map fun i => cmd (len + (i + 1)) := by
    have hsize : cmdBufSize = len + (255 - len + 1) := by
      simp only [cmdBufSize]
      omega
    rw [bufText, hsize, List.range_add, List.range_succ_eq_map, List.map_append]
    simp [bufText, hterm, Function.comp_def]
  obtain ⟨rest, hrest⟩ := exists_eq_cstr_append (l := bufText cmdBufSize cmd) (by simp [hsplit])
  rw [hsplit, cstr_append_cons_zero, ← hsplit] at hrest
  exact ⟨rest, hrest⟩

/-- The answer to a line. -/
theorem afterLine_spec (hr : Ready env k q c) (hlive : k.halted = false) {len : ℕ}
    (hlen : len ≤ 255) (hterm : cmd len = 0) :
    ∃ s, afterLine env k cmd len = some s ∧
      s.Tracks env q c (if isExit (bufText len cmd) then none else some (view k q c, [])) ∧
      Wrote k s.kernel (answer (view k q c) (bufText len cmd)) := by
  by_cases hzero : len = 0
  · subst hzero
    rw [afterLine, if_pos rfl]
    exact awaitLine_spec env hr hlive cmd
  · obtain ⟨rest, hrest⟩ := exists_bufText_eq hlen hterm
    have hne : bufText len cmd ≠ [] := fun h => hzero (by
      rw [← length_bufText len cmd, h, List.length_nil])
    have htext : IsText (cstr (bufText len cmd)) := by
      refine ⟨zero_notMem_cstr _, Nat.lt_of_le_of_lt (List.takeWhile_prefix _).length_le ?_⟩
      rw [length_bufText]
      omega
    rw [afterLine, if_neg hzero, answer, if_neg hne, hrest]
    -- `exit` does not come back to the prompt. All other commands print their output, and the next
    -- line is awaited.
    by_cases hexit : commandOf (cstr (bufText len cmd)) = .exit
    · obtain ⟨_, k', hrun, rfl, hwrote, c', hi'⟩ :=
        wp_runCommand_exit env hr.toKernelInv hlive htext rest hexit
      rw [hrun, isExit, decide_eq_true hexit]
      refine ⟨.exited k', rfl, .exited hi', ?_⟩
      rwa [if_pos rfl, List.append_nil]
    · obtain ⟨_, k', hrun, rfl, hprints⟩ :=
        does_runCommand env hr htext rest hexit k [] (.refl k)
      obtain ⟨s, hs, htracks, hwrote⟩ :=
        awaitLine_spec env (hprints.ready env hr) (hprints.halted.trans hlive) cmd
      rw [hprints.view q c] at htracks
      rw [hrun, isExit, decide_eq_false hexit]
      exact ⟨s, hs, htracks, hprints.toWrote.trans hwrote⟩

/-- `readline` echoes each character, and starts over after a line. -/
theorem readlineStep_echo {s s' : Shell P} (hpos : s.pos < 255)
    {b : UInt8} {line : Option (ℕ × (ℕ → UInt8))} (hstep : readlineStep env s b = some (line, s')) :
    s'.kernel = printed s.kernel (echoOf s.text b) ∧
      ∀ r ∈ line, r.1 ≤ 255 ∧ s'.text = [] := by
  have hnil : s.text = [] ↔ s.pos = 0 := by
    rw [← List.length_eq_zero_iff, Shell.text, length_bufText]
  unfold echoOf echoKey
  obtain ⟨henter, h⟩ | ⟨henter, herase, hzero, h⟩ | ⟨henter, herase, hzero, h⟩ |
    ⟨henter, herase, hroom, h⟩ | ⟨henter, herase, hfull, h⟩ := readlineStep_cases env hpos b
  -- In each case the step is known, and the echo is what this case prints.
  all_goals obtain ⟨rfl, rfl⟩ := Prod.mk.inj (Option.some.inj (hstep.symm.trans h))
  · rw [if_pos henter]
    exact ⟨rfl, by rintro _ ⟨⟩; exact ⟨hpos.le, rfl⟩⟩
  · rw [if_neg (by simp [henter]), if_pos herase, if_pos (hnil.mpr hzero), printed_nil]
    exact ⟨rfl, by simp⟩
  · rw [if_neg (by simp [henter]), if_pos herase, if_neg (by rw [hnil]; omega)]
    exact ⟨rfl, by simp⟩
  · rw [if_neg (by simp [henter]), if_neg (by simp [herase])]
    exact ⟨rfl, by simp⟩
  · rw [if_neg (by simp [henter]), if_neg (by simp [herase])]
    exact ⟨rfl, by rintro _ ⟨⟩; exact ⟨hfull.le, rfl⟩⟩

/-- In every state of the session the kernel is sound. -/
theorem Session.Tracks.kernelInv {s : Session P} {u : UserState} (h : s.Tracks env q c u) :
    ∃ c', KernelInv s.kernel q c' := by
  cases h with
  | waiting hr => exact ⟨c, hr.toKernelInv⟩
  | exited hi => exact ⟨_, hi⟩

/-- A character. -/
theorem step_key (hr : Ready env k q c) (hlive : k.halted = false) {pos : ℕ} (hpos : pos < 255)
    (b : UInt8) :
    let r := reaction (some (view k q c, bufText pos cmd)) (.key b)
    ∃ s, (Session.waiting k cmd pos).step env (.key b) = some s ∧ s.Tracks env q c r.2 ∧
      Wrote k s.kernel r.1 := by
  obtain ⟨line, ⟨k', cmd', pos'⟩, hstep, hpos', hline, hterm, -⟩ :=
    readlineStep_spec env (s := ⟨k, cmd, pos⟩) hpos b
  obtain ⟨rfl, hret⟩ := readlineStep_echo env (s := ⟨k, cmd, pos⟩) hpos hstep
  have hprints := prints_console k (echoOf (bufText pos cmd) b)
  have hlines : lineStep isEnter isErase 255 ([], bufText pos cmd) b = _ := hline []
  -- In the state after the echo the kernel shows what it showed before.
  rw [Session.step, hstep, Option.bind_eq_bind, Option.bind_some]
  simp only [reaction, completed, hlines, List.nil_append]
  rw [← hprints.view q c]
  cases line with
  | none => exact ⟨_, rfl, .waiting (hprints.ready env hr) hlive hpos', hprints.toWrote⟩
  | some r =>
    obtain ⟨hlen, hempty⟩ := hret r rfl
    obtain ⟨s, hs, htracks, hwrote⟩ :=
      afterLine_spec env (hprints.ready env hr) hlive hlen (hterm r rfl).1
    rw [hempty]
    exact ⟨s, hs, htracks, hprints.toWrote.trans hwrote⟩

theorem isText_banner : ∀ s ∈ banner, IsText s := by
  unfold banner
  decide

/-- Every event is answered as the user expects. -/
theorem Session.Tracks.step {s : Session P} {u : UserState} (h : s.Tracks env q c u)
    (e : ShellEvent) : ∃ s', s.step env e = some s' ∧ s'.Tracks env q c (reaction u e).2 ∧
      Wrote s.kernel s'.kernel (reaction u e).1 := by
  cases h with
  | @exited k c' hi => exact ⟨.exited k, rfl, .exited hi, wrote_nil k k.sched k.halted⟩
  | @waiting k cmd pos hr hlive hpos =>
    cases e with
    | timerIrq =>
      have hexec : k.exec env.fuel .timerIrq =
          some ((0, .nothing), { k with sched := timerTick k.sched }) := if_neg (by simp [hlive])
      have hr' : Ready env { k with sched := timerTick k.sched } q c :=
        ⟨hr.toKernelInv.timerTick, hr.pid_lt, Nat.mod_lt _ (by decide), hr.queue_le, hr.chunks_lt⟩
      refine ⟨_, ?_, .waiting hr' hlive hpos, wrote_nil k _ k.halted⟩
      rw [Session.step, hexec]
      rfl
    | key b => exact step_key env hr hlive hpos b

/-- One event after the other, from any point of a session. -/
theorem Session.Tracks.run {s : Session P} {u : UserState} (h : s.Tracks env q c u)
    (events : List ShellEvent) : ∃ s', events.foldlM (Session.step env) s = some s' ∧
      s'.Tracks env q c (u.after events) ∧ Wrote s.kernel s'.kernel (transcript u events) := by
  induction events generalizing s u with
  | nil => exact ⟨s, rfl, h, wrote_nil s.kernel s.kernel.sched s.kernel.halted⟩
  | cons e events ih =>
    obtain ⟨s₁, hstep, htracks, hwrote⟩ := h.step env e
    obtain ⟨s', hfold, htracks', hwrote'⟩ := ih htracks
    refine ⟨s', ?_, htracks', hwrote.trans hwrote'⟩
    rw [List.foldlM_cons, hstep]
    exact hfold

/-- The banner and the first prompt. -/
theorem start_spec (hr : Ready env k q c) (hlive : k.halted = false) (cmd : ℕ → UInt8) :
    ∃ s, start env k cmd = some s ∧ s.Tracks env q c (some (view k q c, [])) ∧
      Wrote k s.kernel (banner.flatten ++ prompt) := by
  have hbanner : Does k (banner.forM fun s => print env (s ++ [0])) ⟨⟩ (banner.flatMap id) :=
    does_forM fun s hs => does_print env (isText_banner s hs) [] k
  rw [List.flatMap_id] at hbanner
  obtain ⟨_, k₁, hprint, -, hprints⟩ := hbanner k [] (.refl k)
  obtain ⟨s, hs, htracks, hwrote⟩ :=
    awaitLine_spec env (hprints.ready env hr) (hprints.halted.trans hlive) cmd
  rw [hprints.view q c] at htracks
  refine ⟨s, ?_, htracks, hprints.toWrote.trans hwrote⟩
  rw [start, hprint]
  exact hs

/-- Sessions with the shell. Whatever is typed, and whenever the timer interrupts, the shell does
not fail and prints exactly the transcript. No file changes, every process has the descriptors that
it had, and the kernel keeps its invariant. -/
theorem session_transcript (hr : Ready env k q c) (hlive : k.halted = false) (cmd : ℕ → UInt8)
    (events : List ShellEvent) :
    ∃ s s', start env k cmd = some s ∧ events.foldlM (Session.step env) s = some s' ∧
      Wrote k s'.kernel (banner.flatten ++ (prompt ++ transcript (some (view k q c, [])) events)) ∧
      ∃ c', KernelInv s'.kernel q c' := by
  obtain ⟨s, hs, htracks, hwrote⟩ := start_spec env hr hlive cmd
  obtain ⟨s', hfold, htracks', hwrote'⟩ := htracks.run env events
  refine ⟨s, s', hs, hfold, ?_, htracks'.kernelInv⟩
  rw [← List.append_assoc]
  exact hwrote.trans hwrote'

/-- The shell of the kernel with an empty filesystem. -/
theorem ready_readyKernel : Ready shellEnv readyKernel [0, 1] 0 :=
  ⟨kernelInv_readyKernel, by decide, by decide, by decide, by decide⟩

/-- The characters `ls` and Enter. -/
theorem session_transcript_ls :
    ∃ s s', start shellEnv readyKernel (fun _ => 0) = some s ∧
      [.key 0x6C, .key 0x73, .timerIrq, .key 0x0A].foldlM (Session.step shellEnv) s = some s' ∧
      Wrote readyKernel s'.kernel (banner.flatten ++ (prompt ++
        (ascii "ls\n  (no files)\n" ++ prompt))) := by
  obtain ⟨s, s', hstart, hrun, hwrote, -⟩ := session_transcript shellEnv ready_readyKernel rfl
    (fun _ => 0) [.key 0x6C, .key 0x73, .timerIrq, .key 0x0A]
  have hout : transcript (some (view readyKernel [0, 1] 0, []))
      [.key 0x6C, .key 0x73, .timerIrq, .key 0x0A] = ascii "ls\n  (no files)\n" ++ prompt := by
    decide
  rw [hout] at hwrote
  exact ⟨s, s', hstart, hrun, hwrote⟩

end Lightstreak.User
