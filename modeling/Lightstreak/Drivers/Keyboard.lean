import Lightstreak.Lib.RingBuffer
import Lightstreak.Lib.Bytes

/-!
# The keyboard driver (`kernel/drivers/keyboard.c`)

The interrupt handler translates scancodes and puts the characters into a ring buffer; a single
consumer takes them out in `keyboard_getchar`. An interrupt can come between any two steps of the
consumer, so that `keyboard_getchar` is modelled by its steps: the test of the `while` loop, the
read of `kbd_buffer[kbd_tail]`, and the advance of `kbd_tail` with the return.

* `keyboardIrqHandler_cases`: what an interrupt can do to the buffer;
* `KbdInv.step`: the buffer holds what was accepted and not yet consumed, and a character that has
  been read is still the first of these when `kbd_tail` moves;
* `keyboard_fifo`: the buffer is a lossless bounded queue under every interleaving.
-/

namespace Lightstreak

open SysLib

/-- `KBD_BUF_SIZE` -/
def kbdBufSize : ℕ := 256

/-- `scancode_to_ascii`, without the zeros at its end. -/
def scancodeToAscii : List UInt8 :=
  ascii "\x00\x1b1234567890-=\x08\tqwertyuiop[]\n\x00asdfghjkl;'`\x00\\zxcvbnm,./\x00*\x00 "

/-- `scancode_to_ascii_shift`, without the zeros at its end. -/
def scancodeToAsciiShift : List UInt8 :=
  ascii
    "\x00\x1b!@#$%^&*()_+\x08\tQWERTYUIOP\x7b\x7d\n\x00ASDFGHJKL:\"~\x00|ZXCVBNM<>?\x00*\x00 "

/-- The static variables of the driver. -/
structure KbdState where
  /-- The cells of `kbd_buffer`. -/
  kbdBuffer : ℕ → UInt8
  /-- `kbd_head`, where the next character is put. -/
  kbdHead : ℕ
  /-- `kbd_tail`, where the next character is taken. -/
  kbdTail : ℕ
  /-- The flag `shift_held`. -/
  shiftHeld : Bool

/-- The ring buffer of the driver. -/
def KbdState.ring (s : KbdState) : RingBuffer UInt8 := ⟨s.kbdBuffer, s.kbdHead, s.kbdTail⟩

/-! ## The interrupt handler -/

/-- The first part of `keyboard_irq_handler`: the shift keys, and the translation of a scancode. -/
def kbdTranslate (s : KbdState) (scancode : UInt8) : KbdState × Option UInt8 :=
  if scancode = 0x2A ∨ scancode = 0x36 then ({ s with shiftHeld := true }, none)
  else if scancode = 0xAA ∨ scancode = 0xB6 then ({ s with shiftHeld := false }, none)
  -- Key releases have bit 7 set.
  else if scancode &&& 0x80 ≠ 0 then (s, none)
  else
    let c := (if s.shiftHeld then scancodeToAsciiShift else scancodeToAscii).getD scancode.toNat 0
    if c = 0 then (s, none) else (s, some c)

/-- The second part of `keyboard_irq_handler`: a character is dropped if the buffer is full. -/
def kbdPush (s : KbdState) (c : UInt8) : KbdState :=
  let next := add32 s.kbdHead 1 % kbdBufSize
  if next ≠ s.kbdTail then
    { s with kbdBuffer := Function.update s.kbdBuffer s.kbdHead c, kbdHead := next }
  else s

/-- `keyboard_irq_handler`, with the byte that it reads from the data port. -/
def keyboardIrqHandler (s : KbdState) (scancode : UInt8) : KbdState :=
  match kbdTranslate s scancode with
  | (s, none) => s
  | (s, some c) => kbdPush s c

/-- `keyboard_init()` -/
def keyboardInit (s : KbdState) : KbdState :=
  { s with kbdHead := 0, kbdTail := 0, shiftHeld := false }

/-- `keyboard_has_data()` -/
def keyboardHasData (s : KbdState) : Bool := decide (s.kbdTail ≠ s.kbdHead)

/-! ## Interrupts between the steps of the consumer -/

/-- Where the consumer is in `keyboard_getchar`. -/
inductive GetcharPc
  /-- Before the test of `while (kbd_tail == kbd_head)`. -/
  | test
  /-- Before `c = kbd_buffer[kbd_tail]`. -/
  | read
  /-- Before the assignment to `kbd_tail` and the return of `c`. -/
  | advance (c : UInt8)
deriving DecidableEq, Repr

/-- The driver with its consumer, the characters that interrupts have put into the buffer, and the
characters that `keyboard_getchar` has returned. -/
structure KbdSystem where
  /-- The driver. -/
  kbd : KbdState
  /-- Where `keyboard_getchar` is. -/
  pc : GetcharPc
  /-- The characters that were put into the buffer, in order. -/
  accepted : List UInt8
  /-- The characters that were returned, in order. -/
  returned : List UInt8

/-- An interrupt, or one step of the consumer. -/
inductive KbdEvent
  | irq (scancode : UInt8)
  | getchar
deriving DecidableEq, Repr

/-- The characters that an interrupt puts into the buffer: the translated one, if `kbd_head`
moves. -/
def acceptedChars (s : KbdState) (scancode : UInt8) : List UInt8 :=
  if (keyboardIrqHandler s scancode).kbdHead = s.kbdHead then []
  else (kbdTranslate s scancode).2.toList

/-- One step of `keyboard_getchar`, which is called again after it has returned. -/
def getcharStep (s : KbdSystem) : KbdSystem :=
  -- An interrupt can come between any two of the three steps.
  match s.pc with
  | .test => if s.kbd.kbdTail = s.kbd.kbdHead then s else { s with pc := .read }
  | .read => { s with pc := .advance (s.kbd.kbdBuffer s.kbd.kbdTail) }
  | .advance c =>
    { s with
      kbd := { s.kbd with kbdTail := add32 s.kbd.kbdTail 1 % kbdBufSize }
      pc := .test
      returned := s.returned ++ [c] }

/-- One event. -/
def KbdSystem.step (s : KbdSystem) : KbdEvent → KbdSystem
  | .irq scancode =>
    { s with
      kbd := keyboardIrqHandler s.kbd scancode
      accepted := s.accepted ++ acceptedChars s.kbd scancode }
  | .getchar => getcharStep s

/-- The system after `keyboard_init`, before the first call of `keyboard_getchar`. -/
def kbdBoot (s : KbdState) : KbdSystem := ⟨keyboardInit s, .test, [], []⟩

/-- The system after `keyboard_init` and a sequence of events. -/
def kbdRun (s : KbdState) (events : List KbdEvent) : KbdSystem :=
  events.foldl KbdSystem.step (kbdBoot s)

/-! ## The buffer as a queue -/

variable {s : KbdState} {scancode c : UInt8} {q : List UInt8}

/-- The indices wrap alike in 32-bit arithmetic. -/
theorem add32_one_mod (i : ℕ) : add32 i 1 % kbdBufSize = (i + 1) % kbdBufSize := by
  simp only [add32, kbdBufSize]
  omega

/-- Translation does not touch the buffer. -/
theorem ring_kbdTranslate (s : KbdState) (scancode : UInt8) :
    (kbdTranslate s scancode).1.ring = s.ring := by
  unfold kbdTranslate
  dsimp only
  split_ifs <;> rfl

/-- An interrupt translates no character, or drops one because 255 are waiting, or appends it. -/
theorem keyboardIrqHandler_cases (h : s.ring.Holds kbdBufSize q) (scancode : UInt8) :
    ((kbdTranslate s scancode).2 = none ∧ acceptedChars s scancode = [] ∧
        (keyboardIrqHandler s scancode).ring = s.ring) ∨
      ∃ c, (kbdTranslate s scancode).2 = some c ∧
        ((q.length = 255 ∧ acceptedChars s scancode = [] ∧
            (keyboardIrqHandler s scancode).ring = s.ring) ∨
          (q.length < 255 ∧ acceptedChars s scancode = [c] ∧
            (keyboardIrqHandler s scancode).ring = s.ring.write kbdBufSize c)) := by
  have hring := ring_kbdTranslate s scancode
  have hlen : q.length < 256 := h.length_lt
  have hfull := h.next_head_eq_tail_iff
  unfold acceptedChars keyboardIrqHandler
  generalize kbdTranslate s scancode = t at hring
  obtain ⟨s', out⟩ := t
  have hhead : s'.kbdHead = s.kbdHead := congrArg RingBuffer.head hring
  have htail : s'.kbdTail = s.kbdTail := congrArg RingBuffer.tail hring
  cases out with
  | none => exact .inl ⟨rfl, by simp [hhead], hring⟩
  | some c =>
    refine .inr ⟨c, rfl, ?_⟩
    simp only [kbdPush, add32_one_mod, hhead, htail]
    by_cases hnext : (s.kbdHead + 1) % kbdBufSize = s.kbdTail
    · have : q.length + 1 = 256 := hfull.mp hnext
      refine .inl ⟨by omega, ?_, ?_⟩
      · simp [hnext, hhead]
      · simpa [hnext] using hring
    · have hroom : q.length + 1 ≠ 256 := fun heq => hnext (hfull.mpr heq)
      -- The index moves, because the buffer has more than one cell.
      have hmove : (s.kbdHead + 1) % kbdBufSize ≠ s.kbdHead := by
        simp only [kbdBufSize]
        omega
      refine .inr ⟨by omega, ?_, ?_⟩
      · simp [hnext, hmove]
      · have hbuf : s'.kbdBuffer = s.kbdBuffer := congrArg RingBuffer.buf hring
        simp [hnext, KbdState.ring, RingBuffer.write, hbuf]

/-! ## The invariant -/

/-- What was accepted is what was returned, followed by what is in the buffer; and the consumer
reads only when there is a character, which stays the first until it moves `kbd_tail`. -/
structure KbdInv (s : KbdSystem) (pending : List UInt8) : Prop where
  /-- The buffer holds the pending characters. -/
  holds : s.kbd.ring.Holds kbdBufSize pending
  /-- What was accepted is returned or pending. -/
  accepted : s.accepted = s.returned ++ pending
  /-- `keyboard_getchar` reads only if there is something. -/
  read : s.pc = .read → pending ≠ []
  /-- The character that it has read is the first one pending. -/
  advance : ∀ c, s.pc = .advance c → ∃ rest, pending = c :: rest

/-- After `keyboard_init` nothing is pending. -/
theorem kbdInv_kbdBoot (s : KbdState) : KbdInv (kbdBoot s) [] where
  holds := RingBuffer.holds_nil (show 0 < kbdBufSize by decide) rfl
  accepted := rfl
  read := by simp [kbdBoot]
  advance := by simp [kbdBoot]

/-- Whatever is appended to the queue, the consumer can go on. -/
theorem KbdInv.irq {s : KbdSystem} {pending new : List UInt8} {k : KbdState}
    (hi : KbdInv s pending) (hholds : k.ring.Holds kbdBufSize (pending ++ new)) :
    KbdInv { s with kbd := k, accepted := s.accepted ++ new } (pending ++ new) where
  holds := hholds
  accepted := by rw [hi.accepted, List.append_assoc]
  read hpc := by simp [hi.read hpc]
  advance c hpc := by
    obtain ⟨rest, hrest⟩ := hi.advance c hpc
    exact ⟨rest ++ new, by rw [hrest, List.cons_append]⟩

/-- A step of `keyboard_getchar` takes a character or none. -/
theorem KbdInv.getcharStep {s : KbdSystem} {pending : List UInt8} (hi : KbdInv s pending) :
    ∃ pending', KbdInv (getcharStep s) pending' := by
  unfold Lightstreak.getcharStep
  cases hpc : s.pc with
  | test =>
    dsimp only
    split
    next => exact ⟨pending, hi⟩
    next hne =>
      refine ⟨pending, hi.holds, hi.accepted, fun _ hnil => ?_, by simp⟩
      exact hne (hi.holds.tail_eq_head_iff.mpr hnil)
  | read =>
    cases pending with
    | nil => exact absurd rfl (hi.read hpc)
    | cons c rest =>
      refine ⟨c :: rest, hi.holds, hi.accepted, by simp, fun d hd => ⟨rest, ?_⟩⟩
      -- The cell at `kbd_tail` is the first of the queue.
      have hread : s.kbd.kbdBuffer s.kbd.kbdTail = c := hi.holds.read_tail
      simp only [hread, GetcharPc.advance.injEq] at hd
      rw [hd]
  | advance c =>
    obtain ⟨rest, rfl⟩ := hi.advance c hpc
    refine ⟨rest, ?_, ?_, by simp, by simp⟩
    · have hadv := hi.holds.advance
      simp only [add32_one_mod]
      exact hadv
    · rw [hi.accepted]
      simp

/-- Interrupts and steps of the consumer keep the invariant. -/
theorem KbdInv.step {s : KbdSystem} {pending : List UInt8} (hi : KbdInv s pending)
    (e : KbdEvent) : ∃ pending', KbdInv (s.step e) pending' := by
  cases e with
  | irq scancode =>
    rcases keyboardIrqHandler_cases hi.holds scancode with
      ⟨-, hacc, hring⟩ | ⟨c, -, ⟨-, hacc, hring⟩ | ⟨hroom, hacc, hring⟩⟩
    all_goals
      refine ⟨_, hi.irq ?_⟩
      rw [hacc, hring]
    · simpa using hi.holds
    · simpa using hi.holds
    · exact hi.holds.push (show pending.length + 1 < 256 by omega)
  | getchar => exact hi.getcharStep

/-- Every run of them keeps the invariant. -/
theorem exists_kbdInv_kbdRun (k : KbdState) (events : List KbdEvent) :
    ∃ pending, KbdInv (kbdRun k events) pending := by
  -- On the events, from any state in which the invariant holds.
  have hboot : ∃ pending, KbdInv (kbdBoot k) pending := ⟨[], kbdInv_kbdBoot k⟩
  unfold kbdRun
  generalize kbdBoot k = s at hboot
  induction events generalizing s with
  | nil => exact hboot
  | cons e events ih =>
    obtain ⟨pending, hi⟩ := hboot
    exact ih _ (hi.step e)

/-- The keyboard buffer is a lossless bounded queue: after `keyboard_init`, under every interleaving
of interrupts with the steps of `keyboard_getchar`, both indices stay below 256; the characters
returned, followed by those still pending, are the accepted ones in order; a translated character
is dropped exactly when 255 are pending; and the buffer is reported empty, to `keyboard_has_data`
and to the test of `keyboard_getchar`, exactly when none is. -/
theorem keyboard_fifo (k : KbdState) (events : List KbdEvent) :
    let s := kbdRun k events
    s.kbd.kbdHead < kbdBufSize ∧ s.kbd.kbdTail < kbdBufSize ∧
      ∃ pending, s.accepted = s.returned ++ pending ∧ pending.length ≤ 255 ∧
        (∀ scancode c, (kbdTranslate s.kbd scancode).2 = some c →
          (acceptedChars s.kbd scancode = [] ∧ pending.length = 255) ∨
            (acceptedChars s.kbd scancode = [c] ∧ pending.length < 255)) ∧
        (keyboardHasData s.kbd = false ↔ pending = []) ∧
        (s.pc = .test → ((getcharStep s).pc = .test ↔ pending = [])) := by
  intro s
  obtain ⟨pending, hi⟩ : ∃ pending, KbdInv s pending := exists_kbdInv_kbdRun k events
  have hempty : s.kbd.kbdTail = s.kbd.kbdHead ↔ pending = [] := hi.holds.tail_eq_head_iff
  have hlen : pending.length < 256 := hi.holds.length_lt
  refine ⟨hi.holds.head_lt, hi.holds.tail_lt, pending, hi.accepted, by omega,
    fun scancode c hc => ?_, ?_, fun hpc => ?_⟩
  · rcases keyboardIrqHandler_cases hi.holds scancode with ⟨hnone, -⟩ | ⟨d, hd, hcase⟩
    · rw [hnone] at hc
      cases hc
    · -- The scancode gives a character, and the handler has compared the next head with the tail.
      obtain rfl := Option.some.inj (hd.symm.trans hc)
      rcases hcase with ⟨hfull, hacc, -⟩ | ⟨hroom, hacc, -⟩
      · exact .inl ⟨hacc, hfull⟩
      · exact .inr ⟨hacc, hroom⟩
  · rw [← hempty, keyboardHasData]
    simp
  · -- The test of `keyboard_getchar` is that of `keyboard_has_data`.
    rw [← hempty, getcharStep, hpc]
    dsimp only
    split
    next heq => simp [heq, hpc]
    next hne => simp [hne]

end Lightstreak
