import Mathlib.Data.List.Induction
import Lightstreak.Drivers.Keyboard

/-!
# The Shift keys (`kernel/drivers/keyboard.c`)

The driver has one flag, `shift_held`, for two keys: either press sets it and either release clears
it. Here the keys themselves are followed beside the driver.

* `shiftHeld_kbdRun`: the flag tells whether the last Shift scancode was a press;
* `lastShift_cases`: what that says about the keys;
* `shiftFollows_iff`: characters are shifted exactly while a Shift key is down, if no key is pressed
  after one of two Shift keys that were down has been released.
-/

namespace Lightstreak

open SysLib

/-! ## The keys -/

/-- The two Shift keys, each `true` while it is down. -/
structure ShiftKeys where
  /-- The left Shift key. -/
  left : Bool
  /-- The right Shift key. -/
  right : Bool
deriving DecidableEq, Repr

namespace ShiftKeys

/-- At least one of them is down. -/
def down (k : ShiftKeys) : Bool := k.left || k.right

/-- What the key does that sends the scancode. -/
def event (k : ShiftKeys) (scancode : UInt8) : ShiftKeys :=
  if scancode = 0x2A then { k with left := true }
  else if scancode = 0xAA then { k with left := false }
  else if scancode = 0x36 then { k with right := true }
  else if scancode = 0xB6 then { k with right := false }
  else k

/-- A key that is pressed was up, and one that is released was down. -/
def Possible (k : ShiftKeys) (scancode : UInt8) : Prop :=
  (scancode = 0x2A → k.left = false) ∧ (scancode = 0xAA → k.left = true) ∧
    (scancode = 0x36 → k.right = false) ∧ (scancode = 0xB6 → k.right = true)

instance (k : ShiftKeys) (scancode : UInt8) : Decidable (k.Possible scancode) :=
  inferInstanceAs (Decidable (_ ∧ _ ∧ _ ∧ _))

end ShiftKeys

/-- The scancodes of a sequence of events. -/
def scancodes (events : List KbdEvent) : List UInt8 :=
  events.filterMap fun
    | .irq scancode => some scancode
    | .getchar => none

/-- The keys after the scancodes, of which none is down at the start. -/
def keysAfter (codes : List UInt8) : ShiftKeys := codes.foldl ShiftKeys.event ⟨false, false⟩

/-- Each Shift key is alternately pressed and released. -/
def Alternate (codes : List UInt8) : Prop :=
  ∀ i (hi : i < codes.length), (keysAfter (codes.take i)).Possible codes[i]

instance (codes : List UInt8) : Decidable (Alternate codes) :=
  inferInstanceAs (Decidable (∀ i (_ : i < codes.length), _))

/-- The press of a Shift key. -/
def IsShiftPress (scancode : UInt8) : Prop := scancode = 0x2A ∨ scancode = 0x36

/-- The release of a Shift key. -/
def IsShiftRelease (scancode : UInt8) : Prop := scancode = 0xAA ∨ scancode = 0xB6

instance (scancode : UInt8) : Decidable (IsShiftPress scancode) :=
  inferInstanceAs (Decidable (_ ∨ _))

instance (scancode : UInt8) : Decidable (IsShiftRelease scancode) :=
  inferInstanceAs (Decidable (_ ∨ _))

/-- The last scancode of a Shift key. -/
def lastShift (codes : List UInt8) : Option UInt8 :=
  (codes.filter fun c => decide (IsShiftPress c ∨ IsShiftRelease c)).getLast?

/-- The character of a key, with or without Shift. -/
def keyChar (shifted : Bool) (scancode : UInt8) : UInt8 :=
  (if shifted then scancodeToAsciiShift else scancodeToAscii).getD scancode.toNat 0

/-- Every character that is put into the buffer is the shifted one exactly if a Shift key is down
when its key is pressed. -/
def ShiftFollows (s : KbdState) (events : List KbdEvent) : Prop :=
  ∀ i scancode, events[i]? = some (.irq scancode) →
    ∀ c ∈ acceptedChars (kbdRun s (events.take i)).kbd scancode,
      c = keyChar (keysAfter (scancodes (events.take i))).down scancode

/-- The press of another key. Releases have bit 7 set. -/
def IsKeyPress (scancode : UInt8) : Prop := ¬ IsShiftPress scancode ∧ scancode &&& 0x80 = 0

instance (scancode : UInt8) : Decidable (IsKeyPress scancode) :=
  inferInstanceAs (Decidable (_ ∧ _))

/-- There is room for one more character: `kbd_head` does not run into `kbd_tail`. -/
def KbdState.HasRoom (s : KbdState) : Prop := (s.kbdHead + 1) % kbdBufSize ≠ s.kbdTail

/-- No key that has a character, and a shifted one of its own, is pressed while a Shift key is down
and the last Shift scancode was a release, unless the buffer is full. -/
def NoKeyAfterRelease (s : KbdState) (events : List KbdEvent) : Prop :=
  ∀ i scancode, events[i]? = some (.irq scancode) →
    IsKeyPress scancode → keyChar false scancode ≠ 0 →
    keyChar false scancode ≠ keyChar true scancode →
    (kbdRun s (events.take i)).kbd.HasRoom →
    (keysAfter (scancodes (events.take i))).down = true →
      ¬ ∃ c, lastShift (scancodes (events.take i)) = some c ∧ IsShiftRelease c

/-! ## The flag -/

variable {s : KbdState} {events : List KbdEvent} {codes : List UInt8} {scancode c : UInt8}

theorem not_isShiftPress_of_isShiftRelease (h : IsShiftRelease c) : ¬ IsShiftPress c := by
  rcases h with rfl | rfl <;> decide

/-- The release of a Shift key has bit 7 set. -/
theorem not_isKeyPress_of_isShiftRelease (h : IsShiftRelease c) : ¬ IsKeyPress c := by
  rcases h with rfl | rfl <;> decide

/-- What a scancode is translated to, and what becomes of the flag. -/
theorem kbdTranslate_cases (s : KbdState) (scancode : UInt8) :
    (IsShiftPress scancode ∧ kbdTranslate s scancode = ({ s with shiftHeld := true }, none)) ∨
      (IsShiftRelease scancode ∧
        kbdTranslate s scancode = ({ s with shiftHeld := false }, none)) ∨
      (¬ IsShiftPress scancode ∧ ¬ IsShiftRelease scancode ∧
        ((¬ (IsKeyPress scancode ∧ keyChar s.shiftHeld scancode ≠ 0) ∧
            kbdTranslate s scancode = (s, none)) ∨
          ((IsKeyPress scancode ∧ keyChar s.shiftHeld scancode ≠ 0) ∧
            kbdTranslate s scancode = (s, some (keyChar s.shiftHeld scancode))))) := by
  unfold kbdTranslate
  by_cases hpress : IsShiftPress scancode
  · exact .inl ⟨hpress, if_pos hpress⟩
  rw [if_neg (show ¬ (scancode = 0x2A ∨ scancode = 0x36) from hpress)]
  by_cases hrelease : IsShiftRelease scancode
  · exact .inr (.inl ⟨hrelease, if_pos hrelease⟩)
  rw [if_neg (show ¬ (scancode = 0xAA ∨ scancode = 0xB6) from hrelease)]
  refine .inr (.inr ⟨hpress, hrelease, ?_⟩)
  split
  next hbit => exact .inl ⟨fun h => hbit h.1.2, rfl⟩
  next hbit =>
    -- The scancode is a press: it stands for a character if its table entry is not zero.
    by_cases h0 : keyChar s.shiftHeld scancode = 0
    · exact .inl ⟨fun h => h.2 h0, if_pos h0⟩
    · exact .inr ⟨⟨⟨hpress, not_not.mp hbit⟩, h0⟩, if_neg h0⟩

theorem shiftHeld_kbdPush (s : KbdState) (c : UInt8) : (kbdPush s c).shiftHeld = s.shiftHeld := by
  unfold kbdPush
  dsimp only
  split <;> rfl

/-- The flag after a scancode. -/
theorem shiftHeld_keyboardIrqHandler (s : KbdState) (scancode : UInt8) :
    (keyboardIrqHandler s scancode).shiftHeld =
      if IsShiftPress scancode then true
      else if IsShiftRelease scancode then false
      else s.shiftHeld := by
  unfold keyboardIrqHandler
  rcases kbdTranslate_cases s scancode with
    ⟨hpress, h⟩ | ⟨hrelease, h⟩ | ⟨hpress, hrelease, ⟨-, h⟩ | ⟨-, h⟩⟩
  · rw [h, if_pos hpress]
  · rw [h, if_neg (not_isShiftPress_of_isShiftRelease hrelease), if_pos hrelease]
  · rw [h, if_neg hpress, if_neg hrelease]
  · rw [h, if_neg hpress, if_neg hrelease, shiftHeld_kbdPush]

/-- A character that is put into the buffer is that of the table which the flag selects. -/
theorem eq_keyChar_of_mem (h : c ∈ acceptedChars s scancode) :
    c = keyChar s.shiftHeld scancode := by
  unfold acceptedChars at h
  split at h
  next => cases h
  next =>
    rcases kbdTranslate_cases s scancode with ⟨-, ht⟩ | ⟨-, ht⟩ | ⟨-, -, ⟨-, ht⟩ | ⟨-, ht⟩⟩
    · simp [ht] at h
    · simp [ht] at h
    · simp [ht] at h
    · simpa [ht] using h

/-- A scancode is translated if it is that of a key that has a character. -/
theorem isSome_kbdTranslate_iff (s : KbdState) (scancode : UInt8) :
    (kbdTranslate s scancode).2.isSome ↔
      IsKeyPress scancode ∧ keyChar s.shiftHeld scancode ≠ 0 := by
  rcases kbdTranslate_cases s scancode with
    ⟨hpress, h⟩ | ⟨hrelease, h⟩ | ⟨-, -, ⟨hno, h⟩ | ⟨hkey, h⟩⟩
  · rw [h]
    exact iff_of_false Bool.false_ne_true fun hkey => hkey.1.1 hpress
  · rw [h]
    exact iff_of_false Bool.false_ne_true fun hkey =>
      not_isKeyPress_of_isShiftRelease hrelease hkey.1
  · rw [h]
    exact iff_of_false Bool.false_ne_true hno
  · rw [h]
    exact iff_of_true rfl hkey

/-- A character is put into the buffer for a key that has one, if there is room. -/
theorem acceptedChars_ne_nil_iff (s : KbdState) (scancode : UInt8) :
    acceptedChars s scancode ≠ [] ↔
      (IsKeyPress scancode ∧ keyChar s.shiftHeld scancode ≠ 0) ∧ s.HasRoom := by
  have hring := ring_kbdTranslate s scancode
  rw [← isSome_kbdTranslate_iff]
  unfold acceptedChars keyboardIrqHandler KbdState.HasRoom
  generalize kbdTranslate s scancode = t at hring
  obtain ⟨s', out⟩ := t
  have hhead : s'.kbdHead = s.kbdHead := congrArg RingBuffer.head hring
  have htail : s'.kbdTail = s.kbdTail := congrArg RingBuffer.tail hring
  -- The index moves, because the buffer has more than one cell.
  have hmove : (s.kbdHead + 1) % kbdBufSize ≠ s.kbdHead := by
    simp only [kbdBufSize]
    omega
  cases out with
  | none => simp
  | some c =>
    simp only [kbdPush, add32_one_mod, hhead, htail]
    by_cases hnext : (s.kbdHead + 1) % kbdBufSize = s.kbdTail
    · simp [hnext, hhead]
    · simp [hnext, hmove]

theorem kbdRun_concat (s : KbdState) (events : List KbdEvent) (e : KbdEvent) :
    kbdRun s (events ++ [e]) = (kbdRun s events).step e := by
  rw [kbdRun, List.foldl_append, List.foldl_cons, List.foldl_nil, kbdRun]

theorem keysAfter_concat (codes : List UInt8) (scancode : UInt8) :
    keysAfter (codes ++ [scancode]) = (keysAfter codes).event scancode := by
  rw [keysAfter, List.foldl_append, List.foldl_cons, List.foldl_nil, keysAfter]

/-- A Shift scancode becomes the last one. -/
theorem lastShift_concat (codes : List UInt8) (scancode : UInt8) :
    lastShift (codes ++ [scancode]) =
      if IsShiftPress scancode ∨ IsShiftRelease scancode then some scancode
      else lastShift codes := by
  unfold lastShift
  split
  next h => rw [List.filter_append, List.filter_cons_of_pos (by simpa using h)]; simp
  next h => rw [List.filter_append, List.filter_cons_of_neg (by simpa using h)]; simp

/-- The flag tells whether the last Shift scancode was a press. -/
theorem shiftHeld_kbdRun (s : KbdState) (events : List KbdEvent) :
    (kbdRun s events).kbd.shiftHeld = true ↔
      ∃ c, lastShift (scancodes events) = some c ∧ IsShiftPress c := by
  induction events using List.reverseRecOn with
  | nil => simp [kbdRun, kbdBoot, keyboardInit, lastShift, scancodes]
  | append_singleton events e ih =>
    rw [kbdRun_concat]
    cases e with
    | getchar =>
      -- The consumer does not touch the flag.
      have hheld : (getcharStep (kbdRun s events)).kbd.shiftHeld =
          (kbdRun s events).kbd.shiftHeld := by
        unfold getcharStep
        split
        next => split <;> rfl
        next => rfl
        next => rfl
      rw [KbdSystem.step, hheld, ih]
      simp [scancodes]
    | irq scancode =>
      have hcodes : scancodes (events ++ [.irq scancode]) = scancodes events ++ [scancode] := by
        simp [scancodes]
      rw [KbdSystem.step, hcodes, lastShift_concat, shiftHeld_keyboardIrqHandler]
      -- A Shift scancode sets or clears the flag and becomes the last one; others do neither.
      by_cases hpress : IsShiftPress scancode
      · simp [hpress]
      by_cases hrelease : IsShiftRelease scancode
      · simp [hpress, hrelease]
      · simp [hpress, hrelease, ih]

/-! ## The flag and the keys -/

/-- No Shift key has been touched; or one was pressed last, and is down; or one was released
last. -/
theorem lastShift_cases (codes : List UInt8) :
    (lastShift codes = none ∧ (keysAfter codes).down = false) ∨
      (∃ c, lastShift codes = some c ∧ IsShiftPress c ∧ (keysAfter codes).down = true) ∨
      ∃ c, lastShift codes = some c ∧ IsShiftRelease c := by
  induction codes using List.reverseRecOn with
  | nil => exact .inl ⟨rfl, rfl⟩
  | append_singleton codes scancode ih =>
    rw [lastShift_concat, keysAfter_concat]
    by_cases hpress : IsShiftPress scancode
    · refine .inr (.inl ⟨scancode, by rw [if_pos (.inl hpress)], hpress, ?_⟩)
      rcases hpress with rfl | rfl <;> simp [ShiftKeys.event, ShiftKeys.down]
    by_cases hrelease : IsShiftRelease scancode
    · exact .inr (.inr ⟨scancode, by rw [if_pos (.inr hrelease)], hrelease⟩)
    · -- Another key.
      have hevent : (keysAfter codes).event scancode = keysAfter codes := by
        rw [IsShiftPress, not_or] at hpress
        rw [IsShiftRelease, not_or] at hrelease
        rw [ShiftKeys.event, if_neg hpress.1, if_neg hrelease.1, if_neg hpress.2,
          if_neg hrelease.2]
      rw [if_neg (not_or.mpr ⟨hpress, hrelease⟩), hevent]
      exact ih

/-- After `keyboard_init`, whatever the keys and the consumer do: every character in the buffer is
shifted exactly if a Shift key was down, if and only if no key with a shifted character was pressed,
with room in the buffer, after the release of one Shift key with the other one down. -/
theorem shiftFollows_iff (s : KbdState) (events : List KbdEvent) :
    ShiftFollows s events ↔ NoKeyAfterRelease s events := by
  refine forall_congr' fun i => forall_congr' fun scancode => imp_congr_right fun _ => ?_
  have hheld := shiftHeld_kbdRun s (events.take i)
  generalize kbdRun s (events.take i) = k at hheld
  generalize scancodes (events.take i) = codes at hheld
  -- After a release the flag is clear.
  have hclear : (∃ c, lastShift codes = some c ∧ IsShiftRelease c) → k.kbd.shiftHeld = false := by
    rintro ⟨c, hlast, hrelease⟩
    rw [Bool.eq_false_iff, Ne, hheld]
    rintro ⟨c', hlast', hpress⟩
    cases hlast.symm.trans hlast'
    exact not_isShiftPress_of_isShiftRelease hrelease hpress
  constructor
  · intro h hkey hplain hdiff hroom hdown hlast
    have hne := (acceptedChars_ne_nil_iff k.kbd scancode).mpr
      ⟨⟨hkey, by rw [hclear hlast]; exact hplain⟩, hroom⟩
    obtain ⟨x, hx⟩ := List.exists_mem_of_ne_nil _ hne
    have hchar := eq_keyChar_of_mem hx
    rw [h x hx, hclear hlast, hdown] at hchar
    exact hdiff hchar.symm
  · intro h x hx
    rw [eq_keyChar_of_mem hx]
    rcases lastShift_cases codes with ⟨hlast, hdown⟩ | ⟨c, hlast, hpress, hdown⟩ | hlast
    · have hflag : k.kbd.shiftHeld = false := by
        rw [Bool.eq_false_iff, Ne, hheld, hlast]
        rintro ⟨c, hc, -⟩
        cases hc
      rw [hflag, hdown]
    · rw [hheld.mpr ⟨c, hlast, hpress⟩, hdown]
    · -- The flag is clear, and wrong if the other key is down.
      rw [hclear hlast]
      cases hdown : (keysAfter codes).down with
      | false => rfl
      | true =>
        by_contra hdiff
        obtain ⟨⟨hkey, hplain⟩, hroom⟩ :=
          (acceptedChars_ne_nil_iff k.kbd scancode).mp (List.ne_nil_of_mem hx)
        rw [hclear hlast] at hplain
        exact h hkey hplain hdiff hroom hdown hlast

/-- A driver before `keyboard_init`. -/
def zeroKbd : KbdState := ⟨fun _ => 0, 0, 0, false⟩

/-- Shift is pressed, then `a`, then Shift is released. -/
theorem shiftFollows_iff_oneShift :
    ShiftFollows zeroKbd [.irq 0x2A, .irq 0x1E, .irq 0xAA] := by
  refine (shiftFollows_iff zeroKbd _).mpr fun i scancode hi _ _ _ _ _ => ?_
  rintro ⟨c, hlast, hrelease⟩
  rcases i with _ | _ | _ | i
  · cases hlast
  · cases hlast
    exact absurd hrelease (by decide)
  · cases hlast
    exact absurd hrelease (by decide)
  · cases hi

/-- Both Shift keys are pressed, the left one is released, and `a` is not shifted. -/
theorem not_shiftFollows_bothShifts :
    ¬ ∀ (s : KbdState) (events : List KbdEvent), Alternate (scancodes events) →
      ShiftFollows s events := by
  intro h
  have hevents := h zeroKbd [.irq 0x2A, .irq 0x36, .irq 0xAA, .irq 0x1E] (by decide) 3 0x1E rfl
    'a'.toUInt8 (by decide)
  exact absurd hevents (by decide)

end Lightstreak
