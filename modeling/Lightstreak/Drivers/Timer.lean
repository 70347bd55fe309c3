import Lightstreak.Proc.Scheduler

/-!
# The PIT timer (`kernel/drivers/timer.c`)

The tick counter is the field `tickCount` of `SchedState`, because `timer_tick` is called by the
scheduler as well as by the timer interrupt; `Pit` has the rest of the driver. A division by zero
has no result.

`uptime_eq_iff` is the arithmetic of `timer_get_seconds`: along any two counters that grow in
steps of one from zero, the seconds computed from the 32-bit sum of both are those of the first
alone exactly as long as the second never reaches into the next second and the sum does not wrap.
-/

namespace Lightstreak

open SysLib

/-- What `timer_init` prints. -/
inductive TimerMsg
  /-- `"[PIT] Timer initialised at %u Hz (divisor %u)\n"` -/
  | initialised (hz divisor : ℕ)
deriving DecidableEq, Repr

/-- The driver without its tick counter: `ticks_per_second`, the bytes written to I/O ports, and
the messages. -/
structure Pit where
  /-- `ticks_per_second` -/
  ticksPerSecond : ℕ
  /-- The bytes written to ports, in order. -/
  ports : List (ℕ × UInt8)
  /-- The messages printed. -/
  log : List TimerMsg

/-- `PIT_BASE_FREQ` -/
def pitBaseFreq : ℕ := 1193182

/-- `timer_init(hz)` -/
def timerInit (t : Pit) (hz : ℕ) : Option Pit :=
  if hz = 0 then none
  else
    let divisor := pitBaseFreq / hz
    some
      { ticksPerSecond := hz
        -- `PIT_CMD_PORT`, then the low and the high byte to `PIT_CHANNEL0_DATA`
        ports := t.ports ++ [(0x43, 0x36), (0x40, UInt8.ofNat (divisor &&& 0xFF)),
          (0x40, UInt8.ofNat (divisor >>> 8 &&& 0xFF))]
        log := t.log ++ [.initialised hz divisor] }

variable {P : Type}

/-- `timer_get_ticks()` -/
def timerGetTicks (s : SchedState P) : ℕ := s.tickCount

/-- `timer_get_seconds()` -/
def timerGetSeconds (t : Pit) (s : SchedState P) : Option ℕ :=
  if t.ticksPerSecond = 0 then none else some (timerGetTicks s / t.ticksPerSecond)

/-- The seconds of a sum are those of its first part exactly when the second part does not reach
into the next second. -/
theorem add_div_eq_div_iff {n e hz : ℕ} (hhz : 0 < hz) :
    (n + e) / hz = n / hz ↔ n % hz + e < hz := by
  have hsplit : n + e = n % hz + e + hz * (n / hz) := by
    have := Nat.mod_add_div n hz
    omega
  rw [hsplit, Nat.add_mul_div_left _ _ hhz, Nat.add_eq_right, Nat.div_eq_zero_iff]
  exact or_iff_right hhz.ne'

/-- `N` counts the interrupts and `E` the other ticks; in each step at most one of them grows. -/
theorem uptime_eq_iff {hz : ℕ} (hhz : 0 < hz) (hlt : hz < 2 ^ 32) {N E : ℕ → ℕ} (hN : N 0 = 0)
    (hE : E 0 = 0) (hstep : ∀ i, (N (i + 1) = N i ∧ E (i + 1) ≤ E i + 1) ∨
      (N (i + 1) = N i + 1 ∧ E (i + 1) = E i)) :
    (∀ i, (N i + E i) % 2 ^ 32 / hz = N i / hz) ↔
      ∀ i, N i + E i < 2 ^ 32 ∧ N i % hz + E i < hz := by
  constructor
  · intro hall i
    induction i with
    | zero => rw [hN, hE]; exact ⟨by decide, by simpa using hhz⟩
    | succ i ih =>
      have hnext := hall (i + 1)
      have hsum : N (i + 1) + E (i + 1) ≤ N i + E i + 1 := by rcases hstep i with h | h <;> omega
      have hwrap : N (i + 1) + E (i + 1) < 2 ^ 32 := by
        -- At the wrap the seconds fall to zero, long after the first second.
        by_contra hge
        have htop : N (i + 1) + E (i + 1) = 2 ^ 32 := by omega
        rw [htop, Nat.mod_self, Nat.zero_div] at hnext
        have hsmall : N (i + 1) < hz := (Nat.div_eq_zero_iff.mp hnext.symm).resolve_left hhz.ne'
        have hmod : N i % hz = N i := Nat.mod_eq_of_lt (by rcases hstep i with h | h <;> omega)
        omega
      rw [Nat.mod_eq_of_lt hwrap] at hnext
      exact ⟨hwrap, (add_div_eq_div_iff hhz).mp hnext⟩
  · intro hall i
    obtain ⟨hwrap, hcarry⟩ := hall i
    rw [Nat.mod_eq_of_lt hwrap]
    exact (add_div_eq_div_iff hhz).mpr hcarry

end Lightstreak
