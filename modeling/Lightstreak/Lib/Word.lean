import Mathlib.Data.Nat.Bitwise
import Mathlib.Tactic.Ring

/-!
# 32-bit unsigned arithmetic on natural numbers

Machine words are natural numbers below `2 ^ 32`; every operation that can leave that range
reduces its result. Masks that clear the low bits of a word are turned into division, so that
later proofs stay in linear arithmetic:

* `and_high_mask`: `x &&& (2 ^ n - 2 ^ k)` rounds `x` down to a multiple of `2 ^ k`;
* `or_low_bits`: a multiple of `2 ^ k` or-ed with a value below `2 ^ k` is their sum.
-/

namespace SysLib

/-- 32-bit addition. -/
def add32 (a b : ℕ) : ℕ := (a + b) % 2 ^ 32

/-- 32-bit subtraction; a negative difference wraps. -/
def sub32 (a b : ℕ) : ℕ := (a + (2 ^ 32 - b % 2 ^ 32)) % 2 ^ 32

/-- 32-bit multiplication. -/
def mul32 (a b : ℕ) : ℕ := a * b % 2 ^ 32

/-- A 32-bit word read as a signed integer. -/
def toInt32 (a : ℕ) : ℤ := if a < 2 ^ 31 then (a : ℤ) else (a : ℤ) - 2 ^ 32

theorem add32_lt (a b : ℕ) : add32 a b < 2 ^ 32 := Nat.mod_lt _ (by decide)

theorem sub32_lt (a b : ℕ) : sub32 a b < 2 ^ 32 := Nat.mod_lt _ (by decide)

/-- A sum that does not wrap. -/
theorem add32_eq {a b : ℕ} (h : a + b < 2 ^ 32) : add32 a b = a + b :=
  Nat.mod_eq_of_lt h

/-- A difference that does not wrap. -/
theorem sub32_eq {a b : ℕ} (ha : a < 2 ^ 32) (h : b ≤ a) : sub32 a b = a - b := by
  unfold sub32
  rw [Nat.mod_eq_of_lt (lt_of_le_of_lt h ha)]
  omega

/-- Small numbers are the same as `int`. -/
theorem toInt32_of_lt {a : ℕ} (h : a < 2 ^ 31) : toInt32 a = a := by
  rw [toInt32, if_pos h]

/-- Clearing the low `k` bits of an `n`-bit number rounds it down to a multiple of `2 ^ k`. -/
theorem and_high_mask {x n k : ℕ} (hx : x < 2 ^ n) (hk : k ≤ n) :
    x &&& (2 ^ n - 2 ^ k) = x / 2 ^ k * 2 ^ k := by
  have hkn : 2 ^ k ≤ 2 ^ n := Nat.pow_le_pow_right (by decide) hk
  have hk0 : 0 < 2 ^ k := Nat.two_pow_pos k
  have hmask : 2 ^ n - 2 ^ k = 2 ^ n - (2 ^ k - 1 + 1) := by omega
  apply Nat.eq_of_testBit_eq
  intro i
  rw [Nat.testBit_and, hmask, Nat.testBit_two_pow_sub_succ (by omega),
    Nat.testBit_two_pow_sub_one, Nat.testBit_mul_two_pow, Nat.testBit_div_two_pow]
  by_cases hik : i < k
  · simp [hik]
  · have hki : k ≤ i := by omega
    rw [Nat.sub_add_cancel hki]
    by_cases hin : i < n
    · simp [hin, hik, hki]
    · -- Above bit `n` both sides are zero, because `x` is an `n`-bit number.
      have hbit : x.testBit i = false :=
        Nat.testBit_lt_two_pow (lt_of_lt_of_le hx (Nat.pow_le_pow_right (by decide) (by omega)))
      simp [hbit]

/-- Or-ing a value below `2 ^ k` into a multiple of `2 ^ k` adds it. -/
theorem or_low_bits {a b k : ℕ} (hb : b < 2 ^ k) : a * 2 ^ k ||| b = a * 2 ^ k + b := by
  rw [Nat.mul_comm, ← Nat.two_pow_add_eq_or_of_lt hb]

/-- Rounding up to a multiple of four, as `((x + 3) & ~3)` computes it. -/
theorem and_mask_four {x : ℕ} (hx : x < 2 ^ 32) : x &&& 0xFFFFFFFC = x / 4 * 4 :=
  and_high_mask (n := 32) (k := 2) hx (by decide)

/-- The page part of a word: `x & ~0xFFF`. -/
theorem and_mask_page {x : ℕ} (hx : x < 2 ^ 32) : x &&& 0xFFFFF000 = x / 4096 * 4096 :=
  and_high_mask (n := 32) (k := 12) hx (by decide)

/-- The offset part of a word: `x & 0xFFF`. -/
theorem and_mask_offset (x : ℕ) : x &&& 0xFFF = x % 4096 :=
  Nat.and_two_pow_sub_one_eq_mod x 12

end SysLib
