import Mathlib.Data.Nat.Digits.Lemmas
import Lightstreak.Lib.Bytes

/-!
# Numerals

The numeral of a number in a base up to 36, most significant digit first, and the reader for it.

* `readNumeral_numeral`, `readSigned_signedNumeral`: a numeral reads back to its number;
* `numeral_eq_zero_of_head`: there is no leading zero but in `0` itself;
* `length_numeral_le`: how long it is;
* `digitLoop`: the usual loop that stores digits from the least significant one on, into a buffer
  of bounded size; `digitLoop_eq` says when it has room for all of them.
-/

namespace SysLib

/-- The character of a digit. -/
def digitChar (d : ℕ) : UInt8 := if d < 10 then UInt8.ofNat (48 + d) else UInt8.ofNat (87 + d)

/-- The digit that a character stands for. -/
def digitValue (c : UInt8) : Option ℕ :=
  if 48 ≤ c.toNat ∧ c.toNat ≤ 57 then some (c.toNat - 48)
  else if 97 ≤ c.toNat ∧ c.toNat ≤ 122 then some (c.toNat - 87)
  else none

/-- The numeral of `n` in base `b`. -/
def numeral (b n : ℕ) : List UInt8 :=
  if n = 0 then [digitChar 0] else ((b.digits n).map digitChar).reverse

/-- One more digit, at the end. -/
def readDigit (b v : ℕ) (c : UInt8) : Option ℕ := do
  let d ← digitValue c
  if d < b then some (d + b * v) else none

/-- The number that a string stands for in base `b`, if it is a nonempty string of digits. -/
def readNumeral (b : ℕ) (s : List UInt8) : Option ℕ :=
  if s = [] then none else s.foldlM (readDigit b) 0

/-- The decimal numeral of an integer. -/
def signedNumeral (n : ℤ) : List UInt8 :=
  if n < 0 then 45 :: numeral 10 n.natAbs else numeral 10 n.natAbs

/-- The integer that a string stands for, a decimal numeral after an optional minus sign. -/
def readSigned (s : List UInt8) : Option ℤ :=
  if s.head? = some 45 then (readNumeral 10 s.tail).map fun n : ℕ => -(n : ℤ)
  else (readNumeral 10 s).map fun n : ℕ => (n : ℤ)

/-! ## Digits -/

variable {b d n k : ℕ}

/-- Digits are `0` to `9`, then `a` to `z`. -/
theorem toNat_digitChar (hd : d < 36) :
    (digitChar d).toNat = if d < 10 then 48 + d else 87 + d := by
  unfold digitChar
  split <;> rw [UInt8.toNat_ofNat', Nat.mod_eq_of_lt (by omega)]

/-- A digit can be read back. -/
theorem digitValue_digitChar (hd : d < 36) : digitValue (digitChar d) = some d := by
  rw [digitValue, toNat_digitChar hd]
  by_cases h10 : d < 10
  · rw [if_pos h10, if_pos ⟨by omega, by omega⟩, Nat.add_sub_cancel_left]
  · rw [if_neg h10, if_neg (by omega), if_pos ⟨by omega, by omega⟩, Nat.add_sub_cancel_left]

/-- Only the digit zero is printed as `0`. -/
theorem digitChar_eq_zero_iff (hd : d < 36) : digitChar d = digitChar 0 ↔ d = 0 := by
  refine ⟨fun h => ?_, fun h => by rw [h]⟩
  have hval := digitValue_digitChar hd
  rw [h, digitValue_digitChar (by omega)] at hval
  exact (Option.some.inj hval).symm

/-- A digit is neither a terminator nor a minus sign. -/
theorem digitChar_ge (hd : d < 36) : 48 ≤ (digitChar d).toNat := by
  rw [toNat_digitChar hd]
  split <;> omega

/-! ## Numerals -/

/-- Zero has a numeral too. -/
theorem numeral_ne_nil (b n : ℕ) : numeral b n ≠ [] := by
  unfold numeral
  split
  next => exact List.cons_ne_nil _ _
  next hn =>
    rw [Ne, List.reverse_eq_nil_iff, List.map_eq_nil_iff]
    exact Nat.digits_ne_nil_iff_ne_zero.mpr hn

/-- Every character of a numeral is that of a digit. -/
theorem exists_digitChar_of_mem (h2 : 2 ≤ b) {c : UInt8} (hc : c ∈ numeral b n) :
    ∃ d < b, c = digitChar d := by
  unfold numeral at hc
  split at hc
  next => exact ⟨0, by omega, List.mem_singleton.mp hc⟩
  next =>
    obtain ⟨d, hd, rfl⟩ := List.mem_map.mp (List.mem_reverse.mp hc)
    exact ⟨d, Nat.digits_lt_base h2 hd, rfl⟩

/-- All characters of a numeral are digits or letters, from `0` on. -/
theorem numeral_char_ge (h2 : 2 ≤ b) (h36 : b ≤ 36) {c : UInt8} (hc : c ∈ numeral b n) :
    48 ≤ c.toNat := by
  obtain ⟨d, hd, rfl⟩ := exists_digitChar_of_mem h2 hc
  exact digitChar_ge (by omega)

/-- A numeral can be terminated by a null byte. -/
theorem zero_notMem_numeral (h2 : 2 ≤ b) (h36 : b ≤ 36) : 0 ∉ numeral b n := fun h =>
  absurd (numeral_char_ge h2 h36 h) (by decide)

/-- Reading digits from the most significant one on is evaluating them. -/
theorem foldlM_readDigit (h36 : b ≤ 36) {ds : List ℕ} (hds : ∀ d ∈ ds, d < b) :
    ((ds.map digitChar).reverse).foldlM (readDigit b) 0 = some (Nat.ofDigits b ds) := by
  induction ds with
  | nil => rfl
  | cons d ds ih =>
    obtain ⟨hd, hds⟩ := List.forall_mem_cons.mp hds
    rw [List.map_cons, List.reverse_cons, List.foldlM_append, ih hds, Nat.ofDigits_cons]
    simp [readDigit, digitValue_digitChar (show d < 36 by omega), hd]

/-- A numeral reads back to its number. -/
theorem readNumeral_numeral (h2 : 2 ≤ b) (h36 : b ≤ 36) (n : ℕ) :
    readNumeral b (numeral b n) = some n := by
  rw [readNumeral, if_neg (numeral_ne_nil b n), numeral]
  split
  next hn =>
    have hread := foldlM_readDigit h36 (show ∀ d ∈ [0], d < b by simp; omega)
    rw [hn]
    simpa using hread
  next => rw [foldlM_readDigit h36 fun d hd => Nat.digits_lt_base h2 hd, Nat.ofDigits_digits]

/-- Only zero starts with the digit `0`: there are no leading zeroes. -/
theorem numeral_eq_zero_of_head (h2 : 2 ≤ b) (h36 : b ≤ 36)
    (h : (numeral b n).head? = some (digitChar 0)) : numeral b n = [digitChar 0] := by
  unfold numeral at h ⊢
  split at h
  next hn => rw [if_pos hn]
  next hn =>
    -- The first character is that of the last digit, which is not zero.
    have hne : b.digits n ≠ [] := Nat.digits_ne_nil_iff_ne_zero.mpr hn
    rw [List.head?_reverse, List.getLast?_map, List.getLast?_eq_some_getLast hne,
      Option.map_some, Option.some.injEq] at h
    have hlt := Nat.digits_lt_base h2 (List.getLast_mem hne)
    exact absurd ((digitChar_eq_zero_iff (by omega)).mp h) (Nat.getLast_digit_ne_zero b hn)

/-- A number below `b ^ k` has at most `k` digits. -/
theorem length_numeral_le (h2 : 2 ≤ b) (hk : 0 < k) (hn : n < b ^ k) :
    (numeral b n).length ≤ k := by
  unfold numeral
  split
  next => exact hk
  next =>
    rw [List.length_reverse, List.length_map]
    exact (Nat.digits_length_le_iff h2 n).mpr hn

/-- A numeral does not start with a sign. -/
theorem numeral_head_ne (h2 : 2 ≤ b) (h36 : b ≤ 36) {c : UInt8} (hc : c.toNat < 48) :
    (numeral b n).head? ≠ some c := by
  intro h
  have hge := numeral_char_ge h2 h36 (List.mem_of_mem_head? h)
  omega

/-- Signed numerals read back too. -/
theorem readSigned_signedNumeral (n : ℤ) : readSigned (signedNumeral n) = some n := by
  have hread := readNumeral_numeral (b := 10) (by decide) (by decide) n.natAbs
  unfold signedNumeral readSigned
  split
  next hn =>
    rw [List.head?_cons, if_pos rfl, List.tail_cons, hread, Option.map_some]
    exact congrArg some (by omega)
  next hn =>
    -- A numeral does not start with a minus sign.
    rw [if_neg (numeral_head_ne (by decide) (by decide) (by decide)), hread, Option.map_some]
    exact congrArg some (by omega)

/-- A signed numeral can be terminated by a null byte. -/
theorem zero_notMem_signedNumeral (n : ℤ) : 0 ∉ signedNumeral n := by
  have hnum := zero_notMem_numeral (b := 10) (n := n.natAbs) (by decide) (by decide)
  unfold signedNumeral
  split
  next => exact fun h => hnum ((List.mem_cons.mp h).resolve_left (by decide))
  next => exact hnum

/-! ## Producing digits -/

/-- `while (n > 0) { buf[i++] = digit(n % b); n /= b; }` for a buffer with `room` bytes left: the
characters that are stored. A division by zero has no result. -/
def digitLoop (digit : ℕ → Option UInt8) (b : ℕ) : ℕ → ℕ → Option (List UInt8)
  | _, 0 => some []
  | 0, _ + 1 => none
  | room + 1, n + 1 =>
    if b = 0 then none
    else do
      let c ← digit ((n + 1) % b)
      let cs ← digitLoop digit b room ((n + 1) / b)
      return c :: cs

/-- Repeated division gives the digits of a number, if there is room for all of them. -/
theorem digitLoop_eq {digit : ℕ → Option UInt8} (h2 : 2 ≤ b)
    (hdigit : ∀ d < b, digit d = some (digitChar d)) {room : ℕ} (hn : n < b ^ room) :
    digitLoop digit b room n = some ((b.digits n).map digitChar) := by
  -- On the room that is left: each digit takes one byte and one power of the base.
  induction room generalizing n with
  | zero =>
    obtain rfl : n = 0 := by simpa using hn
    simp [digitLoop]
  | succ room ih =>
    cases n with
    | zero => simp [digitLoop]
    | succ n =>
      have hdiv : (n + 1) / b < b ^ room := by
        rw [Nat.div_lt_iff_lt_mul (by omega), ← Nat.pow_succ]
        exact hn
      rw [digitLoop, if_neg (by omega), hdigit _ (Nat.mod_lt _ (by omega)), ih hdiv,
        Nat.digits_def' h2 (Nat.succ_pos n)]
      rfl

end SysLib
