import Mathlib.Data.Finset.Card
import Mathlib.Data.Nat.Notation
import Mathlib.Logic.Function.Basic

/-!
# Bitmaps of 32-bit words

A bitmap is an array of 32-bit words; bit `i` of the map is bit `i % 32` of word `i / 32`. The
operations are the word expressions C code uses for them, and `test_set` and `test_clear`
describe both on single bits; `clear_set` says that the second takes back the first.

`clearCount m n` is the number of clear bits among the first `n`, with the change each operation
makes to it (`clearCount_clear`, `clearCount_set`).
-/

namespace SysLib

/-- An array of 32-bit words. -/
abbrev Bitmap := ℕ → BitVec 32

namespace Bitmap

/-- Set bit `i`: `w |= 1 << (i % 32)`. -/
def set (m : Bitmap) (i : ℕ) : Bitmap :=
  Function.update m (i / 32) (m (i / 32) ||| (1#32 <<< (i % 32)))

/-- Clear bit `i`: `w &= ~(1 << (i % 32))`. -/
def clear (m : Bitmap) (i : ℕ) : Bitmap :=
  Function.update m (i / 32) (m (i / 32) &&& ~~~(1#32 <<< (i % 32)))

/-- Read bit `i`: `(w >> (i % 32)) & 1`. -/
def test (m : Bitmap) (i : ℕ) : Bool := ((m (i / 32) >>> (i % 32)) &&& 1#32) == 1#32

variable {m : Bitmap} {i j : ℕ}

/-- A bit is looked up in its word. -/
theorem test_eq_getLsbD (m : Bitmap) (i : ℕ) : m.test i = (m (i / 32)).getLsbD (i % 32) := by
  unfold test
  generalize m (i / 32) = w
  have hbit : (w >>> (i % 32)) &&& 1#32 =
      (BitVec.ofBool (w.getLsbD (i % 32))).setWidth 32 := by
    apply BitVec.eq_of_getLsbD_eq
    intro k hk
    simp only [BitVec.getLsbD_and, BitVec.getLsbD_ushiftRight, BitVec.getLsbD_one,
      BitVec.getLsbD_setWidth, BitVec.getLsbD_ofBool, hk, decide_true, Bool.true_and]
    by_cases hk0 : k = 0
    · simp [hk0]
    · simp [hk0]
  rw [hbit]
  cases w.getLsbD (i % 32) <;> rfl

/-- Two indices are equal when their word and their bit are. -/
theorem eq_of_div_mod (hdiv : j / 32 = i / 32) (hmod : j % 32 = i % 32) : j = i := by
  omega

/-- The mask of one bit. -/
theorem getLsbD_mask (i j : ℕ) :
    (1#32 <<< (i % 32)).getLsbD (j % 32) = decide (j % 32 = i % 32) := by
  have hj : j % 32 < 32 := Nat.mod_lt _ (by decide)
  rw [BitVec.getLsbD_shiftLeft, BitVec.getLsbD_one]
  rcases Nat.lt_trichotomy (j % 32) (i % 32) with h | h | h
  · simp [h, h.ne]
  · simp [h, Nat.mod_lt]
  · have hpos : j % 32 - i % 32 ≠ 0 := by omega
    simp [h.ne', hpos]

/-- Setting a bit changes this bit only. -/
@[simp]
theorem test_set (m : Bitmap) (i j : ℕ) : (m.set i).test j = (decide (j = i) || m.test j) := by
  simp only [test_eq_getLsbD, set, Function.update_apply]
  by_cases hdiv : j / 32 = i / 32
  · have hmod : j % 32 = i % 32 ↔ j = i := ⟨eq_of_div_mod hdiv, fun h => by rw [h]⟩
    rw [if_pos hdiv, BitVec.getLsbD_or, getLsbD_mask, hdiv, Bool.or_comm]
    simp only [hmod]
  · have hne : j ≠ i := fun h => hdiv (by rw [h])
    rw [if_neg hdiv]
    simp [hne]

/-- Clearing a bit changes this bit only. -/
@[simp]
theorem test_clear (m : Bitmap) (i j : ℕ) :
    (m.clear i).test j = (!decide (j = i) && m.test j) := by
  simp only [test_eq_getLsbD, clear, Function.update_apply]
  have hj : j % 32 < 32 := Nat.mod_lt _ (by decide)
  by_cases hdiv : j / 32 = i / 32
  · have hmod : j % 32 = i % 32 ↔ j = i := ⟨eq_of_div_mod hdiv, fun h => by rw [h]⟩
    rw [if_pos hdiv, BitVec.getLsbD_and, BitVec.getLsbD_not, getLsbD_mask, hdiv, Bool.and_comm]
    simp only [hmod, hj, decide_true, Bool.true_and]
  · have hne : j ≠ i := fun h => hdiv (by rw [h])
    rw [if_neg hdiv]
    simp [hne]

/-- A bitmap is given by its bits. -/
theorem ext_test {m' : Bitmap} (h : ∀ i, m.test i = m'.test i) : m = m' := by
  funext k
  refine BitVec.eq_of_getLsbD_eq fun b hb => ?_
  have hbit := h (k * 32 + b)
  rwa [test_eq_getLsbD, test_eq_getLsbD, show (k * 32 + b) / 32 = k by omega,
    show (k * 32 + b) % 32 = b by omega] at hbit

/-- Clearing a bit takes back setting it. -/
theorem clear_set (h : m.test i = false) : (m.set i).clear i = m := by
  refine ext_test fun j => ?_
  rw [test_clear, test_set]
  by_cases hj : j = i
  · simp [hj, h]
  · simp [hj]

/-- Every bit of an all-ones word is set. -/
theorem test_of_word_full (h : m i = 0xFFFFFFFF#32) {b : ℕ} (hb : b < 32) :
    m.test (i * 32 + b) = true := by
  have hdiv : (i * 32 + b) / 32 = i := by omega
  have hmod : (i * 32 + b) % 32 = b := by omega
  rw [test_eq_getLsbD, hdiv, hmod, h, show 0xFFFFFFFF#32 = BitVec.allOnes 32 from rfl,
    BitVec.getLsbD_allOnes]
  exact decide_eq_true hb

/-! ## Counting bits -/

/-- The clear bits among the first `n`. -/
def clearBits (m : Bitmap) (n : ℕ) : Finset ℕ := {i ∈ Finset.range n | m.test i = false}

/-- The number of clear bits among the first `n`. -/
def clearCount (m : Bitmap) (n : ℕ) : ℕ := (m.clearBits n).card

/-- The number of set bits among the first `n`. -/
def setCount (m : Bitmap) (n : ℕ) : ℕ := ({i ∈ Finset.range n | m.test i = true} : Finset ℕ).card

variable {k n : ℕ}

theorem mem_clearBits : i ∈ m.clearBits n ↔ i < n ∧ m.test i = false := by
  simp [clearBits]

/-- Clearing a set bit adds one to the clear bits. -/
theorem clearCount_clear (hi : i < n) (h : m.test i = true) :
    (m.clear i).clearCount n = m.clearCount n + 1 := by
  have hbits : (m.clear i).clearBits n = insert i (m.clearBits n) := by
    ext j
    by_cases hj : j = i
    · simp [mem_clearBits, hj, hi]
    · simp [mem_clearBits, hj]
  rw [clearCount, hbits, Finset.card_insert_of_notMem (by simp [mem_clearBits, h]), clearCount]

/-- Setting a clear bit takes one from the clear bits. -/
theorem clearCount_set (hi : i < n) (h : m.test i = false) :
    (m.set i).clearCount n + 1 = m.clearCount n := by
  have hbits : (m.set i).clearBits n = (m.clearBits n).erase i := by
    ext j
    by_cases hj : j = i
    · simp [mem_clearBits, hj]
    · simp [mem_clearBits, hj]
  rw [clearCount, hbits, Finset.card_erase_add_one (mem_clearBits.mpr ⟨hi, h⟩), clearCount]

theorem clearCount_le (m : Bitmap) (n : ℕ) : m.clearCount n ≤ n := by
  have h := Finset.card_filter_le (Finset.range n) fun i => m.test i = false
  rwa [Finset.card_range] at h

/-- Every bit is set or clear. -/
theorem setCount_add_clearCount (m : Bitmap) (n : ℕ) : m.setCount n + m.clearCount n = n := by
  have h := Finset.card_filter_add_card_filter_not (s := Finset.range n) fun i => m.test i = true
  simpa only [setCount, clearCount, clearBits, Bool.not_eq_true, Finset.card_range] using h

theorem clearBits_subset (h : k ≤ n) : m.clearBits k ⊆ m.clearBits n := by
  intro i hi
  obtain ⟨hlt, hclear⟩ := mem_clearBits.mp hi
  exact mem_clearBits.mpr ⟨by omega, hclear⟩

theorem clearCount_mono (h : k ≤ n) : m.clearCount k ≤ m.clearCount n :=
  Finset.card_le_card (clearBits_subset h)

/-- The counts below two bounds agree exactly when every bit between them is set. -/
theorem clearCount_eq_iff (h : k ≤ n) :
    m.clearCount k = m.clearCount n ↔ ∀ i, k ≤ i → i < n → m.test i = true := by
  constructor
  · intro heq i hk hn
    by_contra hclear
    -- Of two sets, one in the other and of one size, both are the same.
    have hbits := Finset.eq_of_subset_of_card_le (clearBits_subset (m := m) h) heq.ge
    have hi : i ∈ m.clearBits k := by
      rw [hbits]
      exact mem_clearBits.mpr ⟨hn, by simpa using hclear⟩
    have := (mem_clearBits.mp hi).1
    omega
  · intro hset
    refine le_antisymm (clearCount_mono h) (Finset.card_le_card fun i hi => ?_)
    obtain ⟨hn, hclear⟩ := mem_clearBits.mp hi
    by_cases hk : i < k
    · exact mem_clearBits.mpr ⟨hk, hclear⟩
    · rw [hset i (by omega) hn] at hclear
      cases hclear

end Bitmap

end SysLib
