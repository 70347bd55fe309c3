import Lightstreak.Fs.RamfsOpen
import Lightstreak.Kernel.Kprintf

/-!
# The string library of user programs (`userspace/lib/string.c`)

`strlen`, `strcmp` and `strncmp` over the bytes that may be read from an address on, and `utoa` and
`itoa` into a buffer of a given size. They are compared with what the kernel has of its own:
`str_eq` of the filesystem and `print_uint` and `print_int` of `kprintf`.

* `strcmp_eq`, `strncmp_eq`: both return the difference of two strings, `strncmp` of the strings cut
  to `n` bytes;
* `string_comparisons_agree`: comparison is the lexicographic order on unsigned bytes, in the
  kernel as in user programs, and nothing behind a terminator is read;
* `utoa_eq`, `itoa_eq`: the buffer then holds the numeral and a terminator;
* `numbers_canonical`: numbers are printed alike in the kernel and in user programs.
-/

namespace Lightstreak

open SysLib Kernel

/-! ## Comparing strings -/

/-- `strlen(s)` -/
def strlen : List UInt8 → Option ℕ
  | [] => none
  | c :: s => if c = 0 then some 0 else (strlen s).map (· + 1)

/-- `strcmp(a, b)` -/
def strcmp : List UInt8 → List UInt8 → Option ℤ
  | x :: a, y :: b =>
    if x ≠ 0 ∧ y ≠ 0 ∧ x = y then strcmp a b else some ((x.toNat : ℤ) - y.toNat)
  | _, _ => none

/-- `strncmp(a, b, n)` -/
def strncmp : List UInt8 → List UInt8 → ℕ → Option ℤ
  | _, _, 0 => some 0
  | x :: a, y :: b, n + 1 =>
    if x ≠ y then some ((x.toNat : ℤ) - y.toNat)
    else if x = 0 then some 0
    else strncmp a b n
  | _, _, _ + 1 => none

variable {s t : List UInt8}

/-- `strlen` counts the bytes in front of the terminator. -/
theorem strlen_eq (hs : 0 ∉ s) (rest : List UInt8) : strlen (s ++ 0 :: rest) = some s.length := by
  induction s with
  | nil => rfl
  | cons c s ih =>
    obtain ⟨hc, hs⟩ := not_or.mp (mt List.mem_cons.mpr hs)
    rw [List.cons_append, strlen, if_neg (Ne.symm hc), ih hs]
    rfl

/-- `strcmp` returns the difference of the two strings. -/
theorem strcmp_eq (hs : 0 ∉ s) (ht : 0 ∉ t) (rest rest' : List UInt8) :
    strcmp (s ++ 0 :: rest) (t ++ 0 :: rest') = some (byteDiff s t) := by
  induction s generalizing t with
  | nil => cases t <;> simp [strcmp, byteDiff]
  | cons x s ih =>
    obtain ⟨hx, hs⟩ := not_or.mp (mt List.mem_cons.mpr hs)
    cases t with
    | nil => simp [strcmp, byteDiff]
    | cons y t =>
      obtain ⟨hy, ht⟩ := not_or.mp (mt List.mem_cons.mpr ht)
      rw [List.cons_append, List.cons_append, strcmp, byteDiff]
      by_cases hxy : x = y
      · rw [if_pos ⟨Ne.symm hx, Ne.symm hy, hxy⟩, if_pos hxy, ih hs ht]
      · rw [if_neg fun h => hxy h.2.2, if_neg hxy]

/-- `strncmp` is `strcmp` on the strings cut to `n` bytes. -/
theorem strncmp_eq (hs : 0 ∉ s) (ht : 0 ∉ t) (rest rest' : List UInt8) (n : ℕ) :
    strncmp (s ++ 0 :: rest) (t ++ 0 :: rest') n = some (byteDiff (s.take n) (t.take n)) := by
  -- On `n`, which the loop counts down; it ends early at a difference or at both terminators.
  induction n generalizing s t with
  | zero => simp [strncmp, byteDiff]
  | succ n ih =>
    cases s with
    | nil =>
      cases t with
      | nil => simp [strncmp, byteDiff]
      | cons y t =>
        have hy : (0 : UInt8) ≠ y := fun h => ht (h ▸ List.mem_cons_self)
        simp [strncmp, byteDiff, hy]
    | cons x s =>
      obtain ⟨hx, hs⟩ := not_or.mp (mt List.mem_cons.mpr hs)
      cases t with
      | nil => simp [strncmp, byteDiff, Ne.symm hx]
      | cons y t =>
        obtain ⟨hy, ht⟩ := not_or.mp (mt List.mem_cons.mpr ht)
        rw [List.cons_append, List.cons_append, strncmp, List.take_succ_cons, List.take_succ_cons,
          byteDiff]
        by_cases hxy : x = y
        · rw [if_neg (not_not.mpr hxy), if_neg (Ne.symm hx), if_pos hxy, ih hs ht]
        · rw [if_pos hxy, if_neg hxy]

/-! ### On terminated bytes -/

variable {a b c : CString}

/-- The string and its terminator, without what stands behind them. -/
def CString.trim (a : CString) : CString := ⟨cstr a.1 ++ [0], by simp⟩

/-- The string cut to its first `n` bytes. -/
def CString.cut (a : CString) (n : ℕ) : CString := ⟨(cstr a.1).take n ++ [0], by simp⟩

/-- Trimming keeps the string. -/
theorem CString.cstr_trim (a : CString) : cstr a.trim.1 = cstr a.1 :=
  cstr_append_zero (zero_notMem_cstr a.1) []

/-- Cutting a buffer cuts its string. -/
theorem CString.cstr_cut (a : CString) (n : ℕ) : cstr (a.cut n).1 = (cstr a.1).take n :=
  cstr_append_zero (fun h => zero_notMem_cstr a.1 (List.mem_of_mem_take h)) []

/-- `str_eq` of the kernel decides equality of strings. -/
theorem strEq_cstr (a b : CString) : strEq a.1 b.1 = some (decide (cstr a.1 = cstr b.1)) :=
  strEq_eq a.2 (.inl b.2)

/-- `strlen` on a terminated buffer. -/
theorem strlen_cstr (a : CString) : strlen a.1 = some (cstr a.1).length := by
  obtain ⟨rest, ha⟩ := exists_eq_cstr_append a.2
  rw [ha, strlen_eq (zero_notMem_cstr a.1), ← ha]

/-- `strcmp` on terminated buffers. -/
theorem strcmp_cstr (a b : CString) : strcmp a.1 b.1 = some (byteDiff (cstr a.1) (cstr b.1)) := by
  obtain ⟨rest, ha⟩ := exists_eq_cstr_append a.2
  obtain ⟨rest', hb⟩ := exists_eq_cstr_append b.2
  rw [ha, hb, strcmp_eq (zero_notMem_cstr a.1) (zero_notMem_cstr b.1), ← ha, ← hb]

/-- `strncmp` on terminated buffers. -/
theorem strncmp_cstr (a b : CString) (n : ℕ) :
    strncmp a.1 b.1 n = some (byteDiff ((cstr a.1).take n) ((cstr b.1).take n)) := by
  obtain ⟨rest, ha⟩ := exists_eq_cstr_append a.2
  obtain ⟨rest', hb⟩ := exists_eq_cstr_append b.2
  rw [ha, hb, strncmp_eq (zero_notMem_cstr a.1) (zero_notMem_cstr b.1), ← ha, ← hb]

/-- `strcmp(a, b) <= 0` -/
def StrcmpLe (a b : CString) : Prop := ∃ v ≤ 0, strcmp a.1 b.1 = some v

/-- `strcmp(a, b) <= 0` is the lexicographic order. -/
theorem strcmpLe_iff : StrcmpLe a b ↔ cstr a.1 ≤ cstr b.1 := by
  have hgt := byteDiff_neg_iff (zero_notMem_cstr b.1) (zero_notMem_cstr a.1)
  rw [byteDiff_swap, Left.neg_neg_iff] at hgt
  rw [StrcmpLe, strcmp_cstr, ← List.not_lt, ← hgt, not_lt]
  simp

/-- `strncmp` with the length of a string tests for a prefix. -/
theorem strncmp_strlen_eq_zero_iff (a b : CString) :
    strncmp a.1 b.1 (cstr b.1).length = some 0 ↔ cstr b.1 <+: cstr a.1 := by
  have hcut : 0 ∉ (cstr a.1).take (cstr b.1).length := fun h =>
    zero_notMem_cstr a.1 (List.mem_of_mem_take h)
  rw [strncmp_cstr, List.take_length, Option.some.injEq,
    byteDiff_eq_zero_iff hcut (zero_notMem_cstr b.1), List.prefix_iff_eq_take, eq_comm]

/-- The comparisons of the kernel and of user programs agree: they decide equality and the
lexicographic order on unsigned bytes, `strncmp` that of the strings cut to `n` bytes, and none of
them reads behind a terminator. -/
theorem string_comparisons_agree (a b c : CString) (n : ℕ) :
    (∃ eq v, strEq a.1 b.1 = some eq ∧ strcmp a.1 b.1 = some v ∧ (eq = true ↔ v = 0) ∧
      (v = 0 ↔ cstr a.1 = cstr b.1) ∧ (v < 0 ↔ cstr a.1 < cstr b.1) ∧
      (0 < v ↔ cstr b.1 < cstr a.1)) ∧
    (StrcmpLe a b → StrcmpLe b a → cstr a.1 = cstr b.1) ∧
    (StrcmpLe a b → StrcmpLe b c → StrcmpLe a c) ∧
    (StrcmpLe a b ∨ StrcmpLe b a) ∧
    (∃ v w, strncmp a.1 b.1 n = some v ∧ strcmp (a.cut n).1 (b.cut n).1 = some w ∧
      v.sign = w.sign) ∧
    (∃ len v, strlen b.1 = some len ∧ strncmp a.1 b.1 len = some v ∧
      (v = 0 ↔ cstr b.1 <+: cstr a.1)) ∧
    strEq a.trim.1 b.trim.1 = strEq a.1 b.1 ∧ strcmp a.trim.1 b.trim.1 = strcmp a.1 b.1 ∧
      strncmp a.trim.1 b.trim.1 n = strncmp a.1 b.1 n ∧ strlen a.trim.1 = strlen a.1 := by
  have ha := zero_notMem_cstr a.1
  have hb := zero_notMem_cstr b.1
  have hgt := byteDiff_neg_iff hb ha
  rw [byteDiff_swap, Left.neg_neg_iff] at hgt
  simp only [strcmpLe_iff]
  -- Order and equality are those of lists of bytes, whose laws are in the library.
  refine ⟨⟨_, _, strEq_cstr a b, strcmp_cstr a b, ?_, byteDiff_eq_zero_iff ha hb,
    byteDiff_neg_iff ha hb, hgt⟩, List.le_antisymm, List.le_trans, List.le_total _ _, ?_, ?_, ?_⟩
  · rw [decide_eq_true_iff, byteDiff_eq_zero_iff ha hb]
  · refine ⟨_, _, strncmp_cstr a b n, strcmp_cstr _ _, ?_⟩
    rw [a.cstr_cut, b.cstr_cut]
  · have hpre := strncmp_strlen_eq_zero_iff a b
    rw [strncmp_cstr, Option.some.injEq] at hpre
    exact ⟨_, _, strlen_cstr b, strncmp_cstr a b _, hpre⟩
  · -- Without the bytes behind the terminators the results are the same.
    simp only [strEq_cstr, strcmp_cstr, strncmp_cstr, strlen_cstr, CString.cstr_trim, and_self]

/-! ## Printing numbers -/

/-- The digit characters of `utoa`. -/
def utoaDigit (d : ℕ) : UInt8 :=
  if d < 10 then UInt8.ofNat ('0'.toNat + d) else UInt8.ofNat ('a'.toNat + d - 10)

/-- `utoa(value, buf + i, base)` for an array `buf` of `size` bytes, with `char tmp[32]`. -/
def utoa (size value : ℕ) (buf : ℕ → UInt8) (i base : ℕ) : Option (ℕ → UInt8) :=
  if value = 0 then setBytes size buf i ['0'.toUInt8, 0]
  else do
    let tmp ← digitLoop (fun d => some (utoaDigit d)) base 32 value
    setBytes size buf i (tmp.reverse ++ [0])

/-- `itoa(value, buf + i, base)` -/
def itoa (size : ℕ) (value : ℤ) (buf : ℕ → UInt8) (i base : ℕ) : Option (ℕ → UInt8) :=
  if value < 0 ∧ base = 10 then do
    let buf ← setByte size buf i '-'.toUInt8
    utoa size (add32 (-(value + 1)).toNat 1) buf (i + 1) base
  else utoa size (value % 2 ^ 32).toNat buf i base

/-- `print(s)` of the shell: the characters it writes to descriptor 1. -/
def print (s : List UInt8) : Option (List UInt8) := do
  let len ← strlen s
  return s.take len

/-- A terminated string is written without its terminator. -/
theorem print_eq (hs : 0 ∉ s) (rest : List UInt8) : print (s ++ 0 :: rest) = some s := by
  rw [print, strlen_eq hs, Option.bind_eq_bind, Option.bind_some, List.take_left]
  rfl

/-- `print_num(n)` of the shell, with what is in `char buf[16]` before. -/
def printNum (buf : ℕ → UInt8) (n : ℕ) : Option (List UInt8) := do
  let buf ← utoa 16 n buf 0 10
  print ((List.range 16).map buf)

variable {size value base i : ℕ} {buf : ℕ → UInt8}

/-- `utoa` leaves the numeral and its terminator in the buffer, if they fit. -/
theorem utoa_eq (hvalue : value < 2 ^ 32) (h2 : 2 ≤ base)
    (hsize : i + (numeral base value).length < size) :
    utoa size value buf i base = some (overwrite buf i (numeral base value ++ [0])) := by
  have hset : setBytes size buf i (numeral base value ++ [0]) =
      some (overwrite buf i (numeral base value ++ [0])) :=
    setBytes_eq (by rw [List.length_append, List.length_singleton]; omega) buf
  rw [← hset]
  unfold utoa numeral
  split
  next => rfl
  next =>
    -- The two branches of the source's digit are one table of characters.
    have hdigit : ∀ d < base, some (utoaDigit d) = some (digitChar d) := by
      intro d hd
      unfold utoaDigit digitChar
      split
      next => rfl
      next => rw [show 'a'.toNat + d - 10 = 87 + d by simp; omega]
    rw [digitLoop_eq h2 hdigit (hvalue.trans_le (Nat.pow_le_pow_left h2 32))]
    rfl

/-- `itoa` leaves the signed numeral and its terminator in the buffer, if they fit. -/
theorem itoa_eq {value : ℤ} (hlo : -2 ^ 31 ≤ value) (hhi : value < 2 ^ 31)
    (hsize : i + (signedNumeral value).length < size) :
    itoa size value buf i 10 = some (overwrite buf i (signedNumeral value ++ [0])) := by
  unfold itoa signedNumeral at *
  by_cases hneg : value < 0
  · rw [if_pos hneg] at hsize ⊢
    rw [List.length_cons] at hsize
    -- The sign is stored first, and the digits go behind it.
    rw [if_pos ⟨hneg, rfl⟩, setByte, if_pos (by omega), Option.bind_eq_bind, Option.bind_some,
      add32_neg_succ hlo hneg, utoa_eq (by omega) (by decide) (by omega), overwrite_update]
    rfl
  · rw [if_neg hneg] at hsize ⊢
    have habs : (value % 2 ^ 32).toNat = value.natAbs := by omega
    rw [if_neg fun h => hneg h.1, habs, utoa_eq (by omega) (by decide) hsize]

/-- A 32-bit number has at most ten decimal digits. -/
theorem length_numeral_ten_le (hvalue : value < 2 ^ 32) : (numeral 10 value).length ≤ 10 :=
  length_numeral_le (by decide) (by decide) (hvalue.trans (by decide))

/-- An `int` has at most ten digits and a sign. -/
theorem length_signedNumeral_le {value : ℤ} (hlo : -2 ^ 31 ≤ value) (hhi : value < 2 ^ 31) :
    (signedNumeral value).length ≤ 11 := by
  have hlen := length_numeral_ten_le (show value.natAbs < 2 ^ 32 by omega)
  unfold signedNumeral
  split
  next => exact Nat.succ_le_succ hlen
  next => exact hlen.trans (by decide)

/-- `print_num` writes the decimal numeral: it fits `buf[16]`. -/
theorem printNum_eq (hvalue : value < 2 ^ 32) : printNum buf value = some (numeral 10 value) := by
  have hlen := length_numeral_ten_le hvalue
  have hfits : (numeral 10 value ++ [0]).length ≤ 16 := by
    rw [List.length_append, List.length_singleton]
    omega
  -- The buffer then starts with the numeral and its terminator, where `strlen` stops.
  obtain ⟨rest, hrest⟩ := prefix_map_range_overwrite hfits buf
  rw [List.append_assoc, List.singleton_append] at hrest
  rw [printNum, utoa_eq hvalue (by decide) (by omega), Option.bind_eq_bind, Option.bind_some,
    ← hrest, print_eq (zero_notMem_numeral (by decide) (by decide))]

/-- Numbers are printed alike in the kernel and in user programs, as numerals that read back to
them, and the buffers are large enough. -/
theorem numbers_canonical (value : UInt32) (n : Int32) (h2 : 2 ≤ base) (h36 : base ≤ 36)
    (buf : ℕ → UInt8) (i : ℕ) :
    (∃ s, readNumeral base s = some value.toNat ∧ s.length ≤ 32 ∧ 0 ∉ s ∧
      (s.head? = some '0'.toUInt8 → s = ['0'.toUInt8]) ∧
      (∀ size, i + s.length < size →
        utoa size value.toNat buf i base = some (overwrite buf i (s ++ [0]))) ∧
      (base ≤ 16 → printUint value.toNat base = some s)) ∧
    (∃ s, readSigned s = some n.toInt ∧ s.length < 16 ∧ 0 ∉ s ∧
      (∀ size, i + s.length < size →
        itoa size n.toInt buf i 10 = some (overwrite buf i (s ++ [0]))) ∧
      printInt n.toInt = some s) ∧
    ∃ s, readNumeral 10 s = some value.toNat ∧
      utoa 16 value.toNat buf 0 10 = some (overwrite buf 0 (s ++ [0])) ∧
      printNum buf value.toNat = some s := by
  have hvalue := value.toNat_lt
  have hlen := length_numeral_ten_le hvalue
  -- The three texts are the numeral of the value in its base, the signed one, and the decimal one.
  refine ⟨⟨numeral base value.toNat, readNumeral_numeral h2 h36 _, ?_,
    zero_notMem_numeral h2 h36, numeral_eq_zero_of_head h2 h36, fun size => utoa_eq hvalue h2,
    printUint_eq hvalue h2⟩, ⟨signedNumeral n.toInt, readSigned_signedNumeral _, ?_, ?_,
    fun size => itoa_eq n.le_toInt n.toInt_lt, printInt_eq n.le_toInt n.toInt_lt⟩,
    numeral 10 value.toNat, readNumeral_numeral (by decide) (by decide) _,
    utoa_eq hvalue (by decide) (by omega), printNum_eq hvalue⟩
  · exact length_numeral_le h2 (by decide) (hvalue.trans_le (Nat.pow_le_pow_left h2 32))
  · exact (length_signedNumeral_le n.le_toInt n.toInt_lt).trans_lt (by decide)
  · exact zero_notMem_signedNumeral _

/-- The largest number, in hexadecimal. -/
theorem numbers_canonical_extreme :
    ∃ s, readNumeral 16 s = some (0xFFFFFFFF : UInt32).toNat ∧
      printUint (0xFFFFFFFF : UInt32).toNat 16 = some s ∧ s = ascii "ffffffff" := by
  obtain ⟨⟨s, hread, -, -, -, -, hprint⟩, -⟩ := numbers_canonical 0xFFFFFFFF Int32.minValue
    (show 2 ≤ 16 by decide) (by decide) (fun _ => 0) 0
  refine ⟨s, hread, hprint (by decide), ?_⟩
  have hs := hprint (by decide)
  rw [show printUint (0xFFFFFFFF : UInt32).toNat 16 = some (ascii "ffffffff") by decide] at hs
  exact (Option.some.inj hs).symm

end Lightstreak
