import Mathlib.Algebra.Group.Nat.Even
import Mathlib.Data.List.DropRight
import Lightstreak.Lib.Numeral

/-!
# Formatted output (`kernel/kernel.c`)

`kprintf` with `print_uint` and `print_int`. The format is given by the bytes that may be read from
its address on, the arguments by the words on the stack, and a string argument by the bytes that may
be read from its address on. Output is the list of characters handed to `vga_putchar`.

What should be printed is said by `parseFmt`, which cuts a format into text and conversions, and
`expand`, which puts the arguments in:

* `printUint_eq`, `printInt_eq`: a number is printed as its numeral;
* `kprintf_eq`: the format is expanded if an even number of `%` stands at its end, and otherwise
  the loop steps over the terminating zero;
* `kprintf_expands_iff`: hence the format is expanded exactly in the first case.
-/

namespace Lightstreak.Kernel

open SysLib

/-! ## The code -/

/-- `vga_puts(str)` -/
def vgaPuts : List UInt8 → Option (List UInt8)
  | [] => none
  | c :: str => if c = 0 then some [] else (vgaPuts str).map (c :: ·)

/-- `print_uint(n, base)`, with `char buf[32]` and the table `digits`. -/
def printUint (n base : ℕ) : Option (List UInt8) :=
  if n = 0 then some ['0'.toUInt8]
  else (digitLoop (fun d => (ascii "0123456789abcdef" ++ [0])[d]?) base 32 n).map List.reverse

/-- `print_int(n)` -/
def printInt (n : ℤ) : Option (List UInt8) :=
  if n < 0 then (printUint (add32 (-(n + 1)).toNat 1) 10).map ('-'.toUInt8 :: ·)
  else printUint n.toNat 10

/-- `va_arg(ap, type)` for a type of four bytes. -/
def vaArg : List UInt32 → Option (UInt32 × List UInt32)
  | [] => none
  | w :: ap => some (w, ap)

/-- The `switch` on the character behind a `%`: what is printed, and the arguments left. -/
def kprintfSwitch (str : UInt32 → List UInt8) (c : UInt8) (ap : List UInt32) :
    Option (List UInt8 × List UInt32) :=
  if c = 's'.toUInt8 then do
    let (s, ap) ← vaArg ap
    return (← if s ≠ 0 then vgaPuts (str s) else vgaPuts (ascii "(null)" ++ [0]), ap)
  else if c = 'd'.toUInt8 then do
    let (n, ap) ← vaArg ap
    return (← printInt (toInt32 n.toNat), ap)
  else if c = 'u'.toUInt8 then do
    let (n, ap) ← vaArg ap
    return (← printUint n.toNat 10, ap)
  else if c = 'x'.toUInt8 then do
    let (n, ap) ← vaArg ap
    return (← printUint n.toNat 16, ap)
  else if c = 'X'.toUInt8 then do
    let (n, ap) ← vaArg ap
    return (← printUint n.toNat 16, ap)
  else if c = 'c'.toUInt8 then do
    let (c, ap) ← vaArg ap
    return ([c.toUInt8], ap)
  else if c = 'p'.toUInt8 then do
    let (n, ap) ← vaArg ap
    return ((← vgaPuts (ascii "0x" ++ [0])) ++ (← printUint n.toNat 16), ap)
  else if c = '%'.toUInt8 then some (['%'.toUInt8], ap)
  -- The terminating zero ends up here as well.
  else some (['%'.toUInt8, c], ap)

/-- `kprintf(fmt, ...)` -/
def kprintf (str : UInt32 → List UInt8) : List UInt8 → List UInt32 → Option (List UInt8)
  -- The format is read up to its terminator: without one the loop runs out of it.
  | [], _ => none
  | c :: fmt, ap =>
    if c = 0 then some []
    else if c ≠ '%'.toUInt8 then (kprintf str fmt ap).map (c :: ·)
    else
      match fmt with
      | [] => none
      | c :: fmt => do
        let (out, ap) ← kprintfSwitch str c ap
        return out ++ (← kprintf str fmt ap)

/-! ## The expansion of a format -/

/-- The conversions that take an argument. -/
inductive Conversion
  | s | d | u | x | X | c | p
deriving DecidableEq, Repr

/-- The character behind the `%`. -/
def Conversion.char : Conversion → UInt8
  | s => 's'.toUInt8
  | d => 'd'.toUInt8
  | u => 'u'.toUInt8
  | x => 'x'.toUInt8
  | X => 'X'.toUInt8
  | c => 'c'.toUInt8
  | p => 'p'.toUInt8

/-- The conversion that a character behind a `%` asks for. -/
def Conversion.ofChar (ch : UInt8) : Option Conversion :=
  [s, d, u, x, X, c, p].find? fun k => k.char == ch

/-- How a conversion shows its argument. Both hexadecimal ones use small letters. -/
def Conversion.render (str : UInt32 → List UInt8) : Conversion → UInt32 → List UInt8
  | s, w => if w = 0 then ascii "(null)" else cstr (str w)
  | d, w => signedNumeral (toInt32 w.toNat)
  | u, w => numeral 10 w.toNat
  | x, w => numeral 16 w.toNat
  | X, w => numeral 16 w.toNat
  | c, w => [w.toUInt8]
  | p, w => ascii "0x" ++ numeral 16 w.toNat

/-- A piece of a format: text that is copied, or a conversion. -/
inductive FmtItem
  | text (t : List UInt8)
  | conv (k : Conversion)
deriving DecidableEq, Repr

/-- What a `%` and the character behind it stand for. -/
def FmtItem.ofChar (ch : UInt8) : FmtItem :=
  match Conversion.ofChar ch with
  | some k => conv k
  | none => text (if ch = '%'.toUInt8 then ['%'.toUInt8] else ['%'.toUInt8, ch])

/-- The pieces of a format, given without its terminator. -/
def parseFmt : List UInt8 → List FmtItem
  | [] => []
  | c :: fmt =>
    if c ≠ '%'.toUInt8 then .text [c] :: parseFmt fmt
    else
      match fmt with
      | [] => [.text ['%'.toUInt8]]
      | c :: fmt => .ofChar c :: parseFmt fmt

/-- The expansion, with one argument for each conversion. -/
def expand (str : UInt32 → List UInt8) : List FmtItem → List UInt32 → List UInt8
  | [], _ => []
  | .text t :: items, args => t ++ expand str items args
  | .conv _ :: _, [] => []
  | .conv k :: items, w :: args => k.render str w ++ expand str items args

/-- There is one argument for each conversion, and for `%s` it is `NULL` or the address of a
terminated string. -/
def ArgsFor (str : UInt32 → List UInt8) : List FmtItem → List UInt32 → Prop
  | [], args => args = []
  | .text _ :: items, args => ArgsFor str items args
  | .conv _ :: _, [] => False
  | .conv k :: items, w :: args => (k = .s → w ≠ 0 → 0 ∈ str w) ∧ ArgsFor str items args

/-- The number of `%` at the end of a format. -/
def trailingPercents (fmt : List UInt8) : ℕ := (fmt.rtakeWhile (· == '%'.toUInt8)).length

/-! ## Printing numbers and strings -/

/-- `vga_puts` prints a string up to its terminator. -/
theorem vgaPuts_eq {str : List UInt8} (h : 0 ∈ str) : vgaPuts str = some (cstr str) := by
  induction str with
  | nil => cases h
  | cons c str ih =>
    rw [vgaPuts]
    by_cases hc : c = 0
    · rw [if_pos hc, hc, cstr_cons_zero]
    · rw [if_neg hc, ih ((List.mem_cons.mp h).resolve_left (Ne.symm hc)), cstr_cons_of_ne hc]
      rfl

/-- `print_uint` prints the numeral: its 32 digit places suffice in every base from 2 to 16. -/
theorem printUint_eq {n base : ℕ} (hn : n < 2 ^ 32) (h2 : 2 ≤ base) (h16 : base ≤ 16) :
    printUint n base = some (numeral base n) := by
  unfold printUint numeral
  split
  next => rfl
  next =>
    have htable : ∀ d < 16, (ascii "0123456789abcdef" ++ [0])[d]? = some (digitChar d) := by
      decide
    rw [digitLoop_eq h2 (fun d hd => htable d (by omega))
      (hn.trans_le (Nat.pow_le_pow_left h2 32))]
    rfl

/-- The magnitude of a negative number: `-(n + 1)` does not overflow, even for the least integer. -/
theorem add32_neg_succ {n : ℤ} (hlo : -2 ^ 31 ≤ n) (hneg : n < 0) :
    add32 (-(n + 1)).toNat 1 = n.natAbs := by
  rw [add32_eq (by omega)]
  omega

/-- `print_int` prints the signed numeral, also for the least `int`. -/
theorem printInt_eq {n : ℤ} (hlo : -2 ^ 31 ≤ n) (hhi : n < 2 ^ 31) :
    printInt n = some (signedNumeral n) := by
  unfold printInt signedNumeral
  split
  next hneg =>
    rw [add32_neg_succ hlo hneg, printUint_eq (by omega) (by decide) (by decide)]
    rfl
  next hneg =>
    rw [show n.toNat = n.natAbs by omega, printUint_eq (by omega) (by decide) (by decide)]

/-- A word read as `int` is in the range of `int`. -/
theorem toInt32_bounds (w : UInt32) :
    -2 ^ 31 ≤ toInt32 w.toNat ∧ toInt32 w.toNat < 2 ^ 31 := by
  have hw := w.toNat_lt
  unfold toInt32
  split <;> constructor <;> omega

/-! ## One conversion -/

variable {str : UInt32 → List UInt8} {fmt : List UInt8} {args : List UInt32} {items : List FmtItem}
  {k : Conversion} {ch : UInt8} {w : UInt32}

/-- A conversion takes its argument and prints it. -/
theorem kprintfSwitch_conv (hstr : k = .s → w ≠ 0 → 0 ∈ str w) :
    kprintfSwitch str k.char (w :: args) = some (k.render str w, args) := by
  have hw := w.toNat_lt
  have hdec := printUint_eq hw (show 2 ≤ 10 by decide) (by decide)
  have hhex := printUint_eq hw (show 2 ≤ 16 by decide) (by decide)
  have hint := printInt_eq (toInt32_bounds w).1 (toInt32_bounds w).2
  -- One branch of the `switch` for each conversion.
  cases k with
  | s =>
    by_cases h0 : w = 0
    · have hputs : vgaPuts (ascii "(null)" ++ [0]) = some (ascii "(null)") := by decide
      simp [kprintfSwitch, Conversion.char, Conversion.render, vaArg, h0, hputs]
    · simp [kprintfSwitch, Conversion.char, Conversion.render, vaArg, h0, vgaPuts_eq (hstr rfl h0)]
  | d => simp +decide [kprintfSwitch, Conversion.render, vaArg, hint]
  | u => simp +decide [kprintfSwitch, Conversion.render, vaArg, hdec]
  | x => simp +decide [kprintfSwitch, Conversion.render, vaArg, hhex]
  | X => simp +decide [kprintfSwitch, Conversion.render, vaArg, hhex]
  | c => simp +decide [kprintfSwitch, Conversion.render, vaArg]
  | p =>
    have hputs : vgaPuts (ascii "0x" ++ [0]) = some (ascii "0x") := by decide
    simp +decide [kprintfSwitch, Conversion.render, vaArg, hhex, hputs]

/-- A character that is no conversion takes no argument. -/
theorem kprintfSwitch_text (h : ∀ k : Conversion, k.char ≠ ch) :
    kprintfSwitch str ch args =
      some (if ch = '%'.toUInt8 then ['%'.toUInt8] else ['%'.toUInt8, ch], args) := by
  have hs : ch ≠ 's'.toUInt8 := (h .s).symm
  have hd : ch ≠ 'd'.toUInt8 := (h .d).symm
  have hu : ch ≠ 'u'.toUInt8 := (h .u).symm
  have hx : ch ≠ 'x'.toUInt8 := (h .x).symm
  have hX : ch ≠ 'X'.toUInt8 := (h .X).symm
  have hc : ch ≠ 'c'.toUInt8 := (h .c).symm
  have hp : ch ≠ 'p'.toUInt8 := (h .p).symm
  rw [kprintfSwitch, if_neg hs, if_neg hd, if_neg hu, if_neg hx, if_neg hX, if_neg hc, if_neg hp]
  split <;> rfl

/-- The `switch` prints what the piece stands for and leaves the arguments of the next pieces. -/
theorem kprintfSwitch_eq (hargs : ArgsFor str (FmtItem.ofChar ch :: items) args) :
    ∃ out rest, kprintfSwitch str ch args = some (out, rest) ∧ ArgsFor str items rest ∧
      expand str (FmtItem.ofChar ch :: items) args = out ++ expand str items rest := by
  unfold FmtItem.ofChar at hargs ⊢
  -- Either the character is a conversion, which takes an argument, or it is text after the `%`.
  cases hk : Conversion.ofChar ch with
  | some k =>
    rw [hk] at hargs
    obtain rfl : k.char = ch := by simpa using List.find?_some hk
    cases args with
    | nil => exact hargs.elim
    | cons w args => exact ⟨_, args, kprintfSwitch_conv hargs.1, hargs.2, rfl⟩
  | none =>
    rw [hk] at hargs
    have hne : ∀ k : Conversion, k.char ≠ ch := by
      intro k
      have hnone := List.find?_eq_none.mp hk k (by cases k <;> decide)
      simpa using hnone
    exact ⟨_, args, kprintfSwitch_text hne, hargs, rfl⟩

/-! ## The end of the format -/

/-- A format of percent signs only ends with all of them. -/
theorem trailingPercents_of_forall (h : ∀ c ∈ fmt, c = '%'.toUInt8) :
    trailingPercents fmt = fmt.length := by
  have hall : fmt.rtakeWhile (· == '%'.toUInt8) = fmt :=
    List.rtakeWhile_eq_self_iff.mpr fun c hc => beq_iff_eq.mpr (h c hc)
  rw [trailingPercents, hall]

/-- In front of anything else, a character does not change the end of the format. -/
theorem trailingPercents_cons_of_not (h : ¬ ∀ c ∈ ch :: fmt, c = '%'.toUInt8) :
    trailingPercents (ch :: fmt) = trailingPercents fmt := by
  have hcons : (ch :: fmt).rtakeWhile (· == '%'.toUInt8) = fmt.rtakeWhile (· == '%'.toUInt8) := by
    rw [List.rtakeWhile, List.rtakeWhile, List.reverse_cons, List.takeWhile_append]
    split
    next hall =>
      -- The rest is all `%`, so the first character is not.
      have hfmt : fmt.reverse.takeWhile (· == '%'.toUInt8) = fmt.reverse :=
        (List.takeWhile_prefix _).eq_of_length hall
      have hch : ch ≠ '%'.toUInt8 := by
        rintro rfl
        refine h (List.forall_mem_cons.mpr ⟨rfl, fun c hc => ?_⟩)
        exact beq_iff_eq.mp (List.takeWhile_eq_self_iff.mp hfmt c (List.mem_reverse.mpr hc))
      rw [hfmt, List.takeWhile_cons_of_neg (by simpa using hch), List.append_nil]
    next => rfl
  rw [trailingPercents, hcons, trailingPercents]

/-- A percent sign takes the next character with it, so that the parity at the end stays. -/
theorem even_trailingPercents_cons_cons (c : UInt8) (fmt : List UInt8) :
    Even (trailingPercents ('%'.toUInt8 :: c :: fmt)) ↔ Even (trailingPercents fmt) := by
  by_cases h : ∀ x ∈ c :: fmt, x = '%'.toUInt8
  · -- Two more of them.
    have hfmt : ∀ x ∈ fmt, x = '%'.toUInt8 := fun x hx => h x (List.mem_cons_of_mem c hx)
    rw [trailingPercents_of_forall hfmt,
      trailingPercents_of_forall (List.forall_mem_cons.mpr ⟨rfl, h⟩), List.length_cons,
      List.length_cons, Nat.even_add_one, Nat.even_add_one, not_not]
  · rw [trailingPercents_cons_of_not (mt (fun h => (List.forall_mem_cons.mp h).2) h),
      trailingPercents_cons_of_not h]

/-! ## The whole format -/

/-- A character other than `%` stands for itself. -/
theorem parseFmt_cons_of_ne (hc : ch ≠ '%'.toUInt8) :
    parseFmt (ch :: fmt) = .text [ch] :: parseFmt fmt := by
  cases fmt <;> simp [parseFmt, hc]

theorem kprintf_cons_of_ne (h0 : ch ≠ 0) (hc : ch ≠ '%'.toUInt8) :
    kprintf str (ch :: fmt) args = (kprintf str fmt args).map (ch :: ·) := by
  cases fmt <;> simp [kprintf, h0, hc]

/-- After a `%` the next character decides what is printed, and `kprintf` goes on behind it. -/
theorem kprintf_percent_cons {out : List UInt8} {rest : List UInt32}
    (h : kprintfSwitch str ch args = some (out, rest)) :
    kprintf str ('%'.toUInt8 :: ch :: fmt) args = (kprintf str fmt rest).map (out ++ ·) := by
  rw [kprintf, if_neg (by decide), if_neg (by decide), h, Option.bind_eq_bind, Option.bind_some]
  cases hrest : kprintf str fmt rest <;> simp [hrest]

/-- `kprintf` expands its format if the number of percent signs at the end is even, and reads past
the terminator otherwise. -/
theorem kprintf_eq (hfmt : 0 ∉ fmt) (hargs : ArgsFor str (parseFmt fmt) args) :
    kprintf str (fmt ++ [0]) args =
      if Even (trailingPercents fmt) then some (expand str (parseFmt fmt) args) else none := by
  induction fmt using parseFmt.induct generalizing args with
  | case1 =>
    rw [if_pos (by decide), parseFmt, expand]
    rfl
  | case2 c fmt hc ih =>
    -- An ordinary character.
    obtain ⟨h0, hfmt⟩ := not_or.mp (mt List.mem_cons.mpr hfmt)
    rw [parseFmt_cons_of_ne hc] at hargs ⊢
    rw [List.cons_append, kprintf_cons_of_ne (Ne.symm h0) hc, ih hfmt hargs,
      trailingPercents_cons_of_not fun h => hc (List.forall_mem_cons.mp h).1, expand]
    split <;> rfl
  | case3 c hc =>
    -- The format ends in a `%` of its own, and the loop does not see the terminator.
    obtain rfl : c = '%'.toUInt8 := not_not.mp hc
    rw [if_neg (by decide)]
    exact kprintf_percent_cons (kprintfSwitch_text fun k => by cases k <;> decide)
  | case4 c hc ch fmt ih =>
    -- A `%` with the character that belongs to it.
    obtain rfl : c = '%'.toUInt8 := not_not.mp hc
    have hfmt' : 0 ∉ fmt := fun h => hfmt (List.mem_cons_of_mem _ (List.mem_cons_of_mem _ h))
    obtain ⟨out, rest, hswitch, hrest, hexpand⟩ := kprintfSwitch_eq hargs
    rw [List.cons_append, List.cons_append, kprintf_percent_cons hswitch, ih hfmt' hrest,
      show parseFmt ('%'.toUInt8 :: ch :: fmt) = .ofChar ch :: parseFmt fmt from rfl, hexpand]
    simp only [even_trailingPercents_cons_cons]
    split <;> rfl

/-- A format is expanded, and nothing behind its terminator is read, if and only if the number of
`%` at its end is even. -/
theorem kprintf_expands_iff (hfmt : 0 ∉ fmt) (hargs : ArgsFor str (parseFmt fmt) args) :
    kprintf str (fmt ++ [0]) args = some (expand str (parseFmt fmt) args) ↔
      Even (trailingPercents fmt) := by
  rw [kprintf_eq hfmt hargs]
  split <;> simp [*]

/-- `kprintf("%d%%", 7)` -/
theorem kprintf_expands_percentage :
    kprintf (fun _ => []) (['%'.toUInt8, 'd'.toUInt8, '%'.toUInt8, '%'.toUInt8] ++ [0]) [7] =
        some (expand (fun _ => [])
          (parseFmt ['%'.toUInt8, 'd'.toUInt8, '%'.toUInt8, '%'.toUInt8]) [7]) ∧
      kprintf (fun _ => []) (['%'.toUInt8, 'd'.toUInt8, '%'.toUInt8, '%'.toUInt8] ++ [0]) [7] =
        some (ascii "7%") := by
  have hargs : ArgsFor (fun _ => [])
      (parseFmt ['%'.toUInt8, 'd'.toUInt8, '%'.toUInt8, '%'.toUInt8]) [7] := ⟨nofun, rfl⟩
  exact ⟨(kprintf_expands_iff (by decide) hargs).mpr (by decide), by decide⟩

/-- A single `%` at the end of the format takes the terminator for its conversion. -/
theorem kprintf_reads_past_terminator :
    ¬ ∀ (str : UInt32 → List UInt8) (fmt : List UInt8) (args : List UInt32), 0 ∉ fmt →
      ArgsFor str (parseFmt fmt) args →
        kprintf str (fmt ++ [0]) args = some (expand str (parseFmt fmt) args) := by
  intro h
  exact absurd (h (fun _ => []) ['%'.toUInt8] [] (by decide) rfl) (by decide)

end Lightstreak.Kernel
