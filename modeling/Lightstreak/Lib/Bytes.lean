import Mathlib.Data.List.TakeWhile
import Lightstreak.Lib.Memory

/-!
# Readable bytes and C strings

A C string is seen through the bytes that may be read from its address on: a `List UInt8` that
holds a zero byte somewhere, with `cstr` the bytes before the first one. Memory of which only
some addresses may be read is a `ReadMem`; a read anywhere else is `none`, so that a function
that returns has read readable bytes only.
-/

namespace SysLib

/-! ## C strings -/

/-- The string stored in a list of bytes: everything before the first zero byte. -/
def cstr (l : List UInt8) : List UInt8 := l.takeWhile fun c => decide (c ≠ 0)

@[simp]
theorem cstr_cons_zero (l : List UInt8) : cstr (0 :: l) = [] := rfl

theorem cstr_cons_of_ne {c : UInt8} (h : c ≠ 0) (l : List UInt8) :
    cstr (c :: l) = c :: cstr l := by
  simp [cstr, h]

/-- The bytes of a string literal, without its terminator. -/
def ascii (s : String) : List UInt8 := s.toList.map fun c => UInt8.ofNat c.toNat

/-- The string before a zero byte. -/
theorem cstr_append_zero {s : List UInt8} (hs : 0 ∉ s) (rest : List UInt8) :
    cstr (s ++ 0 :: rest) = s := by
  induction s with
  | nil => rfl
  | cons c s ih =>
    obtain ⟨hc, hs⟩ := not_or.mp (mt List.mem_cons.mpr hs)
    rw [List.cons_append, cstr_cons_of_ne (Ne.symm hc), ih hs]

/-- What follows a terminator does not matter. -/
theorem cstr_append_cons_zero (s rest : List UInt8) : cstr (s ++ 0 :: rest) = cstr s := by
  induction s with
  | nil => rfl
  | cons c s ih =>
    by_cases hc : c = 0
    · rw [hc, List.cons_append, cstr_cons_zero, cstr_cons_zero]
    · rw [List.cons_append, cstr_cons_of_ne hc, cstr_cons_of_ne hc, ih]

theorem zero_notMem_cstr (l : List UInt8) : 0 ∉ cstr l := fun h => by
  simpa using List.mem_takeWhile_imp h

/-- Terminated bytes are a string, its terminator, and what stands behind it. -/
theorem exists_eq_cstr_append {l : List UInt8} (h : 0 ∈ l) : ∃ rest, l = cstr l ++ 0 :: rest := by
  induction l with
  | nil => cases h
  | cons c l ih =>
    by_cases hc : c = 0
    · exact ⟨l, by rw [hc, cstr_cons_zero, List.nil_append]⟩
    · obtain ⟨rest, hrest⟩ := ih ((List.mem_cons.mp h).resolve_left (Ne.symm hc))
      exact ⟨rest, by rw [cstr_cons_of_ne hc, List.cons_append, ← hrest]⟩

/-- A zero byte among the first ones ends a string that is that short. -/
theorem zero_mem_take_iff {l : List UInt8} {n : ℕ} :
    0 ∈ l.take n ↔ 0 ∈ l ∧ (cstr l).length < n := by
  induction l generalizing n with
  | nil => simp
  | cons c l ih =>
    cases n with
    | zero => simp
    | succ n =>
      by_cases hc : c = 0
      · simp [hc]
      · rw [List.take_succ_cons, List.mem_cons, List.mem_cons, ih, cstr_cons_of_ne hc,
          List.length_cons, Nat.succ_lt_succ_iff]
        simp only [Ne.symm hc, false_or]

/-- The difference of two strings: that of the first bytes in which they differ, where a string that
has ended counts as zero. -/
def byteDiff : List UInt8 → List UInt8 → ℤ
  | [], [] => 0
  | [], y :: _ => -(y.toNat : ℤ)
  | x :: _, [] => x.toNat
  | x :: s, y :: t => if x = y then byteDiff s t else (x.toNat : ℤ) - y.toNat

/-- Comparing the other way round. -/
theorem byteDiff_swap (s t : List UInt8) : byteDiff t s = -byteDiff s t := by
  induction s generalizing t with
  | nil => cases t <;> simp [byteDiff]
  | cons x s ih =>
    cases t with
    | nil => simp [byteDiff]
    | cons y t =>
      by_cases hxy : x = y
      · simp [byteDiff, hxy, ih]
      · simp [byteDiff, hxy, Ne.symm hxy]

/-- Its sign is the lexicographic order on unsigned bytes. -/
theorem byteDiff_neg_iff {s t : List UInt8} (hs : 0 ∉ s) (ht : 0 ∉ t) :
    byteDiff s t < 0 ↔ s < t := by
  induction s generalizing t with
  | nil =>
    cases t with
    | nil => simp [byteDiff]
    | cons y t =>
      -- The end of the first string is compared with a character, which is not zero.
      have hy : y ≠ 0 := fun h => ht (by simp [h])
      have hpos : y.toNat ≠ 0 := fun h => hy (UInt8.toNat_inj.mp h)
      simp only [byteDiff, List.nil_lt_cons, iff_true]
      omega
  | cons x s ih =>
    cases t with
    | nil => simp [byteDiff]
    | cons y t =>
      rw [byteDiff, List.cons_lt_cons_iff, UInt8.lt_iff_toNat_lt]
      split
      next hxy =>
        rw [ih (fun h => hs (List.mem_cons_of_mem x h)) fun h => ht (List.mem_cons_of_mem y h), hxy]
        simp
      next hxy =>
        simp only [hxy, false_and, or_false]
        omega

/-- Only equal strings have no difference. -/
theorem byteDiff_eq_zero_iff {s t : List UInt8} (hs : 0 ∉ s) (ht : 0 ∉ t) :
    byteDiff s t = 0 ↔ s = t := by
  have hlt := byteDiff_neg_iff hs ht
  have hgt := byteDiff_neg_iff ht hs
  rw [byteDiff_swap] at hgt
  constructor
  · intro h
    exact List.le_antisymm (List.not_lt.mp fun hts => by have := hgt.mpr hts; omega)
      (List.not_lt.mp fun hst => by have := hlt.mpr hst; omega)
  · rintro rfl
    have := byteDiff_swap s s
    omega

/-- The bytes of a 32-bit word, little-endian. -/
def le32 (n : ℕ) : List UInt8 :=
  [UInt8.ofNat n, UInt8.ofNat (n / 256), UInt8.ofNat (n / 65536), UInt8.ofNat (n / 16777216)]

/-! ## Char arrays -/

/-- `buf[i] = c` in an array of `size` bytes. A write behind its end has no result. -/
def setByte (size : ℕ) (buf : ℕ → UInt8) (i : ℕ) (c : UInt8) : Option (ℕ → UInt8) :=
  if i < size then some (Function.update buf i c) else none

/-- One byte after another, from `i` on. -/
def setBytes (size : ℕ) : (ℕ → UInt8) → ℕ → List UInt8 → Option (ℕ → UInt8)
  | buf, _, [] => some buf
  | buf, i, c :: cs => do
    let buf ← setByte size buf i c
    setBytes size buf (i + 1) cs

/-- An array in which bytes have been replaced, from `i` on. -/
def overwrite (buf : ℕ → UInt8) (i : ℕ) (cs : List UInt8) : ℕ → UInt8 := fun x =>
  if i ≤ x then cs.getD (x - i) (buf x) else buf x

/-- A byte and then those behind it. -/
theorem overwrite_update (buf : ℕ → UInt8) (i : ℕ) (c : UInt8) (cs : List UInt8) :
    overwrite (Function.update buf i c) (i + 1) cs = overwrite buf i (c :: cs) := by
  funext x
  unfold overwrite
  rcases lt_trichotomy x i with hx | rfl | hx
  · rw [if_neg (by omega), if_neg (by omega), Function.update_of_ne (by omega)]
  · rw [if_neg (by omega), if_pos le_rfl, Function.update_self, Nat.sub_self, List.getD_cons_zero]
  · obtain ⟨k, rfl⟩ : ∃ k, x = i + 1 + k := ⟨x - (i + 1), by omega⟩
    rw [if_pos (by omega), if_pos (by omega), Function.update_of_ne (by omega),
      Nat.add_sub_cancel_left, show i + 1 + k - i = k + 1 by omega, List.getD_cons_succ]

/-- Storing bytes that fit. -/
theorem setBytes_eq {size i : ℕ} {cs : List UInt8} (h : i + cs.length ≤ size) (buf : ℕ → UInt8) :
    setBytes size buf i cs = some (overwrite buf i cs) := by
  induction cs generalizing buf i with
  | nil =>
    refine congrArg some (funext fun x => ?_)
    simp [overwrite]
  | cons c cs ih =>
    rw [List.length_cons] at h
    rw [setBytes, setByte, if_pos (by omega), Option.bind_eq_bind, Option.bind_some,
      ih (by omega), overwrite_update]

/-- Written to the front, the bytes are a prefix of the buffer. -/
theorem prefix_map_range_overwrite {size : ℕ} {cs : List UInt8} (h : cs.length ≤ size)
    (buf : ℕ → UInt8) : cs <+: (List.range size).map (overwrite buf 0 cs) := by
  refine List.prefix_iff_getElem?.mpr fun x hx => ?_
  simp [overwrite, List.getElem?_range (hx.trans_le h), hx]

/-! ## Readable memory -/

/-- Memory in which only some addresses may be read. -/
abbrev ReadMem := ℕ → Option UInt8

namespace ReadMem

/-- The little-endian 32-bit word at `a`. -/
def load32 (m : ReadMem) (a : ℕ) : Option ℕ := do
  let b0 ← m a
  let b1 ← m (a + 1)
  let b2 ← m (a + 2)
  let b3 ← m (a + 3)
  return b0.toNat + 256 * b1.toNat + 65536 * b2.toNat + 16777216 * b3.toNat

/-- The bytes that can be read from `a` on, at most `n` of them. -/
def bytes (m : ReadMem) : ℕ → ℕ → List UInt8
  | _, 0 => []
  | a, n + 1 =>
    match m a with
    | some c => c :: bytes m (a + 1) n
    | none => []

/-- The string at `a`, read byte by byte up to its terminating zero, in at most `n` reads. -/
def readStr (m : ReadMem) : ℕ → ℕ → Option (List UInt8)
  | _, 0 => none
  | a, n + 1 => do
    let c ← m a
    if c = 0 then return []
    return c :: (← readStr m (a + 1) n)

/-- Memory of which only the bytes of a list, placed at `base`, may be read. -/
def ofList (base : ℕ) (l : List UInt8) : ReadMem := fun a => if base ≤ a then l[a - base]? else none

/-- The bytes stand at `a`, one after another. -/
def Holds (m : ReadMem) : ℕ → List UInt8 → Prop
  | _, [] => True
  | a, c :: l => m a = some c ∧ Holds m (a + 1) l

variable {m : ReadMem} {a n : ℕ} {l l' s : List UInt8}

/-- Two pieces that follow each other in memory. -/
theorem holds_append : m.Holds a (l ++ l') ↔ m.Holds a l ∧ m.Holds (a + l.length) l' := by
  induction l generalizing a with
  | nil => simp [Holds]
  | cons c l ih =>
    rw [List.cons_append, Holds, Holds, ih, List.length_cons, Nat.add_right_comm, Nat.add_assoc,
      and_assoc]

/-- A single byte of a piece. -/
theorem Holds.get (h : m.Holds a l) {k : ℕ} (hk : k < l.length) : m (a + k) = some l[k] := by
  induction l generalizing a k with
  | nil => cases hk
  | cons c l ih =>
    cases k with
    | zero => exact h.1
    | succ k =>
      rw [show a + (k + 1) = a + 1 + k by omega]
      exact ih h.2 (Nat.lt_of_succ_lt_succ hk)

/-- Memory that was made from a list holds it. -/
theorem holds_ofList (base : ℕ) (l : List UInt8) : (ofList base l).Holds base l := by
  -- By induction on the part of the list that is still to come.
  suffices h : ∀ p q : List UInt8, (ofList base (p ++ q)).Holds (base + p.length) q from
    h [] l
  intro p q
  induction q generalizing p with
  | nil => exact trivial
  | cons c q ih =>
    refine ⟨by simp [ofList], ?_⟩
    have hnext := ih (p ++ [c])
    rwa [List.append_assoc, List.singleton_append, List.length_append, ← Nat.add_assoc] at hnext

/-- A stored word is read back. -/
theorem Holds.load32 {v : ℕ} (h : m.Holds a (le32 v)) : m.load32 a = some (v % 2 ^ 32) := by
  obtain ⟨h0, h1, h2, h3, -⟩ := h
  simp only [ReadMem.load32, h0, h1, h2, h3, Option.bind_eq_bind, Option.bind_some,
    UInt8.toNat_ofNat', Option.pure_def, Option.some.injEq]
  omega

/-- The bytes can be read back as a list. -/
theorem Holds.bytes (h : m.Holds a l) : m.bytes a l.length = l := by
  induction l generalizing a with
  | nil => rfl
  | cons c l ih =>
    rw [List.length_cons, ReadMem.bytes, h.1]
    exact congrArg (c :: ·) (ih h.2)

/-- A terminated string can be read back, if the limit allows. -/
theorem Holds.readStr (h : m.Holds a (s ++ 0 :: l)) (hs : 0 ∉ s) (hn : s.length < n) :
    m.readStr a n = some s := by
  induction s generalizing a n with
  | nil =>
    obtain ⟨n, rfl⟩ : ∃ k, n = k + 1 := Nat.exists_eq_add_one.mpr hn
    simp [ReadMem.readStr, h.1]
  | cons c s ih =>
    obtain ⟨n, rfl⟩ : ∃ k, n = k + 1 := Nat.exists_eq_add_one.mpr (Nat.zero_lt_of_lt hn)
    obtain ⟨hc, hs⟩ := not_or.mp (mt List.mem_cons.mpr hs)
    simp [ReadMem.readStr, h.1, Ne.symm hc, ih h.2 hs (Nat.lt_of_succ_lt_succ hn)]

/-- A string can be read where its bytes can, up to a zero byte. -/
theorem exists_readStr {k : ℕ} (hread : ∀ j ≤ k, ∃ c, m (a + j) = some c)
    (hz : m (a + k) = some 0) (hkn : k < n) : ∃ s, m.readStr a n = some s := by
  -- On the distance of the zero byte.
  induction k generalizing a n with
  | zero =>
    obtain ⟨n, rfl⟩ : ∃ j, n = j + 1 := Nat.exists_eq_add_one.mpr hkn
    exact ⟨[], by simp [ReadMem.readStr, show m a = some 0 from hz]⟩
  | succ k ih =>
    obtain ⟨n, rfl⟩ : ∃ j, n = j + 1 := Nat.exists_eq_add_one.mpr (Nat.zero_lt_of_lt hkn)
    have hnext : ∀ j, a + 1 + j = a + (j + 1) := by omega
    obtain ⟨s, hs⟩ := ih (a := a + 1) (n := n) (fun j hj => by
      rw [hnext]
      exact hread (j + 1) (by omega)) (by rw [hnext]; exact hz) (by omega)
    obtain ⟨c, hc⟩ := hread 0 (Nat.zero_le _)
    rw [ReadMem.readStr, show m a = some c from hc, Option.bind_eq_bind, Option.bind_some]
    by_cases h0 : c = 0
    · exact ⟨[], by rw [if_pos h0]; rfl⟩
    · exact ⟨c :: s, by rw [if_neg h0, hs]; rfl⟩

/-- A string that can be read starts with its terminator, or with a byte and the rest of it. -/
theorem readStr_cases (h : m.readStr a n = some s) :
    (m a = some 0 ∧ s = []) ∨
      ∃ c n' s', c ≠ 0 ∧ m a = some c ∧ m.readStr (a + 1) n' = some s' ∧ s = c :: s' := by
  cases n with
  | zero => cases h
  | succ n =>
    obtain ⟨c, hc, h⟩ := Option.bind_eq_some_iff.mp h
    split at h
    next h0 => exact .inl ⟨h0 ▸ hc, (Option.some.inj h).symm⟩
    next h0 =>
      obtain ⟨s', hs', h⟩ := Option.bind_eq_some_iff.mp h
      exact .inr ⟨c, n, s', h0, hc, hs', (Option.some.inj h).symm⟩

/-- Where a string can be read, its first bytes can. -/
theorem zero_mem_bytes_or_length_eq (h : m.readStr a n = some s) (k : ℕ) :
    0 ∈ m.bytes a k ∨ (m.bytes a k).length = k := by
  induction k generalizing a n s with
  | zero => exact .inr rfl
  | succ k ih =>
    rw [ReadMem.bytes]
    obtain ⟨hc, -⟩ | ⟨c, n', s', -, hc, hs', -⟩ := readStr_cases h
    · rw [hc]
      exact .inl List.mem_cons_self
    · rw [hc]
      exact (ih hs').imp (List.mem_cons_of_mem c) (congrArg (· + 1))

/-! ## Windows -/

/-- Memory of which only the `size` bytes from `lo` on may be read. -/
def window (m : Mem) (lo size : ℕ) : ReadMem := fun a =>
  if lo ≤ a ∧ a < lo + size then some (m a) else none

/-- The `n` bytes at `a` lie in the `size` bytes from `lo` on. -/
def Inside (lo size a n : ℕ) : Prop := lo ≤ a ∧ a + n ≤ lo + size

instance (lo size a n : ℕ) : Decidable (Inside lo size a n) :=
  inferInstanceAs (Decidable (_ ∧ _))

variable {mm : Mem} {lo size : ℕ}

theorem window_eq_some (h : Inside lo size a 1) : window mm lo size a = some (mm a) :=
  if_pos ⟨h.1, Nat.lt_of_succ_le h.2⟩

/-- Only addresses inside the window can be read. -/
theorem inside_of_window {c : UInt8} (h : window mm lo size a = some c) :
    Inside lo size a 1 ∧ c = mm a := by
  unfold window at h
  split at h
  next hin => exact ⟨⟨hin.1, hin.2⟩, (Option.some.inj h).symm⟩
  next => cases h

/-- A word inside the window. -/
theorem window_load32 (h : Inside lo size a 4) :
    (window mm lo size).load32 a = some (mm.load32 a) := by
  obtain ⟨hlo, hhi⟩ := h
  rw [ReadMem.load32, window_eq_some ⟨hlo, by omega⟩, window_eq_some ⟨by omega, by omega⟩,
    window_eq_some ⟨by omega, by omega⟩, window_eq_some ⟨by omega, by omega⟩]
  rfl

/-- Only words inside the window can be read. -/
theorem inside_of_window_load32 {v : ℕ} (h : (window mm lo size).load32 a = some v) :
    Inside lo size a 4 ∧ v = mm.load32 a := by
  have hin : Inside lo size a 4 := by
    obtain ⟨b0, h0, h⟩ := Option.bind_eq_some_iff.mp h
    obtain ⟨b1, -, h⟩ := Option.bind_eq_some_iff.mp h
    obtain ⟨b2, -, h⟩ := Option.bind_eq_some_iff.mp h
    obtain ⟨b3, h3, -⟩ := Option.bind_eq_some_iff.mp h
    exact ⟨(inside_of_window h0).1.1, (inside_of_window h3).1.2⟩
  exact ⟨hin, Option.some.inj (h.symm.trans (window_load32 hin))⟩

/-- Where a string can be read in a window, it is the one in memory. -/
theorem cstr_bytes_window (h : (window mm lo size).readStr a n = some s) (k : ℕ) :
    cstr ((window mm lo size).bytes a k) = cstr ((List.range k).map fun j => mm (a + j)) := by
  induction k generalizing a n s with
  | zero => rfl
  | succ k ih =>
    have hmap : (List.range (k + 1)).map (fun j => mm (a + j)) =
        mm a :: (List.range k).map fun j => mm (a + 1 + j) := by
      rw [List.range_succ_eq_map, List.map_cons, List.map_map]
      refine congrArg (mm a :: ·) (List.map_congr_left fun j _ => ?_)
      exact congrArg mm (Nat.add_right_comm a j 1)
    rw [ReadMem.bytes, hmap]
    obtain ⟨hc, -⟩ | ⟨c, n', s', h0, hc, hs', -⟩ := readStr_cases h
    · rw [hc, ← (inside_of_window hc).2, cstr_cons_zero, cstr_cons_zero]
    · obtain ⟨-, rfl⟩ := inside_of_window hc
      rw [hc]
      dsimp only
      rw [cstr_cons_of_ne h0, cstr_cons_of_ne h0, ih hs']

/-- A string can be read if and only if its terminator lies in the window. -/
theorem exists_window_readStr_iff (hn : size < n) :
    (∃ s, (window mm lo size).readStr a n = some s) ↔
      ∃ k, Inside lo size a (k + 1) ∧ mm (a + k) = 0 := by
  constructor
  · -- On the number of reads.
    rintro ⟨s, h⟩
    clear hn
    induction n generalizing a s with
    | zero => cases h
    | succ n ih =>
      obtain ⟨c, hc, h⟩ := Option.bind_eq_some_iff.mp h
      obtain ⟨hin, rfl⟩ := inside_of_window hc
      by_cases h0 : mm a = 0
      · exact ⟨0, hin, h0⟩
      · rw [if_neg h0] at h
        obtain ⟨s', hs', -⟩ := Option.bind_eq_some_iff.mp h
        obtain ⟨k, hk, hz⟩ := ih s' hs'
        exact ⟨k + 1, ⟨hin.1, by have := hk.2; omega⟩, by rw [← hz]; congr 1; omega⟩
  · rintro ⟨k, ⟨hlo, hhi⟩, hz⟩
    have hread : ∀ j ≤ k, window mm lo size (a + j) = some (mm (a + j)) := fun j hj =>
      window_eq_some ⟨by omega, by omega⟩
    exact exists_readStr (fun j hj => ⟨_, hread j hj⟩) (by rw [hread k le_rfl, hz]) (by omega)

end ReadMem

end SysLib
