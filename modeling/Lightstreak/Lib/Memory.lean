import Mathlib.Logic.Function.Basic
import Lightstreak.Lib.Word

/-!
# Byte-addressed memory

Memory is a total map from addresses to bytes, with little-endian 32-bit accesses. The two
facts every later proof uses are `load32_store32` (a word is read back) and the frame lemmas
`store32_apply_of_outside` and `load32_store32_of_disjoint` (nothing else changes).

`fill` is the byte loop of C code: one store an iteration, in index order.
-/

namespace SysLib

/-- Memory: one byte at every address. -/
abbrev Mem := ℕ → UInt8

namespace Mem

/-- Store one byte. -/
def store8 (m : Mem) (a : ℕ) (b : UInt8) : Mem := Function.update m a b

/-- The little-endian 32-bit word at `a`. -/
def load32 (m : Mem) (a : ℕ) : ℕ :=
  (m a).toNat + 256 * (m (a + 1)).toNat + 65536 * (m (a + 2)).toNat +
    16777216 * (m (a + 3)).toNat

/-- Store the low 32 bits of `v` at `a`, little-endian. -/
def store32 (m : Mem) (a v : ℕ) : Mem :=
  (((m.store8 a (UInt8.ofNat v)).store8 (a + 1) (UInt8.ofNat (v / 256))).store8 (a + 2)
    (UInt8.ofNat (v / 65536))).store8 (a + 3) (UInt8.ofNat (v / 16777216))

variable {m m' : Mem} {a b n v : ℕ}

@[simp]
theorem store8_same (m : Mem) (a : ℕ) (x : UInt8) : m.store8 a x a = x := by
  simp [store8]

theorem store8_of_ne (m : Mem) (x : UInt8) (h : b ≠ a) : m.store8 a x b = m b := by
  simp [store8, h]

/-- A word has 32 bits. -/
theorem load32_lt (m : Mem) (a : ℕ) : m.load32 a < 2 ^ 32 := by
  have h0 := (m a).toNat_lt
  have h1 := (m (a + 1)).toNat_lt
  have h2 := (m (a + 2)).toNat_lt
  have h3 := (m (a + 3)).toNat_lt
  unfold load32
  omega

/-- The lowest byte of a word comes first. -/
theorem load32_mod_256 (m : Mem) (a : ℕ) : m.load32 a % 256 = (m a).toNat := by
  have h0 := (m a).toNat_lt
  unfold load32
  omega

/-- A word depends only on its four bytes. -/
theorem load32_congr (h : ∀ x, a ≤ x → x < a + 4 → m' x = m x) : m'.load32 a = m.load32 a := by
  unfold load32
  rw [h a (by omega) (by omega), h (a + 1) (by omega) (by omega),
    h (a + 2) (by omega) (by omega), h (a + 3) (by omega) (by omega)]

/-- A 32-bit store leaves every other byte alone. -/
theorem store32_apply_of_outside (m : Mem) (v : ℕ) (h : b < a ∨ a + 4 ≤ b) :
    m.store32 a v b = m b := by
  unfold store32
  rw [store8_of_ne _ _ (by omega), store8_of_ne _ _ (by omega), store8_of_ne _ _ (by omega),
    store8_of_ne _ _ (by omega)]

/-- What a 32-bit store leaves at an address depends on the byte that was there, if on anything. -/
theorem store32_congr (v : ℕ) (h : m' b = m b) : m'.store32 a v b = m.store32 a v b := by
  unfold store32 store8
  simp only [Function.update_apply, h]

/-- A stored word is read back, reduced to 32 bits. -/
theorem load32_store32 (m : Mem) (a v : ℕ) : (m.store32 a v).load32 a = v % 2 ^ 32 := by
  -- The four stores are to different addresses, the lowest byte first.
  have e0 : m.store32 a v a = UInt8.ofNat v := by
    unfold store32
    rw [store8_of_ne _ _ (by omega), store8_of_ne _ _ (by omega), store8_of_ne _ _ (by omega),
      store8_same]
  have e1 : m.store32 a v (a + 1) = UInt8.ofNat (v / 256) := by
    unfold store32
    rw [store8_of_ne _ _ (by omega), store8_of_ne _ _ (by omega), store8_same]
  have e2 : m.store32 a v (a + 2) = UInt8.ofNat (v / 65536) := by
    unfold store32
    rw [store8_of_ne _ _ (by omega), store8_same]
  have e3 : m.store32 a v (a + 3) = UInt8.ofNat (v / 16777216) := by
    unfold store32
    rw [store8_same]
  unfold load32
  rw [e0, e1, e2, e3]
  simp only [UInt8.toNat_ofNat']
  omega

/-- A 32-bit value comes back as it was stored. -/
theorem load32_store32_of_lt (m : Mem) (a : ℕ) (h : v < 2 ^ 32) :
    (m.store32 a v).load32 a = v := by
  rw [load32_store32, Nat.mod_eq_of_lt h]

/-- A 32-bit store does not change a word at a disjoint address. -/
theorem load32_store32_of_disjoint (m : Mem) (v : ℕ) (h : b + 4 ≤ a ∨ a + 4 ≤ b) :
    (m.store32 a v).load32 b = m.load32 b :=
  load32_congr fun x _ _ => store32_apply_of_outside m v (by omega)

/-- A byte store does not change a word it lies outside of. -/
theorem load32_store8_of_outside (m : Mem) (x : UInt8) (h : a < b ∨ b + 4 ≤ a) :
    (m.store8 a x).load32 b = m.load32 b :=
  load32_congr fun y _ _ => store8_of_ne m x (by omega)

/-- The little-endian 16-bit word at `a`. -/
def load16 (m : Mem) (a : ℕ) : ℕ := (m a).toNat + 256 * (m (a + 1)).toNat

/-- Store the low 16 bits of `v` at `a`, little-endian. -/
def store16 (m : Mem) (a v : ℕ) : Mem :=
  (m.store8 a (UInt8.ofNat v)).store8 (a + 1) (UInt8.ofNat (v / 256))

/-- A half word comes back without its upper bits. -/
theorem load16_store16 (m : Mem) (a v : ℕ) : (m.store16 a v).load16 a = v % 2 ^ 16 := by
  rw [load16, store16, store8_same, store8_of_ne _ _ (by omega), store8_same]
  simp only [UInt8.toNat_ofNat']
  omega

/-- Memory with these words at `a`, and zero elsewhere. -/
def ofWords (a : ℕ) (ws : List ℕ) : Mem := fun x =>
  if a ≤ x then UInt8.ofNat (ws.getD ((x - a) / 4) 0 / 256 ^ ((x - a) % 4)) else 0

/-- The words of a memory that was made from them. -/
theorem load32_ofWords (a : ℕ) (ws : List ℕ) (i : ℕ) :
    (ofWords a ws).load32 (a + 4 * i) = ws.getD i 0 % 2 ^ 32 := by
  have hbyte : ∀ k < 4, ofWords a ws (a + 4 * i + k) = UInt8.ofNat (ws.getD i 0 / 256 ^ k) :=
    fun k hk => by
      have hdiv : (a + 4 * i + k - a) / 4 = i := by omega
      have hmod : (a + 4 * i + k - a) % 4 = k := by omega
      rw [ofWords, if_pos (by omega), hdiv, hmod]
  have h0 := hbyte 0 (by decide)
  rw [Nat.add_zero] at h0
  rw [load32, h0, hbyte 1 (by decide), hbyte 2 (by decide), hbyte 3 (by decide)]
  simp only [UInt8.toNat_ofNat']
  omega

/-! ## Words on a stack -/

/-- The words stand at `a`, one after another. -/
def WordsAt (m : Mem) : ℕ → List ℕ → Prop
  | _, [] => True
  | a, w :: ws => m.load32 a = w ∧ WordsAt m (a + 4) ws

/-- Words do not depend on memory elsewhere. -/
theorem WordsAt.congr {ws : List ℕ} (h : WordsAt m a ws)
    (heq : ∀ x, a ≤ x → x < a + 4 * ws.length → m' x = m x) : WordsAt m' a ws := by
  induction ws generalizing a with
  | nil => exact trivial
  | cons w ws ih =>
    simp only [List.length_cons] at heq
    exact ⟨(load32_congr fun x h₁ h₂ => heq x h₁ (by omega)).trans h.1,
      ih h.2 fun x h₁ h₂ => heq x (by omega) (by omega)⟩

/-- Push words, the first one first: the stack grows downwards from `sp`. -/
def pushWords (m : Mem) (sp : ℕ) : List ℕ → Mem × ℕ
  | [] => (m, sp)
  | w :: ws => pushWords (m.store32 (sub32 sp 4) w) (sub32 sp 4) ws

/-- Pushed words stand on top of what was on the stack, the last one first. -/
theorem pushWords_spec {sp : ℕ} {ws old : List ℕ} (hold : WordsAt m sp old)
    (hws : ∀ w ∈ ws, w < 2 ^ 32) (hlen : 4 * ws.length ≤ sp) (hsp : sp < 2 ^ 32) :
    (pushWords m sp ws).2 = sp - 4 * ws.length ∧
      WordsAt (pushWords m sp ws).1 (sp - 4 * ws.length) (ws.reverse ++ old) ∧
      ∀ x, x < sp - 4 * ws.length ∨ sp ≤ x → (pushWords m sp ws).1 x = m x := by
  induction ws generalizing m sp old with
  | nil => exact ⟨rfl, hold, fun _ _ => rfl⟩
  | cons w ws ih =>
    -- `w` is pushed on the old words, and the rest of `ws` on top of it.
    simp only [List.length_cons] at hlen ⊢
    have hsub : sub32 sp 4 = sp - 4 := sub32_eq hsp (by omega)
    have hnew : WordsAt (m.store32 (sp - 4) w) (sp - 4) (w :: old) := by
      refine ⟨load32_store32_of_lt m _ (hws w (by simp)), ?_⟩
      rw [Nat.sub_add_cancel (by omega)]
      exact hold.congr fun x h₁ _ => store32_apply_of_outside m w (by omega)
    obtain ⟨hend, hwords, hframe⟩ := ih hnew (fun v hv => hws v (by simp [hv]))
      (by omega) (by omega)
    rw [show sp - 4 - 4 * ws.length = sp - 4 * (ws.length + 1) by omega] at hend hwords hframe
    refine ⟨?_, ?_, fun x hx => ?_⟩
    · rw [pushWords, hsub, hend]
    · rw [pushWords, hsub, List.reverse_cons, List.append_assoc]
      exact hwords
    · rw [pushWords, hsub, hframe x (by omega)]
      exact store32_apply_of_outside m w (by omega)

/-! ## Byte loops -/

/-- Write `x` to the `n` bytes at `a`, in order. -/
def fill (m : Mem) (a : ℕ) (x : UInt8) : ℕ → Mem
  | 0 => m
  | n + 1 => (m.fill a x n).store8 (a + n) x

/-- Filling, byte by byte. -/
theorem fill_apply (m : Mem) (a : ℕ) (x : UInt8) (n b : ℕ) :
    m.fill a x n b = if a ≤ b ∧ b < a + n then x else m b := by
  induction n with
  | zero =>
    rw [if_neg (by omega)]
    rfl
  | succ n ih =>
    rw [fill]
    by_cases hb : b = a + n
    · subst hb
      rw [store8_same, if_pos (by omega)]
    · rw [store8_of_ne _ _ hb, ih]
      by_cases hin : a ≤ b ∧ b < a + n
      · rw [if_pos hin, if_pos (by omega)]
      · rw [if_neg hin, if_neg (by omega)]

theorem fill_of_outside (m : Mem) (x : UInt8) (h : b < a ∨ a + n ≤ b) :
    m.fill a x n b = m b := by
  rw [fill_apply, if_neg (by omega)]

/-- Write the bytes of a list to `a`, in order. -/
def storeBytes (m : Mem) : ℕ → List UInt8 → Mem
  | _, [] => m
  | a, c :: l => (m.store8 a c).storeBytes (a + 1) l

/-- Storing bytes leaves what is outside. -/
theorem storeBytes_of_outside (m : Mem) {l : List UInt8} (h : b < a ∨ a + l.length ≤ b) :
    m.storeBytes a l b = m b := by
  induction l generalizing m a with
  | nil => rfl
  | cons c l ih =>
    rw [List.length_cons] at h
    rw [storeBytes, ih _ (by omega), store8_of_ne _ _ (by omega)]

/-- The bytes that were stored. -/
theorem storeBytes_getElem (m : Mem) (a : ℕ) {l : List UInt8} {i : ℕ} (h : i < l.length) :
    m.storeBytes a l (a + i) = l[i] := by
  induction l generalizing m a i with
  | nil => cases h
  | cons c l ih =>
    rw [storeBytes]
    cases i with
    | zero => rw [storeBytes_of_outside _ (by omega), Nat.add_zero, store8_same]; rfl
    | succ i =>
      rw [show a + (i + 1) = a + 1 + i by omega, ih _ _ (Nat.lt_of_succ_lt_succ h)]
      rfl

/-- Copy the `n` bytes at `src` to `dst`, in order. -/
def copy (m : Mem) (dst src : ℕ) : ℕ → Mem
  | 0 => m
  | n + 1 => (m.copy dst src n).store8 (dst + n) (m.copy dst src n (src + n))

/-- Copying leaves what is outside. -/
theorem copy_of_outside (m : Mem) (src : ℕ) (h : b < a ∨ a + n ≤ b) :
    m.copy a src n b = m b := by
  induction n with
  | zero => rfl
  | succ n ih => rw [copy, store8_of_ne _ _ (by omega), ih (by omega)]

/-- A copy between ranges that do not overlap. -/
theorem copy_apply (m : Mem) {dst src i : ℕ} (hapart : dst + n ≤ src ∨ src + n ≤ dst)
    (hi : i < n) : m.copy dst src n (dst + i) = m (src + i) := by
  induction n with
  | zero => cases hi
  | succ n ih =>
    rw [copy]
    by_cases hlast : i = n
    · rw [hlast, store8_same, copy_of_outside _ _ (by omega)]
    · rw [store8_of_ne _ _ (by omega), ih (by omega) (by omega)]

end Mem

end SysLib
