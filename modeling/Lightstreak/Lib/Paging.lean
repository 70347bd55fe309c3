import Lightstreak.Lib.Memory

/-!
# Two-level paging with 4 KB frames

Directories and tables are frames of 1024 little-endian words in byte memory. `word` and
`setWord` access one entry; `word_setWord` says that entries of aligned frames never overlap, so
that reasoning about tables needs no byte addresses. `fillWords` and `copyWords` are the loops
that initialise a frame.

`walk` is the translation the processor performs: a directory entry, then a table entry, each
with its present, writable and user bit. An access right holds when both entries grant it. The
accessed and dirty bits, which the processor sets by itself, are not modelled.
-/

namespace SysLib.Paging

/-- A frame of tables: aligned, below 4 GB. -/
def IsFrame (t : ℕ) : Prop := 4096 ∣ t ∧ t < 2 ^ 32

/-- Entry `i` of the table at `t`. -/
def word (m : Mem) (t i : ℕ) : ℕ := m.load32 (t + 4 * i)

/-- Write entry `i` of the table at `t`. -/
def setWord (m : Mem) (t i v : ℕ) : Mem := m.store32 (t + 4 * i) v

/-- Write `f i` to the entries `i < n`, in order. -/
def fillWords (m : Mem) (t : ℕ) (f : ℕ → ℕ) : ℕ → Mem
  | 0 => m
  | n + 1 => setWord (fillWords m t f n) t n (f n)

/-- Copy the first `n` entries of `src` to `dst`, one by one. -/
def copyWords (m : Mem) (dst src : ℕ) : ℕ → Mem
  | 0 => m
  | n + 1 => setWord (copyWords m dst src n) dst n (word (copyWords m dst src n) src n)

variable {m : Mem} {t t' src i j n v : ℕ} {f : ℕ → ℕ}

theorem word_lt (m : Mem) (t i : ℕ) : word m t i < 2 ^ 32 := m.load32_lt _

/-- Entries of frames do not overlap. -/
theorem word_setWord (ht : 4096 ∣ t) (ht' : 4096 ∣ t') (hi : i < 1024) (hj : j < 1024)
    (hv : v < 2 ^ 32) :
    word (setWord m t i v) t' j = if t' = t ∧ j = i then v else word m t' j := by
  unfold word setWord
  split
  next h =>
    obtain ⟨rfl, rfl⟩ := h
    exact Mem.load32_store32_of_lt m _ hv
  next h =>
    refine Mem.load32_store32_of_disjoint m v ?_
    -- Different frames are 4096 bytes apart, different entries of one frame 4 bytes.
    obtain ⟨a, rfl⟩ := ht
    obtain ⟨b, rfl⟩ := ht'
    omega

/-- A loop that has written the entries below `n` writes entry `n`. -/
theorem ite_lt_succ {p : Prop} [Decidable p] {w : ℕ} :
    (if p ∧ j = n then f n else if p ∧ j < n then f j else w) =
      if p ∧ j < n + 1 then f j else w := by
  by_cases hp : p
  · rcases Nat.lt_trichotomy j n with h | h | h
    · rw [if_neg (by omega), if_pos ⟨hp, h⟩, if_pos ⟨hp, by omega⟩]
    · rw [if_pos ⟨hp, h⟩, if_pos ⟨hp, by omega⟩, h]
    · rw [if_neg (by omega), if_neg (by omega), if_neg (by omega)]
  · simp [hp]

/-- The entries of a table after it was filled. -/
theorem word_fillWords (ht : 4096 ∣ t) (ht' : 4096 ∣ t') (hn : n ≤ 1024) (hj : j < 1024)
    (hf : ∀ k < n, f k < 2 ^ 32) :
    word (fillWords m t f n) t' j = if t' = t ∧ j < n then f j else word m t' j := by
  induction n with
  | zero => simp [fillWords]
  | succ n ih =>
    rw [fillWords, word_setWord ht ht' (by omega) hj (hf n (by omega)),
      ih (by omega) fun k hk => hf k (by omega)]
    exact ite_lt_succ

/-- Bytes outside the entries that are written keep their values. -/
theorem fillWords_of_outside {a : ℕ} (h : a < t ∨ t + 4 * n ≤ a) : fillWords m t f n a = m a := by
  induction n with
  | zero => rfl
  | succ n ih =>
    rw [fillWords, setWord, Mem.store32_apply_of_outside _ _ (by omega), ih (by omega)]

/-- Copying a table writes to the target only. -/
theorem copyWords_of_outside {a : ℕ} (h : a < t ∨ t + 4 * n ≤ a) :
    copyWords m t src n a = m a := by
  induction n with
  | zero => rfl
  | succ n ih =>
    rw [copyWords, setWord, Mem.store32_apply_of_outside _ _ (by omega), ih (by omega)]

/-- Writing an entry writes to its table only. -/
theorem setWord_of_outside {a : ℕ} (hi : i < 1024) (h : a < t ∨ t + 4096 ≤ a) :
    setWord m t i v a = m a :=
  Mem.store32_apply_of_outside _ _ (by omega)

/-- The entries of a table after it was copied. -/
theorem word_copyWords (ht : 4096 ∣ t) (ht' : 4096 ∣ t') (hs : 4096 ∣ src)
    (hn : n ≤ 1024) (hj : j < 1024) :
    word (copyWords m t src n) t' j = if t' = t ∧ j < n then word m src j else word m t' j := by
  induction n generalizing t' j with
  | zero => simp [copyWords]
  | succ n ih =>
    rw [copyWords, word_setWord ht ht' (by omega) hj (word_lt _ _ _), ih ht' (by omega) hj,
      -- The entry that is copied has not been overwritten, even if source and target are the same.
      ih hs (by omega) (by omega), if_neg (show ¬(src = t ∧ n < n) by omega)]
    exact ite_lt_succ

/-! ## What the accesses depend on -/

section Congr

variable {m' : Mem} {a : ℕ}

/-- Entries do not depend on memory outside their table. -/
theorem word_congr (hi : i < 1024) (h : ∀ x, t ≤ x → x < t + 4096 → m' x = m x) :
    word m' t i = word m t i :=
  Mem.load32_congr fun x h₁ h₂ => h x (by omega) (by omega)

/-- Filling acts on every byte by itself. -/
theorem fillWords_congr (h : m' a = m a) : fillWords m' t f n a = fillWords m t f n a := by
  induction n with
  | zero => exact h
  | succ n ih => exact Mem.store32_congr _ ih

/-- Memories that agree on the source of a copy agree after it wherever they did before. -/
theorem copyWords_congr (P : ℕ → Prop) (hn : n ≤ 1024)
    (hsrc : ∀ x, src ≤ x → x < src + 4096 → P x) (h : ∀ x, P x → m' x = m x) :
    ∀ x, P x → copyWords m' t src n x = copyWords m t src n x := by
  induction n with
  | zero => exact h
  | succ n ih =>
    have hprev := ih (by omega)
    have hword := word_congr (show n < 1024 by omega) fun x h₁ h₂ => hprev x (hsrc x h₁ h₂)
    intro x hx
    rw [copyWords, copyWords, hword]
    exact Mem.store32_congr _ (hprev x hx)

end Congr

/-! ## Entries -/

/-- The bits of an entry that hold a frame address. -/
def frameMask : ℕ := 0xFFFFF000

/-- The frame address of an entry built from a masked address and flag bits. -/
theorem entry_and_frameMask (p g : ℕ) :
    ((p &&& frameMask) ||| (g &&& 0xFFF) ||| 1) &&& frameMask = p &&& frameMask := by
  rw [Nat.and_or_distrib_right, Nat.and_or_distrib_right, Nat.and_assoc, Nat.and_assoc,
    Nat.and_self, show 0xFFF &&& frameMask = 0 by decide, show 1 &&& frameMask = 0 by decide,
    Nat.and_zero, Nat.or_zero, Nat.or_zero]

/-- The flag bits of such an entry. -/
theorem entry_and_flagMask (p g : ℕ) :
    ((p &&& frameMask) ||| (g &&& 0xFFF) ||| 1) &&& 0xFFF = (g &&& 0xFFF) ||| 1 := by
  rw [Nat.and_or_distrib_right, Nat.and_or_distrib_right, Nat.and_assoc, Nat.and_assoc,
    Nat.and_self, show frameMask &&& 0xFFF = 0 by decide, Nat.and_zero, Nat.zero_or]
  rfl

theorem entry_lt (p g : ℕ) : (p &&& frameMask) ||| (g &&& 0xFFF) ||| 1 < 2 ^ 32 := by
  refine Nat.or_lt_two_pow (Nat.or_lt_two_pow ?_ ?_) (by decide)
  · exact lt_of_le_of_lt Nat.and_le_right (by decide)
  · exact lt_of_le_of_lt Nat.and_le_right (by decide)

/-- Flag bits below 12 or-ed into a frame address leave it readable. -/
theorem frame_or_and_frameMask (ht : IsFrame t) (hv : v < 4096) :
    (t ||| v) &&& frameMask = t := by
  obtain ⟨⟨a, rfl⟩, hlt⟩ := ht
  rw [show 4096 * a ||| v = 4096 * a + v by rw [Nat.mul_comm]; exact or_low_bits (k := 12) hv,
    frameMask, and_mask_page (by omega)]
  omega

theorem frame_or_lt (ht : IsFrame t) (hv : v < 4096) : t ||| v < 2 ^ 32 :=
  Nat.or_lt_two_pow ht.2 (by omega)

/-- The low bits of a frame address with flags are the flags. -/
theorem testBit_frame_or (ht : IsFrame t) (hi : i < 12) : (t ||| v).testBit i = v.testBit i := by
  obtain ⟨⟨a, rfl⟩, -⟩ := ht
  rw [Nat.testBit_or, show 4096 * a = 2 ^ 12 * a from rfl, Nat.testBit_two_pow_mul]
  simp [show ¬12 ≤ i by omega]

/-! ## The page walk -/

/-- What a walk yields: the physical address, the flags of the table entry, and the rights. -/
structure Translation where
  /-- The physical address. -/
  phys : ℕ
  /-- The low bits of the table entry. -/
  flags : ℕ
  /-- User mode has access. -/
  user : Bool
  /-- The page can be written. -/
  writable : Bool
deriving DecidableEq, Repr

/-- The table entry for page number `page`, with the directory entry that leads to it. -/
def pteOf (m : Mem) (dir page : ℕ) : Option (ℕ × ℕ) :=
  let pde := word m dir (page / 1024)
  if pde.testBit 0 then
    let pte := word m (pde &&& frameMask) (page % 1024)
    if pte.testBit 0 then some (pde, pte) else none
  else none

/-- The translation of virtual address `va` by the directory at `dir`. -/
def walk (m : Mem) (dir va : ℕ) : Option Translation :=
  (pteOf m dir (va / 4096)).map fun e =>
    { phys := (e.2 &&& frameMask) ||| (va &&& 0xFFF)
      flags := e.2 &&& 0xFFF
      user := e.1.testBit 2 && e.2.testBit 2
      writable := e.1.testBit 1 && e.2.testBit 1 }

end SysLib.Paging
