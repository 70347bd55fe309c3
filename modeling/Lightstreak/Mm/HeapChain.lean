import Lightstreak.Lib.FirstFit
import Lightstreak.Mm.Heap

/-!
# The heap's block chain refines first-fit allocation

The headers in memory spell out a list of blocks (`Chain`), and on that list the C functions
act as the abstract allocator of `SysLib.FirstFit`:

* `heapInv_heapInit`: `heap_init` establishes the invariant `HeapInv` with one free block;
* `kmalloc_spec`: `kmalloc` returns, and takes the block that `FirstFit.alloc` takes;
* `kzalloc_spec`: the zeroing loop stays inside the payload it was handed;
* `kfree_spec`: `kfree` of a block in use is `FirstFit.release`.

Each operation rewrites bytes of one block only, and the tiling puts every other header
outside those bytes; this is the frame argument behind all three (`Chain.frame`).
-/

namespace Lightstreak

open SysLib SysLib.FirstFit

/-! ## Chains of headers -/

/-- The header at `b.addr` holds the canary, the size and the used flag of `b`. -/
structure HdrAt (m : Mem) (b : Block) : Prop where
  /-- The field `magic`. -/
  magic : hdrMagic m b.addr = heapMagic
  /-- The field `size`. -/
  size : hdrLen m b.addr = b.size
  /-- The field `used`. -/
  used : hdrUsed m b.addr = if b.used then 1 else 0

/-- Following `next` from `p` visits the blocks `bs` and arrives at `q`. -/
def Chain (m : Mem) : ℕ → List Block → ℕ → Prop
  | p, [], q => p = q
  | p, b :: bs, q => p ≠ 0 ∧ b.addr = p ∧ HdrAt m b ∧ Chain m (hdrNext m p) bs q

variable {m m' : Mem} {p q : ℕ} {b : Block} {bs cs : List Block}

/-- A chain of two lists is a chain of each, one behind the other. -/
theorem chain_append : Chain m p (bs ++ cs) q ↔ ∃ r, Chain m p bs r ∧ Chain m r cs q := by
  induction bs generalizing p with
  | nil => simp [Chain]
  | cons b bs ih =>
    simp only [List.cons_append, Chain, ih]
    constructor
    · rintro ⟨hp, hb, hh, r, hbs, hcs⟩
      exact ⟨r, ⟨hp, hb, hh, hbs⟩, hcs⟩
    · rintro ⟨r, ⟨hp, hb, hh, hbs⟩, hcs⟩
      exact ⟨hp, hb, hh, r, hbs, hcs⟩

/-- A header is made of the sixteen bytes at its address. -/
theorem HdrAt.frame (h : HdrAt m b) (hm : ∀ x, b.addr ≤ x → x < b.addr + 16 → m' x = m x) :
    HdrAt m' b := by
  refine ⟨?_, ?_, ?_⟩
  · rw [← h.magic]
    exact Mem.load32_congr fun x h1 h2 => hm x h1 (by omega)
  · rw [← h.size]
    exact Mem.load32_congr fun x h1 h2 => hm x (by omega) (by omega)
  · rw [← h.used]
    exact hm _ (by omega) (by omega)

theorem hdrNext_frame {a : ℕ} (hm : ∀ x, a ≤ x → x < a + 16 → m' x = m x) :
    hdrNext m' a = hdrNext m a :=
  Mem.load32_congr fun x h1 h2 => hm x (by omega) (by omega)

/-- A chain survives every change of memory outside its headers. -/
theorem Chain.frame (h : Chain m p bs q)
    (hm : ∀ b ∈ bs, ∀ x, b.addr ≤ x → x < b.addr + 16 → m' x = m x) : Chain m' p bs q := by
  induction bs generalizing p with
  | nil => exact h
  | cons b bs ih =>
    obtain ⟨hp, rfl, hb, hrest⟩ := h
    have hbm := hm b (by simp)
    refine ⟨hp, rfl, hb.frame hbm, ?_⟩
    rw [hdrNext_frame hbm]
    exact ih hrest fun c hc => hm c (by simp [hc])

/-- In a chain that tiles up to `e`, every link is the address behind the block; only the last
one, whose block ends at `e`, is `NULL`. -/
theorem Chain.next_eq {a e : ℕ} (h : Chain m p bs 0) (ht : Tiles hdrSize a bs e) (hb : b ∈ bs) :
    hdrNext m b.addr =
      if b.addr + hdrSize + b.size = e then 0 else b.addr + hdrSize + b.size := by
  induction bs generalizing p a with
  | nil => cases hb
  | cons c bs ih =>
    obtain ⟨-, rfl, -, hrest⟩ := h
    obtain ⟨rfl, trest⟩ := ht
    rcases List.mem_cons.mp hb with rfl | hb
    · cases bs with
      | nil => exact (show hdrNext m b.addr = 0 from hrest).trans (if_pos trest).symm
      | cons d bs =>
        have hlt := trest.2.le
        rw [if_neg (by simp only [hdrSize] at *; omega), ← trest.1]
        exact hrest.2.1.symm
    · exact ih hrest trest hb

/-- Rewriting the bytes `[lo, up)` keeps the chain before and behind them: the tiling puts
every other header outside. -/
theorem Chain.splice {a e lo up r : ℕ} {pre mid post : List Block}
    (hpre : Chain m p pre lo) (tpre : Tiles hdrSize a pre lo)
    (hpost : Chain m r post q) (tpost : Tiles hdrSize up post e)
    (hmid : Chain m' lo mid r) (hout : ∀ x, x < lo ∨ up ≤ x → m' x = m x) :
    Chain m' p (pre ++ mid ++ post) q := by
  refine chain_append.mpr ⟨r, chain_append.mpr ⟨lo, ?_, hmid⟩, ?_⟩
  · refine hpre.frame fun c hc x h1 h2 => hout x (Or.inl ?_)
    have hcb := (tpre.bounds hc).2
    simp only [hdrSize] at hcb
    omega
  · refine hpost.frame fun c hc x h1 h2 => hout x (Or.inr ?_)
    have hcb := (tpost.bounds hc).1
    omega

/-- The headers of a chain determine its blocks. -/
theorem Chain.unique (h : Chain m p bs 0) (h' : Chain m p cs 0) : bs = cs := by
  induction bs generalizing p cs with
  | nil =>
    cases cs with
    | nil => rfl
    | cons c cs => exact absurd h h'.1
  | cons b bs ih =>
    cases cs with
    | nil => exact absurd h' h.1
    | cons c cs =>
      -- Both blocks are what the header at `p` says.
      obtain ⟨-, hba, hb, hbs⟩ := h
      obtain ⟨-, hca, hc, hcs⟩ := h'
      have haddr : b.addr = c.addr := hba.trans hca.symm
      have hsize : b.size = c.size := by rw [← hb.size, ← hc.size, haddr]
      have hused : b.used = c.used := by
        have := hb.used.symm.trans ((congrArg (hdrUsed m) haddr).trans hc.used)
        revert this
        cases b.used <;> cases c.used <;> simp
      have hbc : b = c := by
        cases b
        cases c
        simp_all
      rw [hbc, ih hbs hcs]

/-! ## The invariant -/

/-- The representation invariant of the heap, with `bs` the blocks of its chain. -/
structure HeapInv (h : HeapState) (bs : List Block) : Prop where
  /-- `NULL` is not a heap address. -/
  start_pos : 0 < h.heapStartAddr
  /-- The heap starts at a multiple of four. -/
  start_aligned : 4 ∣ h.heapStartAddr
  /-- The heap ends in the address space. -/
  end_lt : h.heapEndAddr < 2 ^ 32
  /-- The chain from `heap_head` visits `bs` and ends in `NULL`. -/
  chain : Chain h.mem h.heapHead bs 0
  /-- The blocks tile the heap. -/
  tiles : Tiles hdrSize h.heapStartAddr bs h.heapEndAddr
  /-- All sizes are multiples of four. -/
  aligned : ∀ b ∈ bs, 4 ∣ b.size
  /-- `heap_used` counts the bytes in use. -/
  used : h.heapUsed = usedBytes bs
  /-- `kmalloc` has never found a bad canary. -/
  no_corruption : ∀ blk, HeapMsg.corruption blk ∉ h.log

namespace HeapInv

variable {h : HeapState} {pre post : List Block} {n : ℕ}

/-- A block is inside the heap. -/
theorem block_bounds (hi : HeapInv h bs) (hb : b ∈ bs) :
    h.heapStartAddr ≤ b.addr ∧ b.addr + 16 + b.size ≤ h.heapEndAddr :=
  hi.tiles.bounds hb

/-- The chain and the tiling around one block. -/
theorem split (hi : HeapInv h (pre ++ b :: post)) :
    0 < b.addr ∧ HdrAt h.mem b ∧ Chain h.mem h.heapHead pre b.addr ∧
      Chain h.mem (hdrNext h.mem b.addr) post 0 := by
  obtain ⟨-, hpre, hb0, rfl, hb, hpost⟩ := chain_append.mp hi.chain
  exact ⟨by omega, hb, hpre, hpost⟩

/-- The number of blocks is bounded by the address space. -/
theorem length_lt (hi : HeapInv h bs) : bs.length < walkFuel := by
  have := hi.tiles.length_le
  have := hi.end_lt
  simp only [hdrSize, walkFuel] at *
  omega

end HeapInv

/-! ## `heap_init` -/

/-- `heap_init` makes a heap of one free block. -/
theorem heapInv_heapInit (mem : Mem) {start size : ℕ} (hpos : 0 < start) (hstart : 4 ∣ start)
    (hsize : 4 ∣ size) (hmin : 16 ≤ size) (hend : start + size < 2 ^ 32) :
    HeapInv (heapInit mem start size) [⟨start, size - 16, false⟩] := by
  have hlen : sub32 size hdrSize = size - 16 := sub32_eq (by omega) hmin
  -- The four header fields are four stores; each is read back past the later ones.
  refine ⟨hpos, hstart, ?_, ⟨by simp [heapInit]; omega, rfl, ⟨?_, ?_, ?_⟩, ?_⟩, ?_, ?_, ?_, ?_⟩
  · simpa only [heapInit, add32_eq hend] using hend
  · simp (disch := omega) only [heapInit, hdrMagic, setMagic, setLen, setUsed, setNext,
      Mem.load32_store32_of_disjoint, Mem.load32_store8_of_outside, Mem.load32_store32]
    rfl
  · simp (disch := omega) only [heapInit, hdrLen, setMagic, setLen, setUsed, setNext,
      Mem.load32_store32_of_disjoint, Mem.load32_store8_of_outside, Mem.load32_store32, hlen]
    omega
  · simp (disch := omega) only [heapInit, hdrUsed, setMagic, setLen, setUsed, setNext,
      Mem.store32_apply_of_outside, Mem.store8_same]
    simp
  · show hdrNext _ _ = 0
    simp only [heapInit, hdrNext, setNext, Mem.load32_store32]
    rfl
  · simp only [heapInit, Tiles, hdrSize, add32_eq hend, true_and]
    omega
  · simp only [List.mem_singleton, forall_eq]
    omega
  · simp [heapInit]
  · simp [heapInit]

/-! ## `kmalloc` -/

section Kmalloc

variable {h : HeapState} {pre post : List Block} {n : ℕ}

/-- One turn of the search at a block with an intact header. -/
theorem kmallocTurn_of_hdrAt (hb0 : b.addr ≠ 0) (hb : HdrAt h.mem b) :
    kmallocTurn h n b.addr =
      if Fits n b then .inr (kmallocTake h n b.addr) else .inl (hdrNext h.mem b.addr) := by
  have hfree : hdrUsed h.mem b.addr = 0 ↔ b.used = false := by
    rw [hb.used]
    cases b.used <;> simp
  simp only [kmallocTurn, if_neg hb0, hb.magic, ne_eq, not_true_eq_false, ↓reduceIte, hfree,
    hb.size, Fits]

/-- The search walks past blocks that do not fit and stops at the first that does. -/
theorem loop_kmallocTurn_of_fits (hc : Chain h.mem p (pre ++ b :: post) 0)
    (hpre : ∀ c ∈ pre, ¬Fits n c) (hb : Fits n b) {fuel : ℕ} (hfuel : pre.length < fuel) :
    loop (kmallocTurn h n) fuel p = some (kmallocTake h n b.addr) := by
  -- On the blocks that are passed by, each of which takes one turn.
  induction pre generalizing p fuel with
  | nil =>
    obtain ⟨hp, rfl, hh, -⟩ := hc
    obtain ⟨fuel, rfl⟩ : ∃ k, fuel = k + 1 := ⟨fuel - 1, by omega⟩
    exact loop_of_inr (by rw [kmallocTurn_of_hdrAt hp hh, if_pos hb]) _
  | cons c pre ih =>
    obtain ⟨hp, rfl, hh, hrest⟩ := hc
    obtain ⟨fuel, rfl⟩ : ∃ k, fuel = k + 1 := ⟨fuel - 1, by omega⟩
    have hnot : ¬Fits n c := hpre c (by simp)
    rw [loop_of_inl (by rw [kmallocTurn_of_hdrAt hp hh, if_neg hnot])]
    exact ih hrest (fun d hd => hpre d (by simp [hd]))
      (by simp only [List.length_cons] at hfuel; omega)

/-- If nothing fits, the search runs off the end of the chain. -/
theorem loop_kmallocTurn_of_full (hc : Chain h.mem p bs 0) (hbs : ∀ c ∈ bs, ¬Fits n c)
    {fuel : ℕ} (hfuel : bs.length < fuel) :
    loop (kmallocTurn h n) fuel p = some (0, h.kprintf (.outOfMemory n)) := by
  induction bs generalizing p fuel with
  | nil =>
    obtain ⟨fuel, rfl⟩ : ∃ k, fuel = k + 1 := ⟨fuel - 1, by omega⟩
    have hp : p = 0 := hc
    exact loop_of_inr (by simp [kmallocTurn, hp]) _
  | cons c bs ih =>
    obtain ⟨hp, rfl, hh, hrest⟩ := hc
    obtain ⟨fuel, rfl⟩ : ∃ k, fuel = k + 1 := ⟨fuel - 1, by omega⟩
    have hnot : ¬Fits n c := hbs c (by simp)
    rw [loop_of_inl (by rw [kmallocTurn_of_hdrAt hp hh, if_neg hnot])]
    exact ih hrest (fun d hd => hbs d (by simp [hd]))
      (by simp only [List.length_cons] at hfuel; omega)

/-- Splitting writes the two headers and nothing else. -/
theorem chain_kmallocSplit (hb0 : 0 < b.addr) (hb : HdrAt m b)
    (hend : b.addr + 16 + b.size < 2 ^ 32) (hn : n + 16 + 4 ≤ b.size) :
    (∀ x, x < b.addr ∨ b.addr + 16 ≤ x → x < b.addr + 16 + n ∨ b.addr + 16 + n + 16 ≤ x →
        setUsed (kmallocSplit m b.addr n) b.addr 1 x = m x) ∧
      Chain (setUsed (kmallocSplit m b.addr n) b.addr 1) b.addr
        [⟨b.addr, n, true⟩, ⟨b.addr + 16 + n, b.size - n - 16, false⟩] (hdrNext m b.addr) := by
  have hsplit : add32 (add32 b.addr hdrSize) n = b.addr + 16 + n := by
    rw [hdrSize, add32_eq (a := b.addr) (by omega), add32_eq (by omega)]
  have hrest : sub32 (sub32 b.size n) hdrSize = b.size - n - 16 := by
    rw [hdrSize, sub32_eq (a := b.size) (by omega) (by omega), sub32_eq (by omega) (by omega)]
  have hsize := hb.size
  simp only [hdrLen] at hsize
  -- Where the new header goes and what it holds is read before the first store that overwrites it.
  simp (disch := omega) only [kmallocSplit, hsplit, setMagic, setLen, setUsed, setNext, hdrLen,
    hdrNext, Mem.load32_store32_of_disjoint, Mem.load32_store8_of_outside, hsize, hrest]
  refine ⟨fun x hx hx' => ?_, ?_⟩
  · simp (disch := omega) only [Mem.store8_of_ne, Mem.store32_apply_of_outside]
  · generalize hm' : Mem.store8 _ _ 1 = m'
    have hnext : hdrNext m' b.addr = b.addr + 16 + n := by
      simp (disch := omega) only [← hm', hdrNext, Mem.load32_store8_of_outside,
        Mem.load32_store32]
      omega
    have hlast : hdrNext m' (b.addr + 16 + n) = m.load32 (b.addr + 12) := by
      simp (disch := omega) only [← hm', hdrNext, Mem.load32_store8_of_outside,
        Mem.load32_store32_of_disjoint, Mem.load32_store32]
      exact Nat.mod_eq_of_lt (Mem.load32_lt _ _)
    -- The header of the block, then, as its successor, the header of the rest.
    refine ⟨by omega, rfl, ⟨?_, ?_, ?_⟩, ?_⟩
    on_goal 4 => rw [hnext]; refine ⟨by omega, rfl, ⟨?_, ?_, ?_⟩, hlast⟩
    all_goals
      simp (disch := omega) only [← hm', hdrMagic, hdrLen, hdrUsed,
        Mem.load32_store32_of_disjoint, Mem.load32_store8_of_outside, Mem.load32_store32,
        Mem.store32_apply_of_outside, Mem.store8_of_ne, Mem.store8_same]
    · exact hb.magic
    · omega
    · rfl
    · rfl
    · omega
    · rfl

/-- Setting the used flag, as for taking a whole block or freeing one, changes nothing else. -/
theorem chain_setUsed (u : Bool) (hb0 : 0 < b.addr) (hb : HdrAt m b) :
    Chain (setUsed m b.addr (if u then 1 else 0)) b.addr [⟨b.addr, b.size, u⟩]
      (hdrNext m b.addr) := by
  refine ⟨by omega, rfl, ⟨?_, ?_, ?_⟩, ?_⟩
  · simpa (disch := omega) only [hdrMagic, setUsed, Mem.load32_store8_of_outside] using hb.magic
  · simpa (disch := omega) only [hdrLen, setUsed, Mem.load32_store8_of_outside] using hb.size
  · simp only [hdrUsed, setUsed, Mem.store8_same]
  · exact Mem.load32_store8_of_outside _ _ (by omega)

/-- The split test of the code is the split test of the abstract allocator: no sum wraps. -/
theorem HeapInv.split_test (hi : HeapInv h (pre ++ b :: post)) (hn : n ≤ b.size) :
    add32 (add32 n hdrSize) 4 ≤ b.size ↔ n + 16 + 4 ≤ b.size := by
  have hbd := hi.block_bounds (b := b) (by simp)
  have hpos := hi.start_pos
  have hal := hi.start_aligned
  have hend := hi.end_lt
  rw [hdrSize, add32_eq (a := n) (by omega), add32_eq (by omega)]

/-- `kmalloc` on the block it has chosen: only the headers of the blocks it is carved into are
written, and these are its chain. -/
theorem kmallocTake_mem (hi : HeapInv h (pre ++ b :: post)) (hb : Fits n b) :
    (∀ x, (∀ c ∈ carve hdrSize 4 n b, x < c.addr ∨ c.addr + 16 ≤ x) →
        (kmallocTake h n b.addr).2.mem x = h.mem x) ∧
      Chain (kmallocTake h n b.addr).2.mem b.addr (carve hdrSize 4 n b)
        (hdrNext h.mem b.addr) := by
  obtain ⟨hb0, hh, -, -⟩ := hi.split
  have hbd := hi.block_bounds (b := b) (by simp)
  have hend := hi.end_lt
  -- The test of the code is on 32-bit numbers, which do not wrap for a block that fits.
  by_cases hsplit : n + hdrSize + 4 ≤ b.size
  · rw [carve, if_pos hsplit, kmallocTake, hh.size, if_pos ((hi.split_test hb.2).mpr hsplit)]
    obtain ⟨hout, hchain⟩ := chain_kmallocSplit hb0 hh (by omega) hsplit
    refine ⟨fun x hx => ?_, hchain⟩
    simp only [List.forall_mem_cons] at hx
    exact hout x hx.1 hx.2.1
  · rw [carve, if_neg hsplit, kmallocTake, hh.size,
      if_neg fun htest => hsplit ((hi.split_test hb.2).mp htest)]
    refine ⟨fun x hx => Mem.store8_of_ne _ _ ?_, chain_setUsed true hb0 hh⟩
    have := hx _ (List.mem_singleton_self _)
    dsimp only at this
    omega

/-- The size that `kmalloc` adds to `heap_used` is the size of the block it hands out. -/
theorem kmallocTake_used (hi : HeapInv h (pre ++ b :: post)) (hb : Fits n b) :
    (kmallocTake h n b.addr).2.heapUsed =
      h.heapUsed + usedBytes (carve hdrSize 4 n b) := by
  obtain ⟨-, hchain⟩ := kmallocTake_mem hi hb
  have hbd := hi.block_bounds (b := b) (by simp)
  have hend := hi.end_lt
  have hle := hi.tiles.usedBytes_le
  -- The size is read from the header after the split, which may have changed it.
  have hlen : hdrLen (kmallocTake h n b.addr).2.mem b.addr = usedBytes (carve hdrSize 4 n b) := by
    revert hchain
    unfold carve
    split
    · rintro ⟨-, -, hh, -⟩
      simpa using hh.size
    · rintro ⟨-, -, hh, -⟩
      simpa using hh.size
  have hcarve : usedBytes (carve hdrSize 4 n b) ≤ b.size := by
    have := hb.2
    unfold carve
    split <;> simp
    omega
  -- The block was free, so that the sum still fits the heap and does not wrap.
  have hfree : usedBytes (pre ++ b :: post) + b.size + h.heapStartAddr ≤ h.heapEndAddr := by
    obtain ⟨tpre, tpost⟩ := hi.tiles.split
    have h1 := tpre.usedBytes_le
    have h2 := tpost.usedBytes_le
    simp only [usedBytes_append, usedBytes_cons, hb.1]
    simp
    omega
  show add32 h.heapUsed (hdrLen (kmallocTake h n b.addr).2.mem b.addr) = _
  rw [hlen, add32_eq]
  rw [hi.used]
  omega

/-- `kmalloc` on the block it has chosen returns its payload and keeps the invariant. -/
theorem HeapInv.kmallocTake (hi : HeapInv h (pre ++ b :: post)) (hb : Fits n b) (hn : 4 ∣ n) :
    (kmallocTake h n b.addr).1 = b.addr + hdrSize ∧
      HeapInv (Lightstreak.kmallocTake h n b.addr).2 (pre ++ carve hdrSize 4 n b ++ post) := by
  have hbd := hi.block_bounds (b := b) (by simp)
  have hend := hi.end_lt
  obtain ⟨hout, hchain⟩ := kmallocTake_mem hi hb
  obtain ⟨tpre, tpost⟩ := hi.tiles.split
  obtain ⟨-, -, hpre, hpost⟩ := hi.split
  -- Only the chosen block was written to, so that the chain is spliced at it.
  have hblock : ∀ x, x < b.addr ∨ b.addr + hdrSize + b.size ≤ x →
      (Lightstreak.kmallocTake h n b.addr).2.mem x = h.mem x := fun x hx => by
    refine hout x fun c hc => ?_
    have htiles : Tiles hdrSize b.addr (carve hdrSize 4 n b) _ := tiles_carve hb
    have hcb := htiles.bounds hc
    simp only [hdrSize] at hcb hx
    omega
  refine ⟨?_, hi.start_pos, hi.start_aligned, hi.end_lt,
    hpre.splice tpre hpost tpost hchain hblock, ?_, ?_, ?_, hi.no_corruption⟩
  · simp only [Lightstreak.kmallocTake, hdrSize]
    exact add32_eq (by omega)
  · exact hi.tiles.replace (tiles_carve hb)
  · intro c hc
    rcases List.mem_append.mp hc with hc | hc
    · rcases List.mem_append.mp hc with hc | hc
      · exact hi.aligned c (by simp [hc])
      · have hbs := hi.aligned b (by simp)
        exact size_of_mem_carve hbs (fun _ =>
          ⟨hn, Nat.dvd_sub (Nat.dvd_sub hbs hn) (by decide)⟩) hc
    · exact hi.aligned c (by simp [hc])
  · rw [kmallocTake_used hi hb, hi.used]
    simp [hb.1]
    omega

theorem align4_eq (n : ℕ) : align4 n = (n + 3) % 2 ^ 32 / 4 * 4 := by
  unfold align4
  rw [and_mask_four (add32_lt _ _), add32]

theorem four_dvd_align4 (n : ℕ) : 4 ∣ align4 n := by
  rw [align4_eq]
  exact Dvd.intro_left _ rfl

/-- A request is rounded up, unless rounding wraps. -/
theorem le_align4 {n : ℕ} (hn : n ≤ 0xFFFFFFFC) : n ≤ align4 n := by
  rw [align4_eq]
  omega

/-- Printing anything but a corruption message keeps the invariant. -/
theorem HeapInv.kprintf (hi : HeapInv h bs) {msg : HeapMsg}
    (hmsg : ∀ blk, msg ≠ .corruption blk) : HeapInv (h.kprintf msg) bs := by
  refine ⟨hi.start_pos, hi.start_aligned, hi.end_lt, hi.chain, hi.tiles, hi.aligned, hi.used, ?_⟩
  intro blk hmem
  rcases List.mem_append.mp hmem with hmem | hmem
  · exact hi.no_corruption blk hmem
  · exact hmsg blk (List.mem_singleton.mp hmem).symm

/-- `kmalloc` of a request for which some block fits: it takes the first such block. -/
theorem kmalloc_of_fits (hi : HeapInv h (pre ++ b :: post)) (hn : n ≠ 0)
    (hpre : ∀ c ∈ pre, ¬Fits (align4 n) c) (hb : Fits (align4 n) b) :
    kmalloc h n = some (kmallocTake h (align4 n) b.addr) := by
  rw [kmalloc, if_neg hn]
  have hlen := hi.length_lt
  simp only [List.length_append, List.length_cons] at hlen
  exact loop_kmallocTurn_of_fits hi.chain hpre hb (by omega)

/-- `kmalloc` of a request for which no block fits. -/
theorem kmalloc_of_full (hi : HeapInv h bs) (hn : n ≠ 0) (hbs : ∀ c ∈ bs, ¬Fits (align4 n) c) :
    kmalloc h n = some (0, h.kprintf (.outOfMemory (align4 n))) := by
  rw [kmalloc, if_neg hn]
  exact loop_kmallocTurn_of_full hi.chain hbs hi.length_lt

/-- `kmalloc` of a request that first-fit allocation can serve. It writes nothing but headers of
the chain that it leaves. -/
theorem kmalloc_of_alloc {bs' : List Block} (hi : HeapInv h bs) (hn : n ≠ 0)
    (halloc : alloc hdrSize 4 (align4 n) bs = some (q, bs')) :
    ∃ h', kmalloc h n = some (q, h') ∧ HeapInv h' bs' ∧
      ∀ x, (∀ c ∈ bs', x < c.addr ∨ c.addr + 16 ≤ x) → h'.mem x = h.mem x := by
  obtain ⟨pre, b, post, rfl, hpre, hb, heq⟩ := alloc_eq_some_iff.mp halloc
  obtain ⟨rfl, rfl⟩ := Prod.mk.inj heq
  obtain ⟨hptr, hinv⟩ := hi.kmallocTake hb (four_dvd_align4 n)
  refine ⟨(kmallocTake h (align4 n) b.addr).2, ?_, hinv, fun x hx => ?_⟩
  · rw [kmalloc_of_fits hi hn hpre hb, ← hptr]
  · exact (kmallocTake_mem hi hb).1 x fun c hmem => hx c (by simp [hmem])

/-- `kmalloc` refines first-fit allocation: it returns, with the payload address and the block
list of `FirstFit.alloc`, or with `NULL` and the chain as it was. -/
theorem kmalloc_spec (hi : HeapInv h bs) (hn : n ≠ 0) :
    ∃ q h', kmalloc h n = some (q, h') ∧
      ((∃ bs', alloc hdrSize 4 (align4 n) bs = some (q, bs') ∧ HeapInv h' bs' ∧
          ∀ x, (∀ c ∈ bs', x < c.addr ∨ c.addr + 16 ≤ x) → h'.mem x = h.mem x) ∨
        (q = 0 ∧ alloc hdrSize 4 (align4 n) bs = none ∧ HeapInv h' bs ∧ h'.mem = h.mem)) := by
  cases hcase : alloc hdrSize 4 (align4 n) bs with
  | none =>
    have hfull := alloc_eq_none_iff.mp hcase
    exact ⟨0, _, kmalloc_of_full hi hn hfull, Or.inr ⟨rfl, rfl, hi.kprintf (by simp), rfl⟩⟩
  | some r =>
    obtain ⟨h', hk, hinv, hframe⟩ := kmalloc_of_alloc hi hn hcase
    exact ⟨r.1, h', hk, Or.inl ⟨r.2, rfl, hinv, hframe⟩⟩

end Kmalloc

/-! ## `kzalloc` -/

section Kzalloc

variable {h : HeapState} {n : ℕ}

/-- Only the bytes of the headers matter. -/
theorem HeapInv.congr_headers (hi : HeapInv h bs)
    (hm : ∀ b ∈ bs, ∀ x, b.addr ≤ x → x < b.addr + 16 → m' x = h.mem x) :
    HeapInv { h with mem := m' } bs where
  start_pos := hi.start_pos
  start_aligned := hi.start_aligned
  end_lt := hi.end_lt
  chain := hi.chain.frame hm
  tiles := hi.tiles
  aligned := hi.aligned
  used := hi.used
  no_corruption := hi.no_corruption

/-- A byte of a payload is in no header. -/
theorem HeapInv.payload_outside_headers (hi : HeapInv h bs) (hb : b ∈ bs) {x : ℕ}
    (hlo : b.addr + 16 ≤ x) (hhi : x < b.addr + 16 + b.size) :
    ∀ c ∈ bs, x < c.addr ∨ c.addr + 16 ≤ x := by
  intro c hc
  have hsize : hdrSize = 16 := rfl
  rcases hi.tiles.apart hb hc with rfl | hlt | hlt
  · exact .inr hlo
  · exact .inl (by omega)
  · exact .inr (by omega)

/-- Writing inside one payload touches no header. -/
theorem HeapInv.write_payload (hi : HeapInv h bs) (hb : b ∈ bs)
    (hm : ∀ x, x < b.addr + 16 ∨ b.addr + 16 + b.size ≤ x → m' x = h.mem x) :
    HeapInv { h with mem := m' } bs := by
  refine hi.congr_headers fun c hc x hlo hhi => hm x ?_
  by_contra hin
  have := hi.payload_outside_headers hb (x := x) (by omega) (by omega) c hc
  omega

/-- Below the end of the address space the zeroing loop is a plain fill. -/
theorem zeroBytes_eq_fill (m : Mem) (h : p + n ≤ 2 ^ 32) : zeroBytes m p n = m.fill p 0 n := by
  induction n with
  | zero => rfl
  | succ n ih => rw [zeroBytes, ih (by omega), add32_eq (by omega), Mem.fill]

/-- Zeroes at the start of a payload stay inside it. -/
theorem HeapInv.zeroBytes_of_outside (hi : HeapInv h bs) (hb : b ∈ bs) (hn : n ≤ b.size) {x : ℕ}
    (hx : x < b.addr + 16 ∨ b.addr + 16 + n ≤ x) :
    zeroBytes h.mem (b.addr + hdrSize) n x = h.mem x := by
  have hbd := hi.block_bounds hb
  have hend := hi.end_lt
  rw [hdrSize, zeroBytes_eq_fill _ (by omega)]
  exact Mem.fill_of_outside _ _ hx

/-- The block a successful allocation hands out is in the new list, in use, and as large as
the request. -/
theorem exists_mem_of_alloc {bs' : List Block}
    (halloc : alloc hdrSize 4 n bs = some (q, bs')) :
    ∃ b ∈ bs', b.used = true ∧ q = b.addr + hdrSize ∧ n ≤ b.size := by
  obtain ⟨b, hq, hused, hsize, hperm⟩ := perm_inUse_of_alloc halloc
  exact ⟨b, (mem_inUse.mp (hperm.mem_iff.mpr List.mem_cons_self)).1, hused, hq, hsize⟩

/-- When `kmalloc` has found a block and the request was not wrapped by the rounding, the loop of
`kzalloc` writes to the payload of that block only. -/
theorem HeapInv.kzalloc_of_kmalloc {h' : HeapState} (hi : HeapInv h' bs) (hb : b ∈ bs)
    (hmax : n ≤ 0xFFFFFFFC) (hsize : align4 n ≤ b.size)
    (hk : kmalloc h n = some (b.addr + hdrSize, h')) :
    kzalloc h n =
        some (b.addr + hdrSize, { h' with mem := zeroBytes h'.mem (b.addr + hdrSize) n }) ∧
      ∀ x, x < b.addr + 16 ∨ b.addr + 16 + b.size ≤ x →
        zeroBytes h'.mem (b.addr + hdrSize) n x = h'.mem x := by
  have hle := (le_align4 hmax).trans hsize
  have hq : b.addr + hdrSize ≠ 0 := by simp [hdrSize]
  refine ⟨by simp only [kzalloc, hk, if_pos hq], fun x hx => ?_⟩
  exact hi.zeroBytes_of_outside hb hle (by omega)

/-- `kzalloc` acts on the chain as `kmalloc` does: the zeroes stay inside the payload, because
a request of at most `0xFFFFFFFC` bytes is rounded up. -/
theorem kzalloc_spec (hi : HeapInv h bs) (hn : n ≠ 0) (hmax : n ≤ 0xFFFFFFFC) :
    ∃ q h', kzalloc h n = some (q, h') ∧
      ((∃ bs', alloc hdrSize 4 (align4 n) bs = some (q, bs') ∧ HeapInv h' bs') ∨
        (q = 0 ∧ alloc hdrSize 4 (align4 n) bs = none ∧ HeapInv h' bs ∧ h'.mem = h.mem)) := by
  obtain ⟨q, h', hk, hcase⟩ := kmalloc_spec hi hn
  rcases hcase with ⟨bs', halloc, hi', -⟩ | ⟨rfl, hnone, hi', hmem⟩
  · obtain ⟨b, hb, -, rfl, hsize⟩ := exists_mem_of_alloc halloc
    obtain ⟨hz, hzero⟩ := hi'.kzalloc_of_kmalloc hb hmax hsize hk
    exact ⟨_, _, hz, Or.inl ⟨bs', halloc, hi'.write_payload hb hzero⟩⟩
  · exact ⟨0, h', by simp [kzalloc, hk], Or.inr ⟨rfl, hnone, hi', hmem⟩⟩

end Kzalloc

/-! ## `kfree` -/

section Kfree

variable {h : HeapState} {pre post : List Block} {c : Block} {r : ℕ}

/-- With a free successor `c`, the block takes over its bytes and its link. -/
theorem chain_kfreeCoalesce (hb0 : 0 < b.addr) (hb : HdrAt m b) (hc : HdrAt m c)
    (hnext : hdrNext m b.addr = c.addr) (hadj : c.addr = b.addr + 16 + b.size)
    (hend : c.addr + 16 + c.size < 2 ^ 32) (hfree : c.used = false) :
    (∀ x, x < b.addr ∨ b.addr + 16 ≤ x →
        kfreeCoalesce (setUsed m b.addr 0) b.addr x = m x) ∧
      Chain (kfreeCoalesce (setUsed m b.addr 0) b.addr) b.addr
        [⟨b.addr, b.size + (hdrSize + c.size), false⟩] (hdrNext m c.addr) := by
  -- Clearing the flag leaves the fields that the merge reads.
  have hnx : hdrNext (setUsed m b.addr 0) b.addr = c.addr :=
    (Mem.load32_store8_of_outside _ _ (by omega)).trans hnext
  have hcu : hdrUsed (setUsed m b.addr 0) c.addr = 0 := by
    rw [hdrUsed, setUsed, Mem.store8_of_ne _ _ (by omega)]
    simpa [hfree, hdrUsed] using hc.used
  have hbl : hdrLen (setUsed m b.addr 0) b.addr = b.size :=
    (Mem.load32_store8_of_outside _ _ (by omega)).trans hb.size
  have hcl : hdrLen (setUsed m b.addr 0) c.addr = c.size :=
    (Mem.load32_store8_of_outside _ _ (by omega)).trans hc.size
  have hsum : add32 b.size (add32 hdrSize c.size) = b.size + (hdrSize + c.size) := by
    simp only [hdrSize]
    rw [add32_eq (a := 16) (by omega), add32_eq (by omega)]
  rw [kfreeCoalesce, hnx, if_pos ⟨by omega, hcu⟩, hbl, hcl, hsum]
  -- The size store leaves both links readable.
  have hlink : hdrNext (setLen (setUsed m b.addr 0) b.addr (b.size + (hdrSize + c.size))) b.addr =
      c.addr := by
    rw [← hnx]
    exact Mem.load32_store32_of_disjoint _ _ (by omega)
  have hlink' : hdrNext (setLen (setUsed m b.addr 0) b.addr (b.size + (hdrSize + c.size)))
      c.addr = hdrNext m c.addr := by
    simp (disch := omega) only [hdrNext, setLen, setUsed, Mem.load32_store32_of_disjoint,
      Mem.load32_store8_of_outside]
  simp only [hlink, hlink']
  have hbm := hb.magic
  simp only [hdrMagic] at hbm
  refine ⟨fun x hx => ?_, by omega, rfl, ⟨?_, ?_, ?_⟩, ?_⟩
  · simp (disch := omega) only [setUsed, setLen, setNext, Mem.store8_of_ne,
      Mem.store32_apply_of_outside]
  · simp (disch := omega) only [hdrMagic, setUsed, setLen, setNext,
      Mem.load32_store32_of_disjoint, Mem.load32_store8_of_outside, hbm]
  · simp (disch := omega) only [hdrLen, setLen, setNext, Mem.load32_store32_of_disjoint,
      Mem.load32_store32, hdrSize]
    omega
  · simp (disch := omega) only [hdrUsed, setUsed, setLen, setNext, Mem.store32_apply_of_outside,
      Mem.store8_same]
    rfl
  · show hdrNext _ _ = _
    simp only [hdrNext, setNext, Mem.load32_store32]
    exact Nat.mod_eq_of_lt (Mem.load32_lt _ _)

/-- The memory effect of `kfree` on a block in use: only its own header changes, and the chain
is the one with the block merged. -/
theorem chain_kfree (hi : HeapInv h (pre ++ b :: post)) :
    (∀ x, x < b.addr ∨ b.addr + 16 ≤ x →
        kfreeCoalesce (setUsed h.mem b.addr 0) b.addr x = h.mem x) ∧
      Chain (kfreeCoalesce (setUsed h.mem b.addr 0) b.addr) h.heapHead
        (pre ++ merge hdrSize b post) 0 := by
  obtain ⟨hb0, hb, hpre, hpost⟩ := hi.split
  obtain ⟨tpre, tpost⟩ := hi.tiles.split
  have hend := hi.end_lt
  have hnx : hdrNext (setUsed h.mem b.addr 0) b.addr = hdrNext h.mem b.addr :=
    Mem.load32_store8_of_outside _ _ (by omega)
  have hstay : ∀ x, x < b.addr ∨ b.addr + 16 ≤ x → setUsed h.mem b.addr 0 x = h.mem x :=
    fun x hx => Mem.store8_of_ne _ _ (by omega)
  have hfar : ∀ x, x < b.addr ∨ b.addr + hdrSize + b.size ≤ x → x < b.addr ∨ b.addr + 16 ≤ x := by
    intro x hx
    simp only [hdrSize] at hx
    omega
  cases post with
  | nil =>
    -- The last block: `next` is `NULL`, so there is nothing to merge with.
    have hnull : hdrNext h.mem b.addr = 0 := hpost
    rw [kfreeCoalesce, hnx, hnull, if_neg (by simp)]
    have hmid := hnull ▸ chain_setUsed false hb0 hb
    exact ⟨hstay, by
      simpa using hpre.splice tpre hpost tpost (hnull.symm ▸ hmid) fun x hx => hstay x (hfar x hx)⟩
  | cons c cs =>
    obtain ⟨hc0, hca, hc, hcs⟩ := hpost
    obtain ⟨hcadj, tcs⟩ := tpost
    have hcend := tcs.le
    simp only [hdrSize] at hcadj hcend
    have hcu : hdrUsed (setUsed h.mem b.addr 0) c.addr = if c.used then 1 else 0 := by
      rw [← hc.used, hdrUsed, hstay _ (by omega)]
      rfl
    cases hused : c.used with
    | true =>
      -- A successor in use stays a block of its own.
      rw [kfreeCoalesce, hnx, ← hca, hcu, hused, if_neg (by simp), merge, if_pos hused]
      refine ⟨hstay, ?_⟩
      have hpost : Chain h.mem (hdrNext h.mem b.addr) (c :: cs) 0 := ⟨hc0, hca, hc, hcs⟩
      have := hpre.splice tpre hpost ⟨hcadj, tcs⟩ (chain_setUsed false hb0 hb)
        fun x hx => hstay x (hfar x hx)
      simpa using this
    | false =>
      -- A free successor is taken over, and the chain goes on behind it.
      obtain ⟨hout, hmid⟩ := chain_kfreeCoalesce hb0 hb hc hca.symm hcadj (by omega) hused
      rw [merge, if_neg (by simp [hused])]
      refine ⟨hout, ?_⟩
      have hpost : Chain h.mem (hdrNext h.mem c.addr) cs 0 := hca ▸ hcs
      have := hpre.splice tpre hpost tcs hmid fun x hx =>
        hout x (hfar x (by simp only [hdrSize] at *; omega))
      simpa using this

/-- `kfree` of the payload of a block in use is `FirstFit.release`, and writes nothing but the
header of that block. -/
theorem kfree_spec (hi : HeapInv h bs) (hmem : b ∈ bs) (hb : b.used = true) :
    HeapInv (kfree h (b.addr + hdrSize)) (release hdrSize (b.addr + hdrSize) bs) ∧
      ∀ x, x < b.addr ∨ b.addr + 16 ≤ x → (kfree h (b.addr + hdrSize)).mem x = h.mem x := by
  obtain ⟨pre, post, rfl⟩ := List.append_of_mem hmem
  obtain ⟨hb0, hh, -, -⟩ := hi.split
  obtain ⟨tpre, tpost⟩ := hi.tiles.split
  have hbd := hi.block_bounds hmem
  have hend := hi.end_lt
  have hblk : sub32 (b.addr + hdrSize) hdrSize = b.addr := by
    simp only [hdrSize]
    rw [sub32_eq (by omega) (by omega)]
    omega
  have hset : hdrUsed h.mem b.addr ≠ 0 := by
    rw [hh.used, hb]
    decide
  -- Merging frees no payload but the block's own: the header it absorbs was never counted.
  have hused : sub32 h.heapUsed b.size = usedBytes (pre ++ merge hdrSize b post) := by
    have hle := hi.tiles.usedBytes_le
    have hsum := hi.used
    rw [usedBytes_append, usedBytes_cons, if_pos hb] at hsum
    rw [sub32_eq (by rw [hi.used]; omega) (by omega), usedBytes_append, usedBytes_merge]
    omega
  -- No earlier block has the same payload, so that `release` finds this one.
  have hother : ∀ c ∈ pre, c.addr + hdrSize ≠ b.addr + hdrSize := by
    intro c hc
    have hcb := (tpre.bounds hc).2
    simp only [hdrSize] at hcb ⊢
    omega
  obtain ⟨hout, hchain⟩ := chain_kfree hi
  rw [release_of_mem hother hb rfl, kfree, if_neg (by simp [hdrSize])]
  simp only [hblk, hh.magic, ne_eq, not_true_eq_false, ↓reduceIte, hset, hh.size]
  refine ⟨⟨hi.start_pos, hi.start_aligned, hi.end_lt, hchain,
    tiles_append.mpr ⟨_, tpre, tiles_merge tpost⟩, ?_, hused, hi.no_corruption⟩, hout⟩
  intro c hc
  rcases List.mem_append.mp hc with hc | hc
  · exact hi.aligned c (by simp [hc])
  · have hbs := hi.aligned b (by simp)
    refine size_of_mem_merge hbs (fun d hd => ?_) hc
    have hds := hi.aligned d (by simp [hd])
    exact ⟨hds, Nat.dvd_add hbs (Nat.dvd_add (by decide) hds)⟩

end Kfree

end Lightstreak
