import Lightstreak.Mm.HeapRuns

/-!
# Allocations are as large as asked and private

A pointer that `kmalloc` or `kzalloc` returns is 4-byte aligned and heads as many bytes as were
asked for, inside the payload of one block. Requests above `0xFFFFFFFC` are the exception: rounding
them up wraps to zero, and any free block, of any size, is handed out for them.

* `HeapInv.privateBlock`: the payload of a block in use is private;
* `kmalloc_privateBlock`, `kzalloc_privateBlock`: what a request that does not wrap returns;
* `privateAllocations_iff`: in every reachable heap, a request is served with a private block or
  refused if and only if rounding does not wrap or no block is free.
-/

namespace Lightstreak

open SysLib SysLib.FirstFit

variable {h h' : HeapState} {bs : List Block} {b : Block} {n p : ℕ}

/-- The `n` bytes at `a` and the `k` bytes at `c` have none in common. -/
def Apart (a n c k : ℕ) : Prop := a + n ≤ c ∨ c + k ≤ a

/-- In heap `h` the `n` bytes at `p` are aligned and inside the heap, lie in the payload of one
block in use, and touch neither a header nor the payload of another block in use. -/
structure PrivateBlock (h : HeapState) (p n : ℕ) : Prop where
  /-- The pointer is a multiple of four. -/
  aligned : 4 ∣ p
  /-- The block is not before the heap. -/
  start_le : h.heapStartAddr ≤ p
  /-- The block is not behind the heap. -/
  le_end : p + n ≤ h.heapEndAddr
  /-- It is in the payload of one block in use, apart from all headers and all other payloads. -/
  own : ∃ bs b, Chain h.mem h.heapHead bs 0 ∧ b ∈ bs ∧ b.used = true ∧
    b.addr + hdrSize ≤ p ∧ p + n ≤ b.addr + hdrSize + b.size ∧
    (∀ c ∈ bs, Apart p n c.addr hdrSize) ∧
    ∀ c ∈ bs, c.used = true → c ≠ b → Apart p n (c.addr + hdrSize) c.size

/-- Block addresses are aligned, because sizes and headers are multiples of four. -/
theorem HeapInv.four_dvd_addr (hi : HeapInv h bs) (hb : b ∈ bs) : 4 ∣ b.addr := by
  obtain ⟨pre, post, rfl⟩ := List.append_of_mem hb
  have htiles := hi.tiles.split.1
  have haligned : ∀ c ∈ pre, 4 ∣ c.size := fun c hc => hi.aligned c (by simp [hc])
  -- On the blocks in front of it.
  have hstart := hi.start_aligned
  generalize h.heapStartAddr = a at htiles hstart
  clear hi hb
  induction pre generalizing a with
  | nil => exact (show a = b.addr from htiles) ▸ hstart
  | cons c pre ih =>
    have hc := haligned c (by simp)
    exact ih (fun d hd => haligned d (by simp [hd])) _ htiles.2
      (Nat.dvd_add (Nat.dvd_add hstart (by decide)) hc)

/-- The payload of a block in use is private. -/
theorem HeapInv.privateBlock (hi : HeapInv h bs) (hb : b ∈ bs) (hused : b.used = true)
    (hn : n ≤ b.size) : PrivateBlock h (b.addr + hdrSize) n := by
  obtain ⟨hlo, hhi⟩ := hi.block_bounds hb
  have hsize : hdrSize = 16 := rfl
  refine ⟨Nat.dvd_add (hi.four_dvd_addr hb) (by decide), by omega, by omega, bs, b, hi.chain, hb,
    hused, le_rfl, by omega, fun c hc => ?_, fun c hc _ hne => ?_⟩
  · rcases hi.tiles.apart hb hc with rfl | hapart | hapart
    · exact .inr le_rfl
    · exact .inl (by omega)
    · exact .inr (by omega)
  · rcases hi.tiles.apart hb hc with rfl | hapart | hapart
    · exact absurd rfl hne
    · exact .inl (by omega)
    · exact .inr (by omega)

/-- A request that rounding does not wrap gets a private block, if it gets any. -/
theorem kmalloc_privateBlock (hi : HeapInv h bs) (hn : n ≠ 0) (hmax : n ≤ 0xFFFFFFFC)
    (hk : kmalloc h n = some (p, h')) (hp : p ≠ 0) : PrivateBlock h' p n := by
  obtain ⟨q, h₁, hk₁, hcase⟩ := kmalloc_spec hi hn
  obtain ⟨rfl, rfl⟩ := Prod.mk.inj (Option.some.inj (hk.symm.trans hk₁))
  rcases hcase with ⟨bs', halloc, hi', -⟩ | ⟨hnull, -⟩
  · obtain ⟨b, hb, hused, rfl, hsize⟩ := exists_mem_of_alloc halloc
    exact hi'.privateBlock hb hused ((le_align4 hmax).trans hsize)
  · exact absurd hnull hp

/-- `kzalloc` is `kmalloc` followed by the zeroing loop. -/
theorem kzalloc_eq_some (hz : kzalloc h n = some (p, h')) (hp : p ≠ 0) :
    ∃ h₁, kmalloc h n = some (p, h₁) ∧ h' = { h₁ with mem := zeroBytes h₁.mem p n } := by
  unfold kzalloc at hz
  cases hk : kmalloc h n with
  | none => simp [hk] at hz
  | some r =>
    obtain ⟨q, h₁⟩ := r
    simp only [hk] at hz
    split at hz
    · obtain ⟨rfl, rfl⟩ := Prod.mk.inj (Option.some.inj hz)
      exact ⟨h₁, rfl, rfl⟩
    next hq =>
      obtain ⟨rfl, -⟩ := Prod.mk.inj (Option.some.inj hz)
      exact absurd hp hq

/-- The zeroes of `kzalloc` go to the bytes it returns, and these are private. -/
theorem kzalloc_privateBlock (hi : HeapInv h bs) (hn : n ≠ 0) (hmax : n ≤ 0xFFFFFFFC)
    (hz : kzalloc h n = some (p, h')) (hp : p ≠ 0) :
    PrivateBlock h' p n ∧ ∃ h₁, kmalloc h n = some (p, h₁) ∧
      ∀ x, x < p ∨ p + n ≤ x → h'.mem x = h₁.mem x := by
  obtain ⟨h₁, hk, rfl⟩ := kzalloc_eq_some hz hp
  obtain ⟨q, h₂, hk₂, hcase⟩ := kmalloc_spec hi hn
  obtain ⟨rfl, rfl⟩ := Prod.mk.inj (Option.some.inj (hk.symm.trans hk₂))
  rcases hcase with ⟨bs', halloc, hi', -⟩ | ⟨hnull, -⟩
  · obtain ⟨b, hb, hused, rfl, hsize⟩ := exists_mem_of_alloc halloc
    have hle := (le_align4 hmax).trans hsize
    have hzero := fun x => hi'.zeroBytes_of_outside hb hle (x := x)
    have hi₂ := hi'.write_payload hb fun x hx => hzero x (by omega)
    exact ⟨hi₂.privateBlock hb hused hle, h₁, hk, hzero⟩
  · exact absurd hnull hp

/-- A request that rounding wraps to zero takes the first free block, and its bytes cannot all be
there: they reach past the end of the address space. -/
theorem exists_kmalloc_of_wrap (hi : HeapInv h bs) (hmax : 0xFFFFFFFC < n) (hn : n < 2 ^ 32)
    (hfree : ∃ b ∈ bs, b.used = false) :
    ∃ q h₁, kmalloc h n = some (q, h₁) ∧ q ≠ 0 ∧ ¬PrivateBlock h₁ q n := by
  have hwrap : align4 n = 0 := by
    rw [align4_eq]
    omega
  obtain ⟨q, h₁, hk, ⟨bs', halloc, hi', -⟩ | ⟨-, hnone, -⟩⟩ :=
    kmalloc_spec hi (n := n) (by omega)
  · obtain ⟨b, hb, -, rfl, -⟩ := exists_mem_of_alloc halloc
    -- So many bytes do not fit below the end of the heap.
    refine ⟨_, h₁, hk, by simp [hdrSize], fun hpriv => ?_⟩
    have hend := hpriv.le_end
    have hlt := hi'.end_lt
    have hsize : hdrSize = 16 := rfl
    omega
  · -- Any free block has room for the zero bytes that are left of the request.
    obtain ⟨b, hb, hused⟩ := hfree
    have hnot := alloc_eq_none_iff.mp hnone b hb
    exact absurd ⟨hused, by rw [hwrap]; exact Nat.zero_le _⟩ hnot

/-- Size and privacy of allocations, in every reachable heap and for every non-zero request `n`:
a pointer that `kmalloc` or `kzalloc` returns heads `n` bytes that are aligned, inside the heap and
in one block's payload, apart from every header and from every other allocation, and the zeroes of
`kzalloc` stay in them, if and only if `n` is at most `0xFFFFFFFC` or the heap has no free block. -/
theorem privateAllocations_iff (mem : Mem) {start size : ℕ} (hpos : 0 < start) (hstart : 4 ∣ start)
    (hsize : 4 ∣ size) (hmin : 16 ≤ size) (hend : start + size < 2 ^ 32) {ops : List HeapOp}
    (hrun : Run HeapStep (heapInit mem start size) ops h) (hn : 0 < n) (hmax : n < 2 ^ 32) :
    ((∀ p h', kmalloc h n = some (p, h') → p ≠ 0 → PrivateBlock h' p n) ∧
      ∀ p h', kzalloc h n = some (p, h') → p ≠ 0 → PrivateBlock h' p n ∧
        ∃ h₁, kmalloc h n = some (p, h₁) ∧ ∀ x, x < p ∨ p + n ≤ x → h'.mem x = h₁.mem x) ↔
      n ≤ 0xFFFFFFFC ∨ ∀ bs, Chain h.mem h.heapHead bs 0 → ∀ b ∈ bs, b.used = true := by
  obtain ⟨⟨bs, hi⟩, -, -⟩ := heapInv_of_run mem hpos hstart hsize hmin hend hrun
  have hn0 : n ≠ 0 := by omega
  constructor
  · rintro ⟨hkmalloc, -⟩
    by_contra hcond
    obtain ⟨hwrap, hfree⟩ := not_or.mp hcond
    -- Some chain has a free block, and the heap has only one chain.
    have hfree : ∃ b ∈ bs, b.used = false := by
      by_contra hall
      refine hfree fun bs' hchain b hb => ?_
      rw [← hi.chain.unique hchain] at hb
      by_contra hused
      exact hall ⟨b, hb, by simpa using hused⟩
    obtain ⟨q, h₁, hk, hq, hnot⟩ := exists_kmalloc_of_wrap hi (by omega) hmax hfree
    exact hnot (hkmalloc q h₁ hk hq)
  · rintro (hle | hfull)
    · exact ⟨fun p h' hk hp => kmalloc_privateBlock hi hn0 hle hk hp,
        fun p h' hz hp => kzalloc_privateBlock hi hn0 hle hz hp⟩
    · -- Nothing fits a heap without a free block, and both functions return `NULL`.
      have hk := kmalloc_of_full hi hn0 fun c hc hfits => by
        have := (hfull bs hi.chain c hc).symm.trans hfits.1
        cases this
      have hnull : ∀ p h', kmalloc h n = some (p, h') → p = 0 := fun p h' hp =>
        (Prod.mk.inj (Option.some.inj (hk.symm.trans hp))).1.symm
      refine ⟨fun p h' hp hp0 => absurd (hnull p h' hp) hp0, fun p h' hz hp0 => ?_⟩
      obtain ⟨h₁, hk₁, -⟩ := kzalloc_eq_some hz hp0
      exact absurd (hnull p h₁ hk₁) hp0

/-- The heap of 64 bytes at `0x1000`, which is one free block. -/
theorem heapInv_smallHeap :
    HeapInv (heapInit (fun _ => 0) 0x1000 64) [⟨0x1000, 48, false⟩] :=
  heapInv_heapInit _ (by decide) (by decide) (by decide) (by decide) (by decide)

/-- A request for 8 bytes from that heap. -/
theorem privateAllocations_iff_smallHeap :
    ∃ p h', kmalloc (heapInit (fun _ => 0) 0x1000 64) 8 = some (p, h') ∧ p ≠ 0 ∧
      PrivateBlock h' p 8 := by
  have halloc : alloc hdrSize 4 (align4 8) [⟨0x1000, 48, false⟩] =
      some (0x1010, [⟨0x1000, 8, true⟩, ⟨0x1018, 24, false⟩]) := by decide
  obtain ⟨h', hk, -⟩ := kmalloc_of_alloc heapInv_smallHeap (by decide) halloc
  have hnil : Run HeapStep (heapInit (fun _ => 0) 0x1000 64) [] _ := Run.nil _
  have hall := (privateAllocations_iff (fun _ => 0) (by decide) (by decide) (by decide)
    (by decide) (by decide) hnil (n := 8) (by decide) (by decide)).mpr (.inl (by decide))
  exact ⟨_, h', hk, by decide, hall.1 _ h' hk (by decide)⟩

/-- A request for `0xFFFFFFFF` bytes from a heap of 64 bytes is served. -/
theorem not_privateBlock_kmalloc_wrap :
    ∃ h', kmalloc (heapInit (fun _ => 0) 0x1000 64) 0xFFFFFFFF = some (0x1010, h') ∧
      ¬PrivateBlock h' 0x1010 0xFFFFFFFF := by
  have halloc : alloc hdrSize 4 (align4 0xFFFFFFFF) [⟨0x1000, 48, false⟩] =
      some (0x1010, [⟨0x1000, 0, true⟩, ⟨0x1010, 32, false⟩]) := by decide
  obtain ⟨h', hk, hi', -⟩ := kmalloc_of_alloc heapInv_smallHeap (by decide) halloc
  refine ⟨h', hk, fun hpriv => ?_⟩
  have hend := hpriv.le_end
  have hlt := hi'.end_lt
  omega

end Lightstreak
