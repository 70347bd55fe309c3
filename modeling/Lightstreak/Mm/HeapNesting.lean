import Lightstreak.Mm.HeapRuns

/-!
# Nested allocations restore the heap

`kfree` merges a block with its successor only. Free neighbours can therefore pile up, but not when
blocks are freed in the reverse order of their allocation: a heap without free neighbours stays
without them, and each `kfree` takes back the `kmalloc` before it, whether that one split a block or
not.

* `NestedHeap.Step`: calls of `kmalloc`, which may fail, and of `kfree` on the newest live block;
* `NestedInv.step`: releasing the live blocks in order leads back to the chain at the start;
* `nested_restores`: a run that has freed all it allocated leaves the chain and `heap_used` as they
  were.
-/

namespace Lightstreak

open SysLib SysLib.FirstFit

variable {h h' : HeapState} {bs bs₀ : List Block}

/-! ## Chains of the same blocks -/

/-- Two chains that visit the same blocks start at the same address. -/
theorem Chain.head_eq {m m' : Mem} {p p' q : ℕ} (hc : Chain m p bs q) (hc' : Chain m' p' bs q) :
    p = p' := by
  cases bs with
  | nil => exact Eq.trans hc (Eq.symm hc')
  | cons b bs => exact hc.2.1.symm.trans hc'.2.1

/-- They have the same links. -/
theorem Chain.hdrNext_eq {m m' : Mem} {p p' q : ℕ} (hc : Chain m p bs q)
    (hc' : Chain m' p' bs q) : ∀ b ∈ bs, hdrNext m b.addr = hdrNext m' b.addr := by
  induction bs generalizing p p' with
  | nil => simp
  | cons b bs ih =>
    obtain ⟨-, rfl, -, hrest⟩ := hc
    obtain ⟨-, rfl, -, hrest'⟩ := hc'
    exact List.forall_mem_cons.mpr ⟨hrest.head_eq hrest', ih hrest hrest'⟩

/-! ## Nested calls -/

/-- A heap with the blocks that were allocated in a sequence of calls and are still live, the newest
first. -/
structure NestedHeap where
  /-- The heap. -/
  heap : HeapState
  /-- The pointers that were not freed, the newest first. -/
  live : List ℕ

/-- A call of a nested sequence. -/
inductive NestedOp
  | kmalloc (n : UInt32)
  | kfree
deriving DecidableEq, Repr

/-- `kmalloc` adds the block that it returns, if any, to those that are live; `kfree` frees the
newest of them. -/
def NestedHeap.Step (s : NestedHeap) : NestedOp → NestedHeap → Prop
  | .kmalloc n, t => ∃ q, kmalloc s.heap n.toNat = some (q, t.heap) ∧
    t.live = if q = 0 then s.live else q :: s.live
  | .kfree, t => ∃ p ptrs, s.live = p :: ptrs ∧ t = ⟨kfree s.heap p, ptrs⟩

/-- The heap is well formed, and freeing the live blocks in order restores the blocks `bs₀`. -/
def NestedInv (bs₀ : List Block) (s : NestedHeap) : Prop :=
  ∃ bs, HeapInv s.heap bs ∧ Unwinds hdrSize bs₀ s.live bs

/-- A call of a nested sequence keeps the invariant. -/
theorem NestedInv.step {s t : NestedHeap} {op : NestedOp} (hi : NestedInv bs₀ s)
    (hstep : s.Step op t) : NestedInv bs₀ t := by
  obtain ⟨bs, hheap, hunwinds⟩ := hi
  cases op with
  | kmalloc n =>
    obtain ⟨q, hk, hlive⟩ := hstep
    by_cases hn : n.toNat = 0
    · -- A request for nothing returns `NULL` at once.
      rw [kmalloc, if_pos hn] at hk
      obtain ⟨rfl, hsame⟩ := Prod.mk.inj (Option.some.inj hk)
      exact ⟨bs, hsame ▸ hheap, by rwa [hlive, if_pos rfl]⟩
    · obtain ⟨q', h', hk', hcase⟩ := kmalloc_spec hheap hn
      obtain ⟨rfl, rfl⟩ := Prod.mk.inj (Option.some.inj (hk'.symm.trans hk))
      rcases hcase with ⟨bs', halloc, hheap', -⟩ | ⟨rfl, -, hheap', -⟩
      · obtain ⟨b, -, -, rfl, -⟩ := exists_mem_of_alloc halloc
        have hpos : b.addr + hdrSize ≠ 0 := by simp [hdrSize]
        refine ⟨bs', hheap', ?_⟩
        rw [hlive, if_neg hpos]
        exact hunwinds.alloc hheap.tiles (by decide) halloc
      · -- Out of memory: the chain stays as it is.
        exact ⟨bs, hheap', by rwa [hlive, if_pos rfl]⟩
  | kfree =>
    obtain ⟨p, ptrs, hlive, rfl⟩ := hstep
    rw [hlive] at hunwinds
    obtain ⟨-, ⟨b, hb, hused, rfl⟩, hrest⟩ := hunwinds
    exact ⟨_, (kfree_spec hheap hb hused).1, hrest⟩

theorem nestedInv_of_run {ops : List NestedOp} {s : NestedHeap} (hi : HeapInv h bs)
    (hco : Coalesced bs) (hrun : Run NestedHeap.Step ⟨h, []⟩ ops s) : NestedInv bs s :=
  hrun.invariant (fun _ s => NestedInv bs s) ⟨bs, hi, rfl, hco⟩ fun _ _ _ _ hi hstep =>
    hi.step hstep

/-- `kmalloc` returns, whatever the request is. -/
theorem HeapInv.exists_kmalloc (hi : HeapInv h bs) (n : ℕ) :
    ∃ q h', kmalloc h n = some (q, h') := by
  by_cases hn : n = 0
  · exact ⟨0, h, by rw [kmalloc, if_pos hn]⟩
  · obtain ⟨q, h', hk, -⟩ := kmalloc_spec hi hn
    exact ⟨q, h', hk⟩

/-- Nested allocation restores the heap: from every heap without free neighbours, a sequence of
`kmalloc` and `kfree` in which each `kfree` frees the newest live block, and which frees all blocks
it allocated, ends with the blocks, the links and the count of used bytes it started with. No state
on the way has free neighbours, and no call fails to return. -/
theorem nested_restores (hi : HeapInv h bs) (hco : Coalesced bs) {ops : List NestedOp}
    (hrun : Run NestedHeap.Step ⟨h, []⟩ ops ⟨h', []⟩) :
    (Chain h'.mem h'.heapHead bs 0 ∧ h'.heapHead = h.heapHead ∧
      (∀ b ∈ bs, hdrNext h'.mem b.addr = hdrNext h.mem b.addr) ∧ h'.heapUsed = h.heapUsed) ∧
    ∀ ops₁ s₁, ops₁ <+: ops → Run NestedHeap.Step ⟨h, []⟩ ops₁ s₁ →
      (∃ bs₁, Chain s₁.heap.mem s₁.heap.heapHead bs₁ 0 ∧ Coalesced bs₁) ∧
        ∀ n : UInt32, ∃ q h₁, kmalloc s₁.heap n.toNat = some (q, h₁) := by
  constructor
  · obtain ⟨bs', hi', rfl, -⟩ := nestedInv_of_run hi hco hrun
    exact ⟨hi'.chain, hi'.chain.head_eq hi.chain, hi'.chain.hdrNext_eq hi.chain,
      hi'.used.trans hi.used.symm⟩
  · intro ops₁ s₁ _ hrun₁
    obtain ⟨bs₁, hi₁, hunwinds⟩ := nestedInv_of_run hi hco hrun₁
    exact ⟨⟨bs₁, hi₁.chain, hunwinds.coalesced⟩, fun n => hi₁.exists_kmalloc n.toNat⟩

/-- On a heap of 256 bytes at `0x1000`: two nested blocks, and a request that fails between them. -/
theorem nested_restores_twoBlocks :
    ∃ h', Run NestedHeap.Step ⟨heapInit (fun _ => 0) 0x1000 256, []⟩
        [.kmalloc 8, .kmalloc 0x1000, .kmalloc 20, .kfree, .kfree] ⟨h', []⟩ ∧
      Chain h'.mem h'.heapHead [⟨0x1000, 240, false⟩] 0 ∧ h'.heapUsed = 0 := by
  have hi₀ : HeapInv (heapInit (fun _ => 0) 0x1000 256) [⟨0x1000, 240, false⟩] :=
    heapInv_heapInit (fun _ => 0) (by decide) (by decide) (by decide) (by decide) (by decide)
  have hused : (heapInit (fun _ => 0) 0x1000 256).heapUsed = 0 := rfl
  generalize heapInit (fun _ => 0) 0x1000 256 = h at *
  have halloc₁ : alloc hdrSize 4 (align4 8) [⟨0x1000, 240, false⟩] =
      some (0x1010, [⟨0x1000, 8, true⟩, ⟨0x1018, 216, false⟩]) := by decide
  have halloc₃ : alloc hdrSize 4 (align4 20) [⟨0x1000, 8, true⟩, ⟨0x1018, 216, false⟩] =
      some (0x1028, [⟨0x1000, 8, true⟩, ⟨0x1018, 20, true⟩, ⟨0x103C, 180, false⟩]) := by decide
  obtain ⟨h₁, hk₁, hi₁, -⟩ := kmalloc_of_alloc hi₀ (by decide) halloc₁
  -- The second request does not fit: it is answered by `NULL` and changes no block.
  have hk₂ := kmalloc_of_full (n := 0x1000) hi₁ (by decide) (by decide)
  have hi₂ : HeapInv (h₁.kprintf (.outOfMemory (align4 0x1000))) _ := hi₁.kprintf (by simp)
  obtain ⟨h₃, hk₃, -, -⟩ := kmalloc_of_alloc hi₂ (by decide) halloc₃
  have hrun₁ : Run NestedHeap.Step ⟨h, []⟩ ([] ++ [.kmalloc 8]) ⟨h₁, [0x1010]⟩ :=
    .snoc (.nil _) ⟨0x1010, hk₁, rfl⟩
  have hrun₂ : Run NestedHeap.Step ⟨h, []⟩ ([.kmalloc 8] ++ [.kmalloc 0x1000]) ⟨_, [0x1010]⟩ :=
    .snoc hrun₁ ⟨0, hk₂, rfl⟩
  have hrun₃ : Run NestedHeap.Step ⟨h, []⟩ ([.kmalloc 8, .kmalloc 0x1000] ++ [.kmalloc 20])
      ⟨h₃, [0x1028, 0x1010]⟩ := .snoc hrun₂ ⟨0x1028, hk₃, rfl⟩
  have hrun₄ : Run NestedHeap.Step ⟨h, []⟩ ([.kmalloc 8, .kmalloc 0x1000, .kmalloc 20] ++ [.kfree])
      ⟨kfree h₃ 0x1028, [0x1010]⟩ := .snoc hrun₃ ⟨_, _, rfl, rfl⟩
  have hrun : Run NestedHeap.Step ⟨h, []⟩ ([.kmalloc 8, .kmalloc 0x1000, .kmalloc 20, .kfree] ++
      [.kfree]) ⟨kfree (kfree h₃ 0x1028) 0x1010, []⟩ := .snoc hrun₄ ⟨_, _, rfl, rfl⟩
  have hco : Coalesced [⟨0x1000, 240, false⟩] := List.isChain_singleton _
  obtain ⟨⟨hchain, -, -, hsame⟩, -⟩ := nested_restores hi₀ hco hrun
  exact ⟨_, hrun, hchain, hsame.trans hused⟩

end Lightstreak
