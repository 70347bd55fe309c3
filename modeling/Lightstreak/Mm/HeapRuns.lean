import Lightstreak.Mm.HeapChain

/-!
# Runs of the kernel heap

Every finite sequence of `kmalloc`, `kzalloc` and legal `kfree` calls after `heap_init` keeps the
block chain well formed. A call is legal when the code's own contract allows it: `kfree` takes
`NULL` or the payload of a block that is in use, and `kzalloc` a size that rounding does not wrap.

* `HeapInv.exec`: one legal call returns and keeps the invariant;
* `heap_wellFormed_of_run`: hence every reachable heap is well formed.
-/

namespace Lightstreak

open SysLib SysLib.FirstFit

/-- A call to the allocator, with its 32-bit argument. -/
inductive HeapOp
  | kmalloc (n : UInt32)
  | kzalloc (n : UInt32)
  | kfree (p : UInt32)
deriving DecidableEq, Repr

/-- `p` is the payload address of a block in use on the chain from `heap_head`. -/
def Allocated (h : HeapState) (p : ℕ) : Prop :=
  ∃ bs b, Chain h.mem h.heapHead bs 0 ∧ b ∈ bs ∧ b.used = true ∧ b.addr + hdrSize = p

namespace HeapOp

/-- The arguments the allocator may be called with in state `h`. -/
def Legal (h : HeapState) : HeapOp → Prop
  | kmalloc _ => True
  | kzalloc n => n.toNat ≤ 0xFFFFFFFC
  | kfree p => p.toNat = 0 ∨ Allocated h p.toNat

/-- The state after the call; `none` if it does not return. -/
def exec (h : HeapState) : HeapOp → Option HeapState
  | kmalloc n => (Lightstreak.kmalloc h n.toNat).map Prod.snd
  | kzalloc n => (Lightstreak.kzalloc h n.toNat).map Prod.snd
  | kfree p => some (Lightstreak.kfree h p.toNat)

end HeapOp

/-- One legal call that returns. -/
def HeapStep (h : HeapState) (op : HeapOp) (h' : HeapState) : Prop :=
  op.Legal h ∧ op.exec h = some h'

/-- The heap is a chain of blocks that tiles `[heap_start_addr, heap_end_addr)`. -/
structure HeapWellFormed (h : HeapState) (bs : List Block) : Prop where
  /-- Following `next` from `heap_head` visits `bs` and ends in `NULL`. -/
  chain : Chain h.mem h.heapHead bs 0
  /-- The list is in the order of addresses. -/
  increasing : bs.Pairwise fun b c => b.addr < c.addr
  /-- The blocks fill the heap without gaps. -/
  tiles : Tiles hdrSize h.heapStartAddr bs h.heapEndAddr
  /-- Each link is the address behind the block; only the block at the end has `NULL`. -/
  next : ∀ b ∈ bs, hdrNext h.mem b.addr =
    if b.addr + hdrSize + b.size = h.heapEndAddr then 0 else b.addr + hdrSize + b.size
  /-- All headers have the magic number. -/
  magic : ∀ b ∈ bs, hdrMagic h.mem b.addr = heapMagic
  /-- The sizes in the headers are multiples of four. -/
  aligned : ∀ b ∈ bs, hdrLen h.mem b.addr = b.size ∧ 4 ∣ b.size
  /-- `heap_used` counts the bytes in use. -/
  used : h.heapUsed = usedBytes bs

variable {h h' : HeapState} {bs : List Block}

/-- A block of a chain has its header in memory. -/
theorem Chain.hdrAt {m : Mem} {p q : ℕ} {b : Block} (hc : Chain m p bs q) (hb : b ∈ bs) :
    HdrAt m b := by
  obtain ⟨pre, post, rfl⟩ := List.append_of_mem hb
  obtain ⟨-, -, -, -, hh, -⟩ := chain_append.mp hc
  exact hh

/-- A sound heap is well formed. -/
theorem HeapInv.wellFormed (hi : HeapInv h bs) : HeapWellFormed h bs where
  chain := hi.chain
  increasing := hi.tiles.pairwise.imp fun {b c} hbc => by
    simp only [hdrSize] at hbc
    omega
  tiles := hi.tiles
  next _ hb := hi.chain.next_eq hi.tiles hb
  magic _ hb := (hi.chain.hdrAt hb).magic
  aligned b hb := ⟨(hi.chain.hdrAt hb).size, hi.aligned b hb⟩
  used := hi.used

/-- The blocks of a heap decide what is allocated. -/
theorem HeapInv.allocated_iff {p : ℕ} (hi : HeapInv h bs) :
    Allocated h p ↔ ∃ b ∈ bs, b.used = true ∧ b.addr + hdrSize = p := by
  constructor
  · rintro ⟨cs, b, hchain, hb, hused, hp⟩
    rw [← hi.chain.unique hchain] at hb
    exact ⟨b, hb, hused, hp⟩
  · rintro ⟨b, hb, hused, hp⟩
    exact ⟨bs, b, hi.chain, hb, hused, hp⟩

/-! ## The bounds of the heap never move -/

/-- `kmalloc` does not move the heap. -/
theorem kmalloc_bounds {n q : ℕ} (hk : kmalloc h n = some (q, h')) :
    h'.heapStartAddr = h.heapStartAddr ∧ h'.heapEndAddr = h.heapEndAddr := by
  rw [kmalloc] at hk
  split at hk
  · simp only [Option.some.injEq, Prod.mk.injEq] at hk
    exact hk.2 ▸ ⟨rfl, rfl⟩
  · -- Every way out of the search leaves the bounds alone, whichever block it stops at.
    refine loop_result (Q := fun r => r.2.heapStartAddr = h.heapStartAddr ∧
      r.2.heapEndAddr = h.heapEndAddr) (fun blk r hr => ?_) hk
    unfold kmallocTurn at hr
    split_ifs at hr
    all_goals
      simp only [Sum.inr.injEq] at hr
      exact hr ▸ ⟨rfl, rfl⟩

/-- No call moves the heap. -/
theorem HeapOp.exec_bounds {op : HeapOp} (he : op.exec h = some h') :
    h'.heapStartAddr = h.heapStartAddr ∧ h'.heapEndAddr = h.heapEndAddr := by
  cases op with
  | kmalloc n =>
    obtain ⟨⟨q, h₁⟩, hk, rfl⟩ := Option.map_eq_some_iff.mp he
    exact kmalloc_bounds hk
  | kzalloc n =>
    obtain ⟨⟨q, h₁⟩, hz, rfl⟩ := Option.map_eq_some_iff.mp he
    unfold Lightstreak.kzalloc at hz
    cases hk : Lightstreak.kmalloc h n.toNat with
    | none => simp [hk] at hz
    | some r =>
      obtain ⟨q, h₂⟩ := r
      -- Zeroing the block changes the bytes of the heap only.
      have hb := kmalloc_bounds hk
      simp only [hk] at hz
      split_ifs at hz
      all_goals
        simp only [Option.some.injEq, Prod.mk.injEq] at hz
        exact hz.2 ▸ hb
  | kfree p =>
    simp only [exec, Option.some.injEq] at he
    subst he
    unfold Lightstreak.kfree
    dsimp only
    split_ifs <;> exact ⟨rfl, rfl⟩

/-! ## One call, and whole runs -/

/-- A legal call returns and keeps the invariant. -/
theorem HeapInv.exec (hi : HeapInv h bs) {op : HeapOp} (hop : op.Legal h) :
    ∃ h' bs', op.exec h = some h' ∧ HeapInv h' bs' := by
  cases op with
  | kmalloc n =>
    by_cases hn : n.toNat = 0
    · exact ⟨h, bs, by simp [HeapOp.exec, Lightstreak.kmalloc, hn], hi⟩
    · obtain ⟨q, h', hk, ⟨bs', -, hi', -⟩ | ⟨-, -, hi', -⟩⟩ := kmalloc_spec hi hn
      · exact ⟨h', bs', by simp [HeapOp.exec, hk], hi'⟩
      · exact ⟨h', bs, by simp [HeapOp.exec, hk], hi'⟩
  | kzalloc n =>
    by_cases hn : n.toNat = 0
    · exact ⟨h, bs, by simp [HeapOp.exec, Lightstreak.kzalloc, Lightstreak.kmalloc, hn], hi⟩
    · obtain ⟨q, h', hk, ⟨bs', -, hi'⟩ | ⟨-, -, hi', -⟩⟩ := kzalloc_spec hi hn hop
      · exact ⟨h', bs', by simp [HeapOp.exec, hk], hi'⟩
      · exact ⟨h', bs, by simp [HeapOp.exec, hk], hi'⟩
  | kfree p =>
    rcases hop with hp | ⟨cs, b, hchain, hb, hused, hp⟩
    · exact ⟨h, bs, by simp [HeapOp.exec, Lightstreak.kfree, hp], hi⟩
    · -- Legality speaks of some chain; a memory has only one.
      obtain rfl := hi.chain.unique hchain
      exact ⟨_, _, rfl, hp ▸ (kfree_spec hi hb hused).1⟩

/-- The invariant along a run that starts from an initialised heap. -/
theorem heapInv_of_run (mem : Mem) {start size : ℕ} (hpos : 0 < start) (hstart : 4 ∣ start)
    (hsize : 4 ∣ size) (hmin : 16 ≤ size) (hend : start + size < 2 ^ 32) {ops : List HeapOp}
    (hrun : Run HeapStep (heapInit mem start size) ops h) :
    (∃ bs, HeapInv h bs) ∧ h.heapStartAddr = start ∧ h.heapEndAddr = start + size := by
  refine hrun.invariant (fun _ h => (∃ bs, HeapInv h bs) ∧ h.heapStartAddr = start ∧
    h.heapEndAddr = start + size) ?_ ?_
  · exact ⟨⟨_, heapInv_heapInit mem hpos hstart hsize hmin hend⟩, rfl, add32_eq hend⟩
  · rintro - h op h' ⟨⟨bs, hi⟩, hs, he⟩ ⟨hop, hexec⟩
    obtain ⟨h₁, bs', hexec', hi'⟩ := hi.exec hop
    obtain rfl : h₁ = h' := Option.some.inj (hexec'.symm.trans hexec)
    obtain ⟨hs', he'⟩ := HeapOp.exec_bounds hexec
    exact ⟨⟨bs', hi'⟩, hs'.trans hs, he'.trans he⟩

/-- After `heap_init` and every finite sequence of legal calls, the block chain is well formed
and fills the heap, `kmalloc` has not reported corruption, and every legal call returns. -/
theorem heap_wellFormed_of_run (mem : Mem) {start size : ℕ} (hpos : 0 < start)
    (hstart : 4 ∣ start) (hsize : 4 ∣ size) (hmin : 16 ≤ size) (hend : start + size < 2 ^ 32)
    {ops : List HeapOp} (hrun : Run HeapStep (heapInit mem start size) ops h) :
    (∃ bs, HeapWellFormed h bs) ∧ h.heapStartAddr = start ∧ h.heapEndAddr = start + size ∧
      (∀ blk, HeapMsg.corruption blk ∉ h.log) ∧
      ∀ op : HeapOp, op.Legal h → ∃ h', op.exec h = some h' := by
  obtain ⟨⟨bs, hi⟩, hs, he⟩ := heapInv_of_run mem hpos hstart hsize hmin hend hrun
  refine ⟨⟨bs, hi.wellFormed⟩, hs, he, hi.no_corruption, fun op hop => ?_⟩
  obtain ⟨h', -, hexec, -⟩ := hi.exec hop
  exact ⟨h', hexec⟩

/-- A heap of 64 bytes at `0x1000` after one allocation. -/
theorem heap_wellFormed_of_run_kmalloc :
    ∃ h, Run HeapStep (heapInit (fun _ => 0) 0x1000 64) [.kmalloc 8] h ∧
      ∃ bs, HeapWellFormed h bs := by
  have hnil : Run HeapStep (heapInit (fun _ => 0) 0x1000 64) [] _ := Run.nil _
  obtain ⟨-, -, -, -, hlive⟩ := heap_wellFormed_of_run (fun _ => 0) (by decide) (by decide)
    (by decide) (by decide) (by decide) hnil
  obtain ⟨h, hexec⟩ := hlive (.kmalloc 8) trivial
  have hrun : Run HeapStep (heapInit (fun _ => 0) 0x1000 64) [.kmalloc 8] h :=
    Run.snoc (Run.nil _) ⟨trivial, hexec⟩
  exact ⟨h, hrun, (heap_wellFormed_of_run (fun _ => 0) (by decide) (by decide) (by decide)
    (by decide) (by decide) hrun).1⟩

end Lightstreak
