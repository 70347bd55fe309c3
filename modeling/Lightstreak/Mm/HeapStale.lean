import Lightstreak.Mm.HeapPrivate

/-!
# Freeing a pointer twice

`kfree` looks at the sixteen bytes before its argument. For a pointer that was handed out once and
is no block in use any more, these bytes may be the header of a free block, an old header inside a
payload, or an old header that a new one has partly overwritten. `kfree` goes on if it finds the
canary and a used byte there.

* `HeapInv.len_ne_zero_of_overlap`: a canary that overlaps a header of the chain is followed by a
  word that is not zero, because sizes and links are multiples of four and the canary is not;
* `StaleInv`: hence the same holds before every pointer that was ever returned, along runs in which
  clients write nothing (`staleInv_of_run`);
* `kfree_stale_iff`: so that a call that passes the check always changes `heap_used`, and a second
  `kfree` is harmless if and only if the check fails;
* `kfree_stale_damage`: after re-splitting at a distance of four bytes the check passes.
-/

namespace Lightstreak

open SysLib SysLib.FirstFit

variable {h h' : HeapState} {bs bs' : List Block} {b : Block} {ptrs : List ℕ} {a n p : ℕ}

/-- `kfree(p)` finds the canary and a used byte before `p`. -/
def PassesCheck (h : HeapState) (p : ℕ) : Prop :=
  hdrMagic h.mem (sub32 p hdrSize) = heapMagic ∧ hdrUsed h.mem (sub32 p hdrSize) ≠ 0

instance (h : HeapState) (p : ℕ) : Decidable (PassesCheck h p) := by
  unfold PassesCheck
  infer_instance

namespace HeapOp

/-- A call with the pointer that it returns, `0` for `kfree`. -/
def call (h : HeapState) : HeapOp → Option (ℕ × HeapState)
  | kmalloc n => Lightstreak.kmalloc h n.toNat
  | kzalloc n => Lightstreak.kzalloc h n.toNat
  | kfree p => some (0, Lightstreak.kfree h p.toNat)

/-- A request of at most 32 KB, or a `kfree` of `NULL`, of a block in use, or of a pointer that
fails the check. -/
def Harmless (h : HeapState) : HeapOp → Prop
  | kmalloc n => n.toNat ≤ 32 * 1024
  | kzalloc n => n.toNat ≤ 32 * 1024
  | kfree p => p.toNat = 0 ∨ Allocated h p.toNat ∨ ¬PassesCheck h p.toNat

end HeapOp

/-- The headers of the chain and `heap_used` are the same in `h'` as in `h`. -/
structure SameHeap (h h' : HeapState) : Prop where
  /-- No header has changed. -/
  headers : ∀ bs, Chain h.mem h.heapHead bs 0 → ∀ b ∈ bs, ∀ x, b.addr ≤ x →
    x < b.addr + hdrSize → h'.mem x = h.mem x
  /-- The count of used bytes has not changed. -/
  used : h'.heapUsed = h.heapUsed

/-! ## Old headers -/

/-- The words at `a` and `a + 4`, read as the first two fields of a header, are not a canary and a
size of zero. -/
def LenNeZero (m : Mem) (a : ℕ) : Prop := hdrMagic m a = heapMagic → hdrLen m a ≠ 0

theorem LenNeZero.congr {m m' : Mem} (h : LenNeZero m a)
    (heq : ∀ x, a ≤ x → x < a + 8 → m' x = m x) : LenNeZero m' a := by
  have hmagic : hdrMagic m' a = hdrMagic m a :=
    Mem.load32_congr fun x h₁ h₂ => heq x h₁ (by omega)
  have hlen : hdrLen m' a = hdrLen m a :=
    Mem.load32_congr fun x h₁ h₂ => heq x (by omega) (by omega)
  intro hm
  rw [hlen]
  exact h (hmagic.symm.trans hm)

/-- The canary is no multiple of four. -/
theorem ne_heapMagic_of_dvd {v : ℕ} (h : 4 ∣ v) : v ≠ heapMagic := by
  simp only [heapMagic]
  omega

/-- The lowest byte of the canary is `0x42`. -/
theorem load32_ne_heapMagic {m : Mem} (h : (m a).toNat ≠ 0x42) : m.load32 a ≠ heapMagic := by
  have hmod := m.load32_mod_256 a
  simp only [heapMagic]
  omega

/-- Two words that overlap a header of the chain. -/
theorem HeapInv.len_ne_zero_of_overlap (hi : HeapInv h bs) (hpos : ∀ b ∈ bs, 0 < b.size)
    (hb : b ∈ bs) (ha : 4 ∣ a) (hlo : b.addr < a + 8) (hhi : a < b.addr + 16) :
    LenNeZero h.mem a := by
  have haddr := hi.four_dvd_addr hb
  have hhdr := hi.chain.hdrAt hb
  have hcases : a + 4 = b.addr ∨ a = b.addr ∨ a = b.addr + 4 ∨ a = b.addr + 8 ∨
      a = b.addr + 12 := by omega
  rcases hcases with heq | rfl | rfl | rfl | rfl
  · -- The second word is the canary of the header.
    intro _
    rw [hdrLen, heq]
    exact fun h0 => absurd (hhdr.magic.symm.trans h0) (by decide)
  · intro _
    rw [hhdr.size]
    exact (hpos b hb).ne'
  · -- The first word is the size of the header.
    exact fun hm => absurd (hhdr.size.symm.trans hm) (ne_heapMagic_of_dvd (hi.aligned b hb))
  · -- The first word starts with the used byte.
    refine fun hm => absurd hm (load32_ne_heapMagic ?_)
    have hused : h.mem (b.addr + 8) = if b.used then 1 else 0 := hhdr.used
    rw [hused]
    cases b.used <;> decide
  · -- The first word is the link of the header.
    refine fun hm => absurd hm (ne_heapMagic_of_dvd ?_)
    have hnext : h.mem.load32 (b.addr + 12) = _ := hi.chain.next_eq hi.tiles hb
    rw [hdrMagic, hnext]
    split
    · exact Nat.dvd_zero 4
    · exact Nat.dvd_add (Nat.dvd_add haddr (by decide)) (hi.aligned b hb)

/-- The invariant of runs in which clients write nothing: the heap is well formed and has no empty
blocks, and before every pointer returned so far there is no canary followed by a zero. -/
structure StaleInv (h : HeapState) (bs : List Block) (ptrs : List ℕ) : Prop where
  /-- The heap is sound. -/
  inv : HeapInv h bs
  /-- No block is empty. -/
  size_pos : ∀ b ∈ bs, 0 < b.size
  /-- The words before a pointer that was returned once are not the header of an empty block. -/
  stale : ∀ p ∈ ptrs, p ≠ 0 → ∃ a, p = a + hdrSize ∧ 4 ∣ a ∧ p < 2 ^ 32 ∧ LenNeZero h.mem a

/-- A call that writes only headers of the chain it leaves keeps the invariant. -/
theorem StaleInv.of_frame (hs : StaleInv h bs ptrs) (hi : HeapInv h' bs')
    (hpos : ∀ b ∈ bs', 0 < b.size)
    (hframe : ∀ x, (∀ c ∈ bs', x < c.addr ∨ c.addr + 16 ≤ x) → h'.mem x = h.mem x) :
    StaleInv h' bs' ptrs := by
  refine ⟨hi, hpos, fun p hp hp0 => ?_⟩
  obtain ⟨a, rfl, ha, hlt, hlen⟩ := hs.stale p hp hp0
  refine ⟨a, rfl, ha, hlt, ?_⟩
  by_cases hover : ∃ c ∈ bs', c.addr < a + 8 ∧ a < c.addr + 16
  · obtain ⟨c, hc, hlo, hhi⟩ := hover
    exact hi.len_ne_zero_of_overlap hpos hc ha hlo hhi
  · -- Both words lie in payloads, and the call has not written to them.
    refine hlen.congr fun x h₁ h₂ => hframe x fun c hc => ?_
    by_contra hin
    exact hover ⟨c, hc, by omega, by omega⟩

/-- The pointer of a block in use may be added to those returned. -/
theorem StaleInv.snoc (hs : StaleInv h bs ptrs) (hp : p = 0 ∨ ∃ b ∈ bs, p = b.addr + hdrSize) :
    StaleInv h bs (ptrs ++ [p]) := by
  refine ⟨hs.inv, hs.size_pos, fun q hq hq0 => ?_⟩
  rcases List.mem_append.mp hq with hq | hq
  · exact hs.stale q hq hq0
  · obtain rfl := List.mem_singleton.mp hq
    obtain ⟨b, hb, rfl⟩ := hp.resolve_left hq0
    have hbd := hs.inv.block_bounds hb
    have hend := hs.inv.end_lt
    have hsize := hs.size_pos b hb
    refine ⟨b.addr, rfl, hs.inv.four_dvd_addr hb, by simp only [hdrSize]; omega, ?_⟩
    exact hs.inv.len_ne_zero_of_overlap hs.size_pos hb (hs.inv.four_dvd_addr hb) (by omega)
      (by omega)

/-! ## Calls -/

/-- `kmalloc` keeps the invariant, and returns the payload of a block in use. -/
theorem StaleInv.kmalloc (hs : StaleInv h bs ptrs) (hn : n ≠ 0) (hmax : n ≤ 0xFFFFFFFC)
    (hk : kmalloc h n = some (p, h')) :
    ∃ bs', StaleInv h' bs' ptrs ∧
      (p = 0 ∨ ∃ b ∈ bs', b.used = true ∧ p = b.addr + hdrSize ∧ n ≤ b.size) := by
  obtain ⟨q, h₁, hk₁, hcase⟩ := kmalloc_spec hs.inv hn
  obtain ⟨rfl, rfl⟩ := Prod.mk.inj (Option.some.inj (hk.symm.trans hk₁))
  have hle := le_align4 hmax
  rcases hcase with ⟨bs', halloc, hi', hframe⟩ | ⟨hnull, -, hi', hmem⟩
  · -- What is split off a block is at least a word.
    have hpos : ∀ c ∈ bs', 0 < c.size := by
      obtain ⟨pre, d, post, rfl, -, hd, heq⟩ := alloc_eq_some_iff.mp halloc
      obtain ⟨-, rfl⟩ := Prod.mk.inj heq
      intro c hc
      simp only [List.append_assoc, List.mem_append] at hc
      rcases hc with hc | hc | hc
      · exact hs.size_pos c (by simp [hc])
      · refine size_of_mem_carve (P := (0 < ·)) (hs.size_pos d (by simp)) (fun hroom => ?_) hc
        exact ⟨by omega, by omega⟩
      · exact hs.size_pos c (by simp [hc])
    obtain ⟨b, hb, hused, hq, hsize⟩ := exists_mem_of_alloc halloc
    exact ⟨bs', hs.of_frame hi' hpos hframe, .inr ⟨b, hb, hused, hq, by omega⟩⟩
  · exact ⟨bs, hs.of_frame hi' hs.size_pos fun x _ => by rw [hmem], .inl hnull⟩

/-- Zeroing a payload from its start removes canaries, or leaves both words alone. -/
theorem StaleInv.zero_payload (hs : StaleInv h bs ptrs) (hb : b ∈ bs) (hn : n ≤ b.size) :
    StaleInv { h with mem := h.mem.fill (b.addr + 16) 0 n } bs ptrs := by
  have hi' : HeapInv { h with mem := h.mem.fill (b.addr + 16) 0 n } bs :=
    hs.inv.write_payload hb fun x hx => Mem.fill_of_outside _ _ (by omega)
  refine ⟨hi', hs.size_pos, fun p hp hp0 => ?_⟩
  obtain ⟨a, rfl, ha, hlt, hlen⟩ := hs.stale p hp hp0
  refine ⟨a, rfl, ha, hlt, ?_⟩
  by_cases hover : b.addr < a + 8 ∧ a < b.addr + 16
  · exact hi'.len_ne_zero_of_overlap hs.size_pos hb ha hover.1 hover.2
  by_cases hin : b.addr + 16 ≤ a ∧ a < b.addr + 16 + n
  · -- The first byte of the first word is now zero.
    refine fun hm => absurd hm (load32_ne_heapMagic ?_)
    dsimp only
    rw [Mem.fill_apply, if_pos hin]
    decide
  · exact hlen.congr fun x h₁ h₂ => Mem.fill_of_outside _ _ (by omega)

/-- `kzalloc` keeps the invariant, too. -/
theorem StaleInv.kzalloc (hs : StaleInv h bs ptrs) (hn : n ≠ 0) (hmax : n ≤ 0xFFFFFFFC)
    (hz : kzalloc h n = some (p, h')) :
    ∃ bs', StaleInv h' bs' ptrs ∧ (p = 0 ∨ ∃ b ∈ bs', p = b.addr + hdrSize) := by
  by_cases hp : p = 0
  · -- `NULL` is returned by `kmalloc` already.
    subst hp
    obtain ⟨q, h₁, hz₁, hcase⟩ := kzalloc_spec hs.inv hn hmax
    obtain ⟨rfl, rfl⟩ := Prod.mk.inj (Option.some.inj (hz.symm.trans hz₁))
    rcases hcase with ⟨bs', halloc, -⟩ | ⟨-, -, hi', hmem⟩
    · obtain ⟨b, -, -, hq, -⟩ := exists_mem_of_alloc halloc
      simp [hdrSize] at hq
    · exact ⟨bs, hs.of_frame hi' hs.size_pos fun x _ => by rw [hmem], .inl rfl⟩
  · obtain ⟨h₁, hk, rfl⟩ := kzalloc_eq_some hz hp
    obtain ⟨bs', hs', hcase⟩ := hs.kmalloc hn hmax hk
    obtain ⟨b, hb, -, rfl, hsize⟩ := hcase.resolve_left hp
    have hbd := hs'.inv.block_bounds hb
    have hend := hs'.inv.end_lt
    refine ⟨bs', ?_, .inr ⟨b, hb, rfl⟩⟩
    rw [hdrSize, zeroBytes_eq_fill _ (by omega)]
    exact hs'.zero_payload hb hsize

/-- Freeing a block in use keeps the invariant. -/
theorem StaleInv.kfree (hs : StaleInv h bs ptrs) (hb : b ∈ bs) (hused : b.used = true) :
    ∃ bs', StaleInv (kfree h (b.addr + hdrSize)) bs' ptrs := by
  obtain ⟨hi', hframe⟩ := kfree_spec hs.inv hb hused
  obtain ⟨pre, post, rfl⟩ := List.append_of_mem hb
  have hother : ∀ c ∈ pre, c.addr + hdrSize ≠ b.addr + hdrSize := by
    intro c hc
    have hcb := (hs.inv.tiles.split.1.bounds hc).2
    simp only [hdrSize] at hcb ⊢
    omega
  rw [release_of_mem hother hused rfl] at hi'
  refine ⟨_, hs.of_frame hi' (fun c hc => ?_) fun x hx => hframe x ?_⟩
  · rcases List.mem_append.mp hc with hc | hc
    · exact hs.size_pos c (by simp [hc])
    · refine size_of_mem_merge (P := (0 < ·)) (hs.size_pos b (by simp)) (fun d hd => ?_) hc
      exact ⟨hs.size_pos d (by simp [hd]), by have := hs.size_pos b (by simp); omega⟩
  · -- The merged block keeps the address of the freed one.
    obtain ⟨d, hd, haddr⟩ : ∃ d ∈ merge hdrSize b post, d.addr = b.addr := by
      cases post with
      | nil => exact ⟨_, List.mem_singleton_self _, rfl⟩
      | cons c post =>
        rw [merge]
        split <;> exact ⟨_, List.mem_cons_self, rfl⟩
    rw [← haddr]
    exact hx d (by simp [hd])

/-- A call that fails the check of `kfree` prints, and does nothing else. -/
theorem kfree_of_not_passesCheck (h0 : p ≠ 0) (hcheck : ¬PassesCheck h p) :
    ∃ msg, (∀ blk, msg ≠ HeapMsg.corruption blk) ∧ kfree h p = h.kprintf msg := by
  rw [kfree, if_neg h0]
  dsimp only
  by_cases hmagic : hdrMagic h.mem (sub32 p hdrSize) = heapMagic
  · have hused : hdrUsed h.mem (sub32 p hdrSize) = 0 := by
      by_contra hne
      exact hcheck ⟨hmagic, hne⟩
    rw [if_neg (not_not_intro hmagic), if_pos hused]
    exact ⟨_, by simp, rfl⟩
  · rw [if_pos hmagic]
    exact ⟨_, by simp, rfl⟩

/-- The pointer that a call returns is recorded, and the invariant kept. -/
theorem StaleInv.call {op : HeapOp} {r : ℕ × HeapState} (hs : StaleInv h bs ptrs)
    (hop : op.Harmless h) (hcall : op.call h = some r) :
    ∃ bs', StaleInv r.2 bs' (ptrs ++ [r.1]) := by
  obtain ⟨p, h'⟩ := r
  cases op with
  | kmalloc n =>
    by_cases hn : n.toNat = 0
    · simp only [HeapOp.call, Lightstreak.kmalloc, if_pos hn, Option.some.injEq,
        Prod.mk.injEq] at hcall
      obtain ⟨rfl, rfl⟩ := hcall
      exact ⟨bs, hs.snoc (.inl rfl)⟩
    · have hmax : n.toNat ≤ 32 * 1024 := hop
      obtain ⟨bs', hs', hp⟩ := hs.kmalloc hn (by omega) hcall
      refine ⟨bs', hs'.snoc (hp.imp id ?_)⟩
      rintro ⟨b, hb, -, hq, -⟩
      exact ⟨b, hb, hq⟩
  | kzalloc n =>
    by_cases hn : n.toNat = 0
    · simp only [HeapOp.call, Lightstreak.kzalloc, Lightstreak.kmalloc, if_pos hn, ne_eq,
        not_true_eq_false, ↓reduceIte, Option.some.injEq, Prod.mk.injEq] at hcall
      obtain ⟨rfl, rfl⟩ := hcall
      exact ⟨bs, hs.snoc (.inl rfl)⟩
    · have hmax : n.toNat ≤ 32 * 1024 := hop
      obtain ⟨bs', hs', hp⟩ := hs.kzalloc hn (by omega) hcall
      exact ⟨bs', hs'.snoc hp⟩
  | kfree q =>
    obtain ⟨rfl, rfl⟩ := Prod.mk.inj (Option.some.inj hcall)
    -- `NULL`, a block in use, or a pointer that fails the check.
    rcases hop with hq | ⟨cs, b, hchain, hb, hused, hq⟩ | hcheck
    · refine ⟨bs, StaleInv.snoc ?_ (.inl rfl)⟩
      rwa [Lightstreak.kfree, if_pos hq]
    · obtain rfl := hs.inv.chain.unique hchain
      obtain ⟨bs', hs'⟩ := hs.kfree hb hused
      rw [hq] at hs'
      exact ⟨bs', hs'.snoc (.inl rfl)⟩
    · by_cases hq : q.toNat = 0
      · refine ⟨bs, StaleInv.snoc ?_ (.inl rfl)⟩
        rwa [Lightstreak.kfree, if_pos hq]
      · obtain ⟨msg, hmsg, heq⟩ := kfree_of_not_passesCheck hq hcheck
        rw [heq]
        exact ⟨bs, (hs.of_frame (hs.inv.kprintf hmsg) hs.size_pos fun _ _ => rfl).snoc (.inl rfl)⟩

/-- The invariant along a run of harmless calls from an initialised heap of 2 MB. -/
theorem staleInv_of_run (mem : Mem) {start : ℕ} (hpos : 0 < start) (hstart : 4 ∣ start)
    (hend : start + 2 * 1024 * 1024 < 2 ^ 32) {ops : List HeapOp}
    (hok : AlongRun HeapOp.call HeapOp.Harmless (heapInit mem start (2 * 1024 * 1024)) ops)
    (hrun : feed HeapOp.call (heapInit mem start (2 * 1024 * 1024)) ops = some (ptrs, h)) :
    ∃ bs, StaleInv h bs ptrs := by
  have hinit : ∃ bs, StaleInv (heapInit mem start (2 * 1024 * 1024)) bs [] := by
    refine ⟨_, heapInv_heapInit mem hpos hstart (by decide) (by decide) hend, ?_, by simp⟩
    simp
  refine hok.invariant (fun ptrs h => ∃ bs, StaleInv h bs ptrs) ?_ hinit hrun
  rintro ptrs h op r ⟨bs, hs⟩ hop hcall
  exact hs.call hop hcall

/-- Double frees: in every run of calls on a heap of 2 MB in which clients write nothing to it,
`kfree` of a pointer that was returned before leaves all headers of the chain and `heap_used`
unchanged if and only if the bytes before the pointer fail its check. -/
theorem kfree_stale_iff (mem : Mem) {start : ℕ} (hpos : 0 < start) (hstart : 4 ∣ start)
    (hend : start + 2 * 1024 * 1024 < 2 ^ 32) {ops : List HeapOp}
    (hok : AlongRun HeapOp.call HeapOp.Harmless (heapInit mem start (2 * 1024 * 1024)) ops)
    (hrun : feed HeapOp.call (heapInit mem start (2 * 1024 * 1024)) ops = some (ptrs, h))
    (hp : p ∈ ptrs) (hp0 : p ≠ 0) : SameHeap h (kfree h p) ↔ ¬PassesCheck h p := by
  obtain ⟨bs, hs⟩ := staleInv_of_run mem hpos hstart hend hok hrun
  constructor
  · rintro hsame ⟨hmagic, hused⟩
    -- The word after the canary is not zero, and is subtracted from `heap_used`.
    obtain ⟨a, rfl, -, hlt, hlen⟩ := hs.stale p hp hp0
    have hblk : sub32 (a + hdrSize) hdrSize = a := by
      rw [sub32_eq hlt (by simp only [hdrSize]; omega), Nat.add_sub_cancel]
    rw [hblk] at hmagic hused
    have hzero := hlen hmagic
    have hlen_lt := h.mem.load32_lt (a + 4)
    have heq := hsame.used
    rw [kfree, if_neg hp0] at heq
    simp only [hblk, hmagic, ne_eq, not_true_eq_false, ↓reduceIte, hused] at heq
    have hused_lt : h.heapUsed < 2 ^ 32 := by
      have := hs.inv.tiles.usedBytes_le
      have := hs.inv.end_lt
      rw [hs.inv.used]
      omega
    simp only [hdrLen, sub32] at hzero heq
    omega
  · intro hcheck
    obtain ⟨msg, -, heq⟩ := kfree_of_not_passesCheck hp0 hcheck
    rw [heq]
    exact ⟨fun _ _ _ _ _ _ _ => rfl, rfl⟩

/-! ## Two runs -/

/-- The heap of 2 MB at `0x1000`, which is one free block. -/
theorem heapInv_twoMegabytes :
    HeapInv (heapInit (fun _ => 0) 0x1000 (2 * 1024 * 1024)) [⟨0x1000, 2097136, false⟩] :=
  heapInv_heapInit _ (by decide) (by decide) (by decide) (by decide) (by decide)

/-- A block that is freed twice in a row. -/
theorem kfree_stale_iff_twice :
    ∃ ptrs h, feed HeapOp.call (heapInit (fun _ => 0) 0x1000 (2 * 1024 * 1024))
        [.kmalloc 16, .kfree 0x1010] = some (ptrs, h) ∧
      0x1010 ∈ ptrs ∧ ¬Allocated h 0x1010 ∧ SameHeap h (kfree h 0x1010) := by
  have halloc : alloc hdrSize 4 (align4 16) [⟨0x1000, 2097136, false⟩] =
      some (0x1010, [⟨0x1000, 16, true⟩, ⟨0x1020, 2097104, false⟩]) := by decide
  obtain ⟨h₁, hk, hi₁, -⟩ := kmalloc_of_alloc heapInv_twoMegabytes (by decide) halloc
  obtain ⟨hi₂, -⟩ := kfree_spec hi₁ List.mem_cons_self rfl
  have hlive : Allocated h₁ 0x1010 := hi₁.allocated_iff.mpr ⟨_, List.mem_cons_self, rfl, rfl⟩
  have hcall : HeapOp.call (heapInit (fun _ => 0) 0x1000 (2 * 1024 * 1024)) (.kmalloc 16) =
      some (0x1010, h₁) := hk
  have hfree : HeapOp.call h₁ (.kfree 0x1010) = some (0, kfree h₁ 0x1010) := rfl
  have hrun : feed HeapOp.call (heapInit (fun _ => 0) 0x1000 (2 * 1024 * 1024))
      [.kmalloc 16, .kfree 0x1010] = some ([0x1010, 0], kfree h₁ 0x1010) := by
    rw [feed_cons_of_some hcall, feed_cons_of_some hfree]
    rfl
  have hok : AlongRun HeapOp.call HeapOp.Harmless
      (heapInit (fun _ => 0) 0x1000 (2 * 1024 * 1024)) [.kmalloc 16, .kfree 0x1010] :=
    alongRun_cons (show (16 : UInt32).toNat ≤ 32 * 1024 by decide) hcall
      (alongRun_cons (.inr (.inl hlive)) hfree trivial)
  -- The header is still the one of a block of the chain, which is free.
  have hheader := hi₂.chain.hdrAt List.mem_cons_self
  have hfail : ¬PassesCheck (kfree h₁ 0x1010) 0x1010 := fun hcheck => hcheck.2 hheader.used
  exact ⟨_, _, hrun, by decide, fun hlive' => absurd (hi₂.allocated_iff.mp hlive') (by decide),
    (kfree_stale_iff _ (by decide) (by decide) (by decide) hok hrun (by decide)
      (by decide)).mpr hfail⟩

/-- The calls after which a second `kfree(0x1030)` passes the check: two blocks of 16 bytes are
allocated and freed, and a block of 20 bytes puts the next header four bytes behind the old one. -/
def resplitCalls : List HeapOp :=
  [.kmalloc 16, .kmalloc 16, .kfree 0x1030, .kfree 0x1010, .kmalloc 20]

/-- The calls can be made, and the last two leave the old header at `0x1020` alone. -/
theorem exists_feed_resplitCalls :
    ∃ h, AlongRun HeapOp.call HeapOp.Harmless
        (heapInit (fun _ => 0) 0x1000 (2 * 1024 * 1024)) resplitCalls ∧
      feed HeapOp.call (heapInit (fun _ => 0) 0x1000 (2 * 1024 * 1024)) resplitCalls =
        some ([0x1010, 0x1030, 0, 0, 0x1010], h) ∧
      HeapInv h [⟨0x1000, 20, true⟩, ⟨0x1024, 2097100, false⟩] ∧
      hdrMagic h.mem 0x1020 = heapMagic := by
  have halloc₁ : alloc hdrSize 4 (align4 16) [⟨0x1000, 2097136, false⟩] =
      some (0x1010, [⟨0x1000, 16, true⟩, ⟨0x1020, 2097104, false⟩]) := by decide
  have halloc₂ : alloc hdrSize 4 (align4 16) [⟨0x1000, 16, true⟩, ⟨0x1020, 2097104, false⟩] =
      some (0x1030, [⟨0x1000, 16, true⟩, ⟨0x1020, 16, true⟩, ⟨0x1040, 2097072, false⟩]) := by
    decide
  have halloc₅ : alloc hdrSize 4 (align4 20) [⟨0x1000, 2097136, false⟩] =
      some (0x1010, [⟨0x1000, 20, true⟩, ⟨0x1024, 2097100, false⟩]) := by decide
  obtain ⟨h₁, hk₁, hi₁, -⟩ := kmalloc_of_alloc heapInv_twoMegabytes (by decide) halloc₁
  obtain ⟨h₂, hk₂, hi₂, -⟩ := kmalloc_of_alloc hi₁ (by decide) halloc₂
  obtain ⟨hi₃, -⟩ := kfree_spec hi₂ (List.mem_cons_of_mem _ List.mem_cons_self) rfl
  obtain ⟨hi₄, hframe₄⟩ := kfree_spec hi₃ List.mem_cons_self rfl
  obtain ⟨h₅, hk₅, hi₅, hframe₅⟩ := kmalloc_of_alloc hi₄ (by decide) halloc₅
  have hlive₂ : Allocated h₂ 0x1030 :=
    hi₂.allocated_iff.mpr ⟨_, List.mem_cons_of_mem _ List.mem_cons_self, rfl, rfl⟩
  have hlive₃ : Allocated (kfree h₂ 0x1030) 0x1010 :=
    hi₃.allocated_iff.mpr ⟨_, List.mem_cons_self, rfl, rfl⟩
  -- The five calls.
  have hcall₁ : HeapOp.call (heapInit (fun _ => 0) 0x1000 (2 * 1024 * 1024)) (.kmalloc 16) =
      some (0x1010, h₁) := hk₁
  have hcall₂ : HeapOp.call h₁ (.kmalloc 16) = some (0x1030, h₂) := hk₂
  have hcall₃ : HeapOp.call h₂ (.kfree 0x1030) = some (0, kfree h₂ 0x1030) := rfl
  have hcall₄ : HeapOp.call (kfree h₂ 0x1030) (.kfree 0x1010) =
      some (0, kfree (kfree h₂ 0x1030) 0x1010) := rfl
  have hcall₅ : HeapOp.call (kfree (kfree h₂ 0x1030) 0x1010) (.kmalloc 20) =
      some (0x1010, h₅) := hk₅
  have hsmall : ∀ n : UInt32, n.toNat ≤ 20 → n.toNat ≤ 32 * 1024 := fun n hn => by omega
  have hok : AlongRun HeapOp.call HeapOp.Harmless
      (heapInit (fun _ => 0) 0x1000 (2 * 1024 * 1024)) resplitCalls :=
    alongRun_cons (hsmall 16 (by decide)) hcall₁ <|
    alongRun_cons (hsmall 16 (by decide)) hcall₂ <|
    alongRun_cons (.inr (.inl hlive₂)) hcall₃ <|
    alongRun_cons (.inr (.inl hlive₃)) hcall₄ <|
    alongRun_cons (hsmall 20 (by decide)) hcall₅ trivial
  have hrun : feed HeapOp.call (heapInit (fun _ => 0) 0x1000 (2 * 1024 * 1024)) resplitCalls =
      some ([0x1010, 0x1030, 0, 0, 0x1010], h₅) := by
    rw [resplitCalls, feed_cons_of_some hcall₁, feed_cons_of_some hcall₂,
      feed_cons_of_some hcall₃, feed_cons_of_some hcall₄, feed_cons_of_some hcall₅]
    rfl
  -- The header is at no address that the last two calls write to.
  have hold := hi₃.chain.hdrAt (List.mem_cons_of_mem _ List.mem_cons_self)
  have hmagic : hdrMagic h₅.mem 0x1020 = heapMagic := by
    refine Eq.trans (Mem.load32_congr fun x hlo hhi => ?_) hold.magic
    refine (hframe₅ x ?_).trans (hframe₄ x ?_)
    · simp only [List.forall_mem_cons]
      exact ⟨by omega, by omega, by simp⟩
    · dsimp only
      omega
  exact ⟨h₅, hok, hrun, hi₅, hmagic⟩

/-- The old header at `0x1020` still has its canary, and its used byte is now the low byte of the
size `0x1FFFCC` in the header at `0x1024`. The second `kfree` subtracts the canary of that header
from `heap_used`. -/
theorem kfree_stale_damage :
    ∃ ptrs h, AlongRun HeapOp.call HeapOp.Harmless
        (heapInit (fun _ => 0) 0x1000 (2 * 1024 * 1024)) resplitCalls ∧
      feed HeapOp.call (heapInit (fun _ => 0) 0x1000 (2 * 1024 * 1024)) resplitCalls =
        some (ptrs, h) ∧
      0x1030 ∈ ptrs ∧ ¬Allocated h 0x1030 ∧ h.heapUsed = 20 ∧
      (kfree h 0x1030).heapUsed = 0x3F0011D2 ∧ ¬SameHeap h (kfree h 0x1030) := by
  obtain ⟨h, hok, hrun, hi, hmagic⟩ := exists_feed_resplitCalls
  have hstale : ¬Allocated h 0x1030 := fun hlive => absurd (hi.allocated_iff.mp hlive) (by decide)
  have hnew := hi.chain.hdrAt (List.mem_cons_of_mem _ List.mem_cons_self)
  -- The byte at `0x1028` is the lowest of the new size.
  have hused : hdrUsed h.mem 0x1020 ≠ 0 := by
    have hbyte := h.mem.load32_mod_256 0x1028
    rw [show h.mem.load32 0x1028 = 2097100 from hnew.size] at hbyte
    intro hzero
    rw [show h.mem 0x1028 = 0 from hzero] at hbyte
    exact absurd hbyte (by decide)
  have hcount : h.heapUsed = 20 := hi.used
  have hafter : (kfree h 0x1030).heapUsed = 0x3F0011D2 := by
    have hblk : sub32 0x1030 hdrSize = 0x1020 := by decide
    have hlen : hdrLen h.mem 0x1020 = heapMagic := hnew.magic
    rw [kfree, if_neg (by decide)]
    simp only [hblk, hmagic, ne_eq, not_true_eq_false, ↓reduceIte, hused, hlen, hcount]
    decide
  refine ⟨_, h, hok, hrun, by decide, hstale, hcount, hafter, fun hsame => ?_⟩
  have heq := hsame.used
  rw [hafter, hcount] at heq
  cases heq

end Lightstreak
