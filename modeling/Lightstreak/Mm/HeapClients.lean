import Lightstreak.Mm.HeapPrivate

/-!
# Clients of the kernel heap

Headers and client data share one memory. Here clients write to what they have allocated, while
others allocate and free around them.

* `HeapInv.kmalloc_inUse`, `HeapInv.kzalloc_inUse`, `HeapInv.kfree_inUse`: how each call changes
  the blocks in use, and that it leaves their payloads alone;
* `ClientInv`: each live allocation has a block of its own and holds what was written to it;
* `liveData_of_run`: hence no call touches live data, and no client write touches a header.
-/

namespace Lightstreak

open SysLib SysLib.FirstFit

variable {h h' h'' : HeapState} {bs bs' : List Block} {b : Block} {n p : ℕ} {ptrs : List ℕ}

/-! ## What the calls do to the blocks in use -/

/-- The payloads of the blocks in use are the same in `h'` as in `h`. -/
def KeepsPayloads (h : HeapState) (bs : List Block) (h' : HeapState) : Prop :=
  ∀ b ∈ bs, b.used = true → ∀ x, b.addr + 16 ≤ x → x < b.addr + 16 + b.size → h'.mem x = h.mem x

/-- A byte of one payload is in no other. -/
theorem HeapInv.payload_apart {c : Block} (hi : HeapInv h bs) (hb : b ∈ bs) (hc : c ∈ bs)
    (hne : b.addr ≠ c.addr) {x : ℕ} (hlo : c.addr + 16 ≤ x) (hhi : x < c.addr + 16 + c.size) :
    x < b.addr + 16 ∨ b.addr + 16 + b.size ≤ x := by
  have hsize : hdrSize = 16 := rfl
  rcases hi.tiles.apart hb hc with rfl | hlt | hlt
  · exact absurd rfl hne
  · exact .inr (by omega)
  · exact .inl (by omega)

theorem KeepsPayloads.mono (hkeep : KeepsPayloads h bs h') (hsub : ∀ b ∈ inUse bs', b ∈ inUse bs) :
    KeepsPayloads h bs' h' := fun b hb hused =>
  hkeep b (mem_inUse.mp (hsub b (mem_inUse.mpr ⟨hb, hused⟩))).1 hused

/-- Keeping payloads is transitive while no block leaves use. -/
theorem KeepsPayloads.trans (h₁ : KeepsPayloads h bs h') (h₂ : KeepsPayloads h' bs' h'')
    (hsub : ∀ b ∈ inUse bs, b ∈ inUse bs') : KeepsPayloads h bs h'' := fun b hb hused x hlo hhi =>
  (h₂.mono hsub b hb hused x hlo hhi).trans (h₁ b hb hused x hlo hhi)

/-- A block is known by its address. -/
theorem HeapInv.eq_of_addr {c : Block} (hi : HeapInv h bs) (hb : b ∈ bs) (hc : c ∈ bs)
    (heq : b.addr = c.addr) : b = c := by
  have hsize : hdrSize = 16 := rfl
  rcases hi.tiles.apart hb hc with hbc | hlt | hlt
  · exact hbc
  · omega
  · omega

/-- Blocks taken into use are others than those that were. -/
theorem HeapInv.addr_ne_of_perm {new : List Block} {c : Block} (hi : HeapInv h bs')
    (hperm : (inUse bs').Perm (new ++ inUse bs)) (hb : b ∈ new) (hc : c ∈ inUse bs) :
    b.addr ≠ c.addr := by
  have hnodup := (hperm.map _).nodup_iff.mp (hi.tiles.nodup_inUse (by decide))
  rw [List.map_append] at hnodup
  intro heq
  exact (List.nodup_append.mp hnodup).2.2 _ (List.mem_map_of_mem hb) _ (List.mem_map_of_mem hc)
    (by simp only [heq])

/-- Writing to the payloads of new blocks touches neither headers nor the payloads of the others. -/
theorem HeapInv.write_new (hi : HeapInv h' bs') (new : List Block) (m' : Mem)
    (hkeep : KeepsPayloads h bs h') (hperm : (inUse bs').Perm (new ++ inUse bs))
    (hm : ∀ x, (∀ b ∈ new, x < b.addr + 16 ∨ b.addr + 16 + b.size ≤ x) → m' x = h'.mem x) :
    HeapInv { h' with mem := m' } bs' ∧ KeepsPayloads h bs { h' with mem := m' } := by
  have hnew : ∀ b ∈ new, b ∈ bs' := fun b hb =>
    (mem_inUse.mp (hperm.mem_iff.mpr (List.mem_append_left _ hb))).1
  constructor
  · -- No byte of a header is in a payload.
    refine hi.congr_headers fun c hc x hlo hhi => hm x fun b hb => ?_
    by_contra hin
    have := hi.payload_outside_headers (hnew b hb) (x := x) (by omega) (by omega) c hc
    omega
  · intro c hc hused x hlo hhi
    have hc' : c ∈ inUse bs := mem_inUse.mpr ⟨hc, hused⟩
    have hmem := (mem_inUse.mp (hperm.mem_iff.mpr (List.mem_append_right _ hc'))).1
    refine (hm x fun b hb => ?_).trans (hkeep c hc hused x hlo hhi)
    exact hi.payload_apart (hnew b hb) hmem (hi.addr_ne_of_perm hperm hb hc') hlo hhi

/-- `kmalloc` fails and changes no block, or takes one more block into use. -/
theorem HeapInv.kmalloc_inUse (hi : HeapInv h bs) (n : ℕ) :
    ∃ q h' bs', kmalloc h n = some (q, h') ∧ HeapInv h' bs' ∧ KeepsPayloads h bs h' ∧
      ((q = 0 ∧ bs' = bs) ∨ ∃ b, q = b.addr + hdrSize ∧ b.used = true ∧ align4 n ≤ b.size ∧
        (inUse bs').Perm (b :: inUse bs)) := by
  by_cases hn : n = 0
  · exact ⟨0, h, bs, by rw [kmalloc, if_pos hn], hi, fun _ _ _ _ _ _ => rfl, .inl ⟨rfl, rfl⟩⟩
  · obtain ⟨q, h', hk, ⟨bs', halloc, hi', hframe⟩ | ⟨hq, -, hi', hmem⟩⟩ := kmalloc_spec hi hn
    · refine ⟨q, h', bs', hk, hi', fun c hc hused x hlo hhi => hframe x ?_,
        .inr (perm_inUse_of_alloc halloc)⟩
      -- Only headers of the new chain are written, and the block is on that chain too.
      exact hi'.payload_outside_headers (mem_of_alloc (by decide) hi.tiles halloc hc hused).1
        hlo hhi
    · exact ⟨q, h', bs, hk, hi', fun _ _ _ x _ _ => by rw [hmem], .inl ⟨hq, rfl⟩⟩

/-- `kzalloc` does the same, and the bytes that it returns are zero. -/
theorem HeapInv.kzalloc_inUse (hi : HeapInv h bs) (hmax : n ≤ 0xFFFFFFFC) :
    ∃ q h' bs', kzalloc h n = some (q, h') ∧ HeapInv h' bs' ∧ KeepsPayloads h bs h' ∧
      ((q = 0 ∧ bs' = bs) ∨ ∃ b, q = b.addr + hdrSize ∧ b.used = true ∧ align4 n ≤ b.size ∧
        (inUse bs').Perm (b :: inUse bs) ∧ ∀ i < n, h'.mem (q + i) = 0) := by
  obtain ⟨q, h₁, bs', hk, hi₁, hkeep, ⟨rfl, rfl⟩ | ⟨b, rfl, hused, hsize, hperm⟩⟩ :=
    hi.kmalloc_inUse n
  · exact ⟨0, h₁, bs', by simp [kzalloc, hk], hi₁, hkeep, .inl ⟨rfl, rfl⟩⟩
  · have hle := (le_align4 hmax).trans hsize
    have hb : b ∈ bs' := (mem_inUse.mp (hperm.mem_iff.mpr List.mem_cons_self)).1
    have hbd := hi₁.block_bounds hb
    have hend := hi₁.end_lt
    -- The zeros are written to the new payload only, so that the others stay.
    obtain ⟨hz, hzero⟩ := hi₁.kzalloc_of_kmalloc hb hmax hsize hk
    obtain ⟨hi₂, hkeep₂⟩ := hi₁.write_new [b] (zeroBytes h₁.mem (b.addr + hdrSize) n) hkeep
      hperm fun x hx => hzero x (hx b List.mem_cons_self)
    refine ⟨_, _, bs', hz, hi₂, hkeep₂, .inr ⟨b, rfl, hused, hsize, hperm, fun i hlt => ?_⟩⟩
    show zeroBytes h₁.mem (b.addr + hdrSize) n (b.addr + hdrSize + i) = 0
    simp only [hdrSize]
    rw [zeroBytes_eq_fill _ (by omega), Mem.fill_apply, if_pos (by omega)]

/-- `kfree` of a block in use takes it out of use. -/
theorem HeapInv.kfree_inUse (hi : HeapInv h bs) (hb : b ∈ bs) (hused : b.used = true) :
    ∃ bs', HeapInv (kfree h (b.addr + hdrSize)) bs' ∧
      KeepsPayloads h bs (kfree h (b.addr + hdrSize)) ∧ (inUse bs).Perm (b :: inUse bs') := by
  obtain ⟨hi', hframe⟩ := kfree_spec hi hb hused
  refine ⟨_, hi', fun c hc _ x hlo hhi => hframe x ?_,
    perm_inUse_release hi.tiles (by decide) hb hused⟩
  exact hi.payload_outside_headers hc hlo hhi b hb

/-! ## Clients and their data -/

/-- An allocation that a client has not freed: its address, the size that was asked for, and for
each of its bytes what the client wrote last, or the zero of `kzalloc`. -/
structure Alloc where
  /-- The pointer that was returned. -/
  ptr : ℕ
  /-- The number of bytes that were asked for. -/
  size : ℕ
  /-- What the client has written, where it has written. -/
  bytes : ℕ → Option UInt8

/-- The heap with the live allocations. -/
structure ClientState where
  /-- The heap. -/
  heap : HeapState
  /-- The allocations that were not freed. -/
  live : List Alloc

/-- A call of a client to the allocator, or a write of one byte at an offset into an allocation. -/
inductive ClientOp
  | kmalloc (n : UInt32)
  | kzalloc (n : UInt32)
  | kfree (p : UInt32)
  | write (p : UInt32) (i : ℕ) (v : UInt8)
deriving DecidableEq, Repr

/-- A pointer was returned for a request of `n` bytes. `NULL` is not an allocation. -/
def ClientState.receive (s : ClientState) (r : ℕ × HeapState) (n : ℕ) (init : Option UInt8) :
    ClientState :=
  ⟨r.2, if r.1 = 0 then s.live else ⟨r.1, n, fun _ => init⟩ :: s.live⟩

/-- The client of the allocation at `p` writes `v` at offset `i`. -/
def Alloc.write (p i : ℕ) (v : UInt8) (a : Alloc) : Alloc :=
  { a with bytes := if a.ptr = p then Function.update a.bytes i (some v) else a.bytes }

namespace ClientOp

/-- Requests are at most `0xFFFFFFFC` bytes, and clients free and write live allocations only,
inside the size that was asked for. -/
def Legal (s : ClientState) : ClientOp → Prop
  | kmalloc n => n.toNat ≤ 0xFFFFFFFC
  | kzalloc n => n.toNat ≤ 0xFFFFFFFC
  | kfree p => ∃ a ∈ s.live, a.ptr = p.toNat
  | write p i _ => ∃ a ∈ s.live, a.ptr = p.toNat ∧ i < a.size

/-- The state afterwards; `none` if a call does not return. -/
def exec (s : ClientState) : ClientOp → Option ClientState
  | kmalloc n => (Lightstreak.kmalloc s.heap n.toNat).map fun r => s.receive r n.toNat none
  | kzalloc n => (Lightstreak.kzalloc s.heap n.toNat).map fun r => s.receive r n.toNat (some 0)
  | kfree p =>
    some ⟨Lightstreak.kfree s.heap p.toNat, s.live.filter fun a => a.ptr ≠ p.toNat⟩
  | write p i v =>
    some ⟨{ s.heap with mem := s.heap.mem.store8 (p.toNat + i) v },
      s.live.map (Alloc.write p.toNat i v)⟩

end ClientOp

/-- One legal call or write. -/
def ClientStep (s : ClientState) (op : ClientOp) (s' : ClientState) : Prop :=
  op.Legal s ∧ op.exec s = some s'

/-- Each live allocation has a block of its own, no other block is in use, and memory holds what
was written. -/
structure ClientInv (s : ClientState) (bs : List Block) : Prop where
  /-- The heap is sound. -/
  inv : HeapInv s.heap bs
  /-- The pointers of the clients are those of the blocks in use. -/
  ledger : Ledger hdrSize bs (s.live.map (·.ptr))
  /-- Every allocation is inside its block. -/
  room : ∀ a ∈ s.live, ∃ b ∈ bs, b.used = true ∧ a.ptr = b.addr + hdrSize ∧ a.size ≤ b.size
  /-- Memory holds what the clients have written. -/
  holds : ∀ a ∈ s.live, ∀ i v, i < a.size → a.bytes i = some v → s.heap.mem (a.ptr + i) = v

namespace ClientInv

variable {s : ClientState} {a : Alloc}

/-- What keeps the payloads of the blocks in use keeps the data in them. -/
theorem holds_of_keeps (hc : ClientInv s bs) (hkeep : KeepsPayloads s.heap bs h') (ha : a ∈ s.live)
    {i : ℕ} {v : UInt8} (hi : i < a.size) (hv : a.bytes i = some v) :
    h'.mem (a.ptr + i) = v := by
  obtain ⟨b, hb, hused, hptr, hsize⟩ := hc.room a ha
  have hhdr : hdrSize = 16 := rfl
  rw [hkeep b hb hused _ (by omega) (by omega)]
  exact hc.holds a ha i v hi hv

theorem nodup (hc : ClientInv s bs) : (s.live.map (·.ptr)).Nodup :=
  hc.ledger.nodup_iff.mp (hc.inv.tiles.nodup_inUse (by decide))

/-- A request that failed. -/
theorem receive_null (hc : ClientInv s bs) (hi : HeapInv h' bs) (hkeep : KeepsPayloads s.heap bs h')
    (init : Option UInt8) : ClientInv (s.receive (0, h') n init) bs := by
  have hlive : (s.receive (0, h') n init).live = s.live := by
    rw [ClientState.receive, if_pos rfl]
  refine ⟨hi, by rw [hlive]; exact hc.ledger, by rw [hlive]; exact hc.room, ?_⟩
  rw [hlive]
  exact fun a ha i v hlt hv => hc.holds_of_keeps hkeep ha hlt hv

/-- A request that was served. -/
theorem receive (hc : ClientInv s bs) (hi : HeapInv h' bs') (hkeep : KeepsPayloads s.heap bs h')
    (hused : b.used = true) (hsize : n ≤ b.size) (hperm : (inUse bs').Perm (b :: inUse bs))
    {init : Option UInt8} (hinit : ∀ i v, i < n → init = some v →
      h'.mem (b.addr + hdrSize + i) = v) :
    ClientInv (s.receive (b.addr + hdrSize, h') n init) bs' := by
  have hlive : (s.receive (b.addr + hdrSize, h') n init).live =
      ⟨b.addr + hdrSize, n, fun _ => init⟩ :: s.live := by
    rw [ClientState.receive, if_neg (by simp [hdrSize])]
  -- Blocks in use stay on the chain, with the new one among them.
  have hin : ∀ c, c = b ∨ (c ∈ bs ∧ c.used = true) → c ∈ bs' := fun c hc' => by
    refine (mem_inUse.mp (hperm.mem_iff.mpr ?_)).1
    rw [List.mem_cons, mem_inUse]
    exact hc'
  refine ⟨hi, by rw [hlive]; exact hc.ledger.cons hperm, ?_, ?_⟩
  · rw [hlive]
    intro a ha
    rcases List.mem_cons.mp ha with rfl | ha
    · exact ⟨b, hin b (.inl rfl), hused, rfl, hsize⟩
    · obtain ⟨c, hcb, hcu, hptr, hle⟩ := hc.room a ha
      exact ⟨c, hin c (.inr ⟨hcb, hcu⟩), hcu, hptr, hle⟩
  · rw [hlive]
    intro a ha i v hlt hv
    rcases List.mem_cons.mp ha with rfl | ha
    · exact hinit i v hlt hv
    · exact hc.holds_of_keeps hkeep ha hlt hv

/-- An allocation that is freed. -/
theorem free (hc : ClientInv s bs) (ha : a ∈ s.live) :
    ∃ bs', ClientInv ⟨kfree s.heap a.ptr, s.live.filter fun c => c.ptr ≠ a.ptr⟩ bs' := by
  obtain ⟨b, hb, hused, hptr, -⟩ := hc.room a ha
  obtain ⟨bs', hi', hkeep, hperm⟩ := hc.inv.kfree_inUse hb hused
  rw [← hptr] at hi' hkeep
  have hout : ∀ c ∈ s.live.filter (fun c => c.ptr ≠ a.ptr), c ∈ s.live ∧ c.ptr ≠ a.ptr :=
    fun c hcm => by simpa using List.mem_filter.mp hcm
  refine ⟨bs', hi', ?_, fun c hcm => ?_, fun c hcm i v hlt hv => ?_⟩
  · -- The pointers are distinct, so that exactly one entry goes.
    have hcons := (perm_cons_filter_ne hc.nodup ha).map (·.ptr)
    exact Ledger.of_cons (hptr ▸ hc.ledger.perm hcons) hperm
  · -- An allocation that stays is not in the block that goes.
    obtain ⟨hcm, hne⟩ := hout c hcm
    obtain ⟨d, hd, hdu, hdp, hdsize⟩ := hc.room c hcm
    have hd' : d ∈ b :: inUse bs' := hperm.mem_iff.mp (mem_inUse.mpr ⟨hd, hdu⟩)
    rcases List.mem_cons.mp hd' with rfl | hd'
    · exact absurd (hdp.trans hptr.symm) hne
    · exact ⟨d, (mem_inUse.mp hd').1, hdu, hdp, hdsize⟩
  · exact hc.holds_of_keeps hkeep (hout c hcm).1 hlt hv

/-- Where a write to a live allocation goes: inside the payload of a block in use. -/
theorem exists_payload (hc : ClientInv s bs) (ha : a ∈ s.live) {i : ℕ} (hi : i < a.size) :
    ∃ b ∈ bs, b.used = true ∧ a.ptr = b.addr + hdrSize ∧ b.addr + 16 ≤ a.ptr + i ∧
      a.ptr + i < b.addr + 16 + b.size := by
  obtain ⟨b, hb, hused, hptr, hsize⟩ := hc.room a ha
  have hhdr : hdrSize = 16 := rfl
  exact ⟨b, hb, hused, hptr, by omega, by omega⟩

/-- A client writes a byte. -/
theorem write (hc : ClientInv s bs) (ha : a ∈ s.live) {i : ℕ} (hi : i < a.size) (v : UInt8) :
    ClientInv ⟨{ s.heap with mem := s.heap.mem.store8 (a.ptr + i) v },
      s.live.map (Alloc.write a.ptr i v)⟩ bs := by
  obtain ⟨b, hb, hused, hptr, hlo, hhi⟩ := hc.exists_payload ha hi
  refine ⟨hc.inv.write_payload hb fun x hx => Mem.store8_of_ne _ _ (by omega), ?_, ?_, ?_⟩
  · rw [List.map_map]
    exact hc.ledger
  · rintro _ hmem
    obtain ⟨c, hcm, rfl⟩ := List.mem_map.mp hmem
    exact hc.room c hcm
  · rintro _ hmem j w hj hw
    obtain ⟨c, hcm, rfl⟩ := List.mem_map.mp hmem
    show s.heap.mem.store8 (a.ptr + i) v (c.ptr + j) = w
    by_cases hsame : c.ptr = a.ptr
    · -- The allocation itself: the byte that was written, or another one.
      simp only [Alloc.write, if_pos hsame] at hw
      by_cases hij : j = i
      · rw [hij, Function.update_self] at hw
        rw [hsame, hij, Mem.store8_same]
        exact Option.some.inj hw
      · rw [Function.update_of_ne hij] at hw
        rw [Mem.store8_of_ne _ _ (by omega)]
        exact hc.holds c hcm j w hj hw
    · -- Another allocation, whose bytes are in another block.
      simp only [Alloc.write, if_neg hsame] at hw
      obtain ⟨d, hd, -, hdp, hdlo, hdhi⟩ := hc.exists_payload hcm hj
      have hne : d.addr ≠ b.addr := fun heq => hsame (by rw [hdp, hptr, heq])
      have hapart := hc.inv.payload_apart hd hb hne hlo hhi
      rw [Mem.store8_of_ne _ _ (by omega)]
      exact hc.holds c hcm j w hj hw

/-- A legal call or write returns and keeps the invariant. -/
theorem exec (hc : ClientInv s bs) {op : ClientOp} (hop : op.Legal s) :
    ∃ s' bs', op.exec s = some s' ∧ ClientInv s' bs' := by
  cases op with
  | kmalloc n =>
    obtain ⟨q, h', bs', hk, hi', hkeep, hcase⟩ := hc.inv.kmalloc_inUse n.toNat
    refine ⟨_, bs', by rw [ClientOp.exec, hk, Option.map_some], ?_⟩
    rcases hcase with ⟨rfl, rfl⟩ | ⟨b, rfl, hused, hsize, hperm⟩
    · exact hc.receive_null hi' hkeep none
    · exact hc.receive hi' hkeep hused ((le_align4 hop).trans hsize) hperm (by simp)
  | kzalloc n =>
    obtain ⟨q, h', bs', hk, hi', hkeep, hcase⟩ := hc.inv.kzalloc_inUse hop
    refine ⟨_, bs', by rw [ClientOp.exec, hk, Option.map_some], ?_⟩
    rcases hcase with ⟨rfl, rfl⟩ | ⟨b, rfl, hused, hsize, hperm, hzero⟩
    · exact hc.receive_null hi' hkeep (some 0)
    -- After `kzalloc` the client knows its bytes: they are zero.
    · refine hc.receive hi' hkeep hused ((le_align4 hop).trans hsize) hperm fun i v hlt hv => ?_
      rw [hzero i hlt]
      exact Option.some.inj hv
  | kfree p =>
    obtain ⟨a, ha, hp⟩ := hop
    obtain ⟨bs', hc'⟩ := hc.free ha
    exact ⟨_, bs', by rw [ClientOp.exec, ← hp], hc'⟩
  | write p i v =>
    obtain ⟨a, ha, hp, hi⟩ := hop
    exact ⟨_, bs, by rw [ClientOp.exec, ← hp], hc.write ha hi v⟩

end ClientInv

/-- The invariant along every run from an initialised heap. -/
theorem clientInv_of_run (mem : Mem) {start size : ℕ} (hpos : 0 < start) (hstart : 4 ∣ start)
    (hsize : 4 ∣ size) (hmin : 16 ≤ size) (hend : start + size < 2 ^ 32) {ops : List ClientOp}
    {s : ClientState} (hrun : Run ClientStep ⟨heapInit mem start size, []⟩ ops s) :
    ∃ bs, ClientInv s bs := by
  refine hrun.invariant (fun _ s => ∃ bs, ClientInv s bs) ?_ ?_
  · exact ⟨_, heapInv_heapInit mem hpos hstart hsize hmin hend, .nil, by simp, by simp⟩
  · rintro - s op s' ⟨bs, hc⟩ ⟨hop, hexec⟩
    obtain ⟨s₁, bs', hexec', hc'⟩ := hc.exec hop
    obtain rfl : s₁ = s' := Option.some.inj (hexec'.symm.trans hexec)
    exact ⟨bs', hc'⟩

/-- After `heap_init` and every sequence of legal calls and client writes: the live allocations are
the blocks in use, each of their bytes holds what its client wrote last, or the zero of `kzalloc`,
no client write changes a header of the chain, and every legal call returns. -/
theorem liveData_of_run (mem : Mem) {start size : ℕ} (hpos : 0 < start) (hstart : 4 ∣ start)
    (hsize : 4 ∣ size) (hmin : 16 ≤ size) (hend : start + size < 2 ^ 32) {ops : List ClientOp}
    {s : ClientState} (hrun : Run ClientStep ⟨heapInit mem start size, []⟩ ops s) :
    (∀ p, Allocated s.heap p ↔ ∃ a ∈ s.live, a.ptr = p) ∧
      (∀ a ∈ s.live, ∀ i v, i < a.size → a.bytes i = some v → s.heap.mem (a.ptr + i) = v) ∧
      (∀ p i v s', ClientStep s (.write p i v) s' → ∀ bs, Chain s.heap.mem s.heap.heapHead bs 0 →
        ∀ b ∈ bs, ∀ x, b.addr ≤ x → x < b.addr + hdrSize → s'.heap.mem x = s.heap.mem x) ∧
      ∀ op : ClientOp, op.Legal s → ∃ s', op.exec s = some s' := by
  obtain ⟨bs, hc⟩ := clientInv_of_run mem hpos hstart hsize hmin hend hrun
  refine ⟨fun p => ?_, hc.holds, ?_, fun op hop => ?_⟩
  · rw [hc.inv.allocated_iff, ← hc.ledger.mem_iff, List.mem_map]
  · rintro p i v s' ⟨⟨a, ha, hp, hi⟩, hexec⟩ cs hchain c hcm x hlo hhi
    -- The chain in memory is the list of the invariant, whose payloads are outside all headers.
    obtain rfl := hc.inv.chain.unique hchain
    obtain ⟨b, hb, -, -, hblo, hbhi⟩ := hc.exists_payload ha hi
    obtain rfl := Option.some.inj hexec
    have hout := hc.inv.payload_outside_headers hb hblo hbhi c hcm
    have hhdr : hdrSize = 16 := rfl
    exact Mem.store8_of_ne _ _ (by omega)
  · obtain ⟨s', -, hexec, -⟩ := hc.exec hop
    exact ⟨s', hexec⟩

/-- A client of the heap of 64 bytes at `0x1000` gets eight zeroes and writes one of them. -/
theorem liveData_of_run_smallHeap :
    ∃ s, Run ClientStep ⟨heapInit (fun _ => 0) 0x1000 64, []⟩ [.kzalloc 8, .write 0x1010 3 7] s ∧
      s.heap.mem 0x1013 = 7 ∧ s.heap.mem 0x1014 = 0 := by
  have halloc : alloc hdrSize 4 (align4 8) [⟨0x1000, 48, false⟩] =
      some (0x1010, [⟨0x1000, 8, true⟩, ⟨0x1018, 24, false⟩]) := by decide
  obtain ⟨h', hk, -⟩ := kmalloc_of_alloc heapInv_smallHeap (by decide) halloc
  have hz : kzalloc (heapInit (fun _ => 0) 0x1000 64) 8 =
      some (0x1010, { h' with mem := zeroBytes h'.mem 0x1010 8 }) := by
    rw [kzalloc, hk]
    exact if_pos (by decide)
  have hexec : ClientOp.exec ⟨heapInit (fun _ => 0) 0x1000 64, []⟩ (.kzalloc 8) =
      some ⟨{ h' with mem := zeroBytes h'.mem 0x1010 8 }, [⟨0x1010, 8, fun _ => some 0⟩]⟩ := by
    have hn : (8 : UInt32).toNat = 8 := rfl
    rw [ClientOp.exec, hn, hz]
    rfl
  have hlegal : (ClientOp.kzalloc 8).Legal ⟨heapInit (fun _ => 0) 0x1000 64, []⟩ :=
    show (8 : UInt32).toNat ≤ 0xFFFFFFFC by decide
  have hzalloc : Run ClientStep ⟨heapInit (fun _ => 0) 0x1000 64, []⟩ [.kzalloc 8] _ :=
    (Run.nil _).snoc ⟨hlegal, hexec⟩
  have hrun := hzalloc.snoc (a := ClientOp.write 0x1010 3 7)
    ⟨⟨_, List.mem_singleton_self _, rfl, show 3 < 8 by decide⟩, rfl⟩
  obtain ⟨-, hdata, -, -⟩ := liveData_of_run (fun _ => 0) (by decide) (by decide) (by decide)
    (by decide) (by decide) hrun
  have hlive := hdata _ (List.mem_singleton_self _)
  exact ⟨_, hrun, hlive 3 7 (show 3 < 8 by decide) rfl, hlive 4 0 (show 4 < 8 by decide) rfl⟩

end Lightstreak
