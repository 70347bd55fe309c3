import Mathlib.Algebra.BigOperators.Group.List.Basic
import Mathlib.Data.List.Chain
import Mathlib.Data.List.Pairwise
import Mathlib.Tactic.Ring

/-!
# First-fit allocation over a tiled interval

The abstract content of a free-list allocator: an interval is tiled by blocks, each a header of
`hdr` bytes followed by a payload. Allocation takes the first free block that is large enough
and splits it when the rest can hold a header and `slack` bytes; release marks a block free and
merges it with a free successor.

* `Tiles hdr a bs e`: the blocks `bs`, in order, fill `[a, e)` exactly.
* `alloc`, `release`: the two operations on block lists, with the decompositions
  `alloc_eq_some_iff` and `release_of_mem` that say which block each one rewrites.
* `tiles_carve`, `tiles_merge`, `usedBytes_merge`: splitting and merging keep
  the tiling and account for the bytes in use.
* `Ledger hdr bs ptrs`: the blocks in use are those at `ptrs`; `perm_inUse_of_alloc` and
  `perm_inUse_release` say how the two operations change it.
* `Coalesced bs`: no two neighbours are free. A release then takes back the allocation before it
  (`release_alloc`), and `Unwinds` carries this through nested allocations.
-/

namespace SysLib.FirstFit

/-- One block: the address of its header, the size of its payload, and whether it is in use. -/
structure Block where
  /-- The address of the header. -/
  addr : ℕ
  /-- The number of payload bytes behind the header. -/
  size : ℕ
  /-- The block is handed out. -/
  used : Bool
deriving DecidableEq, Repr

/-- The blocks fill `[a, e)` exactly, in address order. -/
def Tiles (hdr : ℕ) : ℕ → List Block → ℕ → Prop
  | a, [], e => a = e
  | a, b :: bs, e => b.addr = a ∧ Tiles hdr (a + hdr + b.size) bs e

/-- The payload bytes of the blocks in use. -/
def usedBytes (bs : List Block) : ℕ := ((bs.filter (·.used)).map (·.size)).sum

/-- The blocks in use. -/
def inUse (bs : List Block) : List Block := bs.filter (·.used)

/-- Each block in use has its payload address in `ptrs` once, and `ptrs` has no others. -/
def Ledger (hdr : ℕ) (bs : List Block) (ptrs : List ℕ) : Prop :=
  ((inUse bs).map (·.addr + hdr)).Perm ptrs

/-- A block that a request for `n` bytes can take. -/
def Fits (n : ℕ) (b : Block) : Prop := b.used = false ∧ n ≤ b.size

instance (n : ℕ) (b : Block) : Decidable (Fits n b) := by
  unfold Fits
  infer_instance

/-- The blocks that replace `b` when `n` of its bytes are handed out. -/
def carve (hdr slack n : ℕ) (b : Block) : List Block :=
  if n + hdr + slack ≤ b.size then
    [⟨b.addr, n, true⟩, ⟨b.addr + hdr + n, b.size - n - hdr, false⟩]
  else [⟨b.addr, b.size, true⟩]

/-- First-fit allocation: the payload address and the new block list. -/
def alloc (hdr slack n : ℕ) : List Block → Option (ℕ × List Block)
  | [] => none
  | b :: bs =>
    if Fits n b then some (b.addr + hdr, carve hdr slack n b ++ bs)
    else (alloc hdr slack n bs).map fun r => (r.1, b :: r.2)

/-- A freed block, merged with its successor when that one is free. -/
def merge (hdr : ℕ) (b : Block) : List Block → List Block
  | [] => [⟨b.addr, b.size, false⟩]
  | c :: cs =>
    if c.used then ⟨b.addr, b.size, false⟩ :: c :: cs
    else ⟨b.addr, b.size + (hdr + c.size), false⟩ :: cs

/-- Release the block in use whose payload address is `p`. -/
def release (hdr p : ℕ) : List Block → List Block
  | [] => []
  | b :: bs => if b.used = true ∧ b.addr + hdr = p then merge hdr b bs else b :: release hdr p bs

variable {hdr slack n a e p : ℕ} {b c : Block} {bs cs : List Block}

/-! ## Tilings -/

/-- Tilings are put together end to end. -/
theorem tiles_append :
    Tiles hdr a (bs ++ cs) e ↔ ∃ m, Tiles hdr a bs m ∧ Tiles hdr m cs e := by
  induction bs generalizing a with
  | nil => simp [Tiles]
  | cons b bs ih =>
    simp only [List.cons_append, Tiles, ih]
    constructor
    · rintro ⟨hb, m, hbs, hcs⟩
      exact ⟨m, ⟨hb, hbs⟩, hcs⟩
    · rintro ⟨m, ⟨hb, hbs⟩, hcs⟩
      exact ⟨hb, m, hbs, hcs⟩

/-- Every block of a tiling takes at least its header, so the interval bounds their number. -/
theorem Tiles.length_le (h : Tiles hdr a bs e) : a + hdr * bs.length ≤ e := by
  induction bs generalizing a with
  | nil => exact le_of_eq (by simpa [Tiles] using h)
  | cons b bs ih =>
    have hrest := ih h.2
    simp only [List.length_cons, Nat.mul_add, Nat.mul_one]
    omega

theorem Tiles.le (h : Tiles hdr a bs e) : a ≤ e :=
  le_trans (Nat.le_add_right _ _) h.length_le

/-- Each block lies inside the tiled interval. -/
theorem Tiles.bounds (h : Tiles hdr a bs e) (hb : b ∈ bs) :
    a ≤ b.addr ∧ b.addr + hdr + b.size ≤ e := by
  induction bs generalizing a with
  | nil => cases hb
  | cons c bs ih =>
    obtain ⟨hc, hrest⟩ := h
    rcases List.mem_cons.mp hb with rfl | hb
    · have := hrest.le
      omega
    · have := ih hrest hb
      omega

/-- Blocks of a tiling lie one after the other. -/
theorem Tiles.pairwise (h : Tiles hdr a bs e) :
    bs.Pairwise fun b c => b.addr + hdr + b.size ≤ c.addr := by
  induction bs generalizing a with
  | nil => exact List.Pairwise.nil
  | cons b bs ih =>
    obtain ⟨hb, hrest⟩ := h
    refine List.Pairwise.cons (fun c hc => ?_) (ih hrest)
    have := (hrest.bounds hc).1
    omega

/-- Two blocks of a tiling are the same or do not overlap. -/
theorem Tiles.apart (h : Tiles hdr a bs e) (hb : b ∈ bs) (hc : c ∈ bs) :
    b = c ∨ b.addr + hdr + b.size ≤ c.addr ∨ c.addr + hdr + c.size ≤ b.addr := by
  by_cases hbc : b = c
  · exact .inl hbc
  · have hsymm : Std.Symm fun x y : Block =>
        x.addr + hdr + x.size ≤ y.addr ∨ y.addr + hdr + y.size ≤ x.addr := ⟨fun _ _ => Or.symm⟩
    have hpair : bs.Pairwise fun x y =>
        x.addr + hdr + x.size ≤ y.addr ∨ y.addr + hdr + y.size ≤ x.addr :=
      h.pairwise.imp Or.inl
    exact .inr (hpair.forall hb hc hbc)

/-- A tiling around one of its blocks. -/
theorem Tiles.split (h : Tiles hdr a (bs ++ b :: cs) e) :
    Tiles hdr a bs b.addr ∧ Tiles hdr (b.addr + hdr + b.size) cs e := by
  obtain ⟨m, hbs, hb, hcs⟩ := tiles_append.mp h
  subst hb
  exact ⟨hbs, hcs⟩

/-- Replacing a block by blocks that tile the same bytes keeps the tiling. -/
theorem Tiles.replace {mid : List Block} (h : Tiles hdr a (bs ++ b :: cs) e)
    (hmid : Tiles hdr b.addr mid (b.addr + hdr + b.size)) :
    Tiles hdr a (bs ++ mid ++ cs) e := by
  obtain ⟨hbs, hcs⟩ := h.split
  exact tiles_append.mpr ⟨_, tiles_append.mpr ⟨_, hbs, hmid⟩, hcs⟩

/-! ## Bytes in use -/

@[simp]
theorem usedBytes_append (bs cs : List Block) :
    usedBytes (bs ++ cs) = usedBytes bs + usedBytes cs := by
  simp [usedBytes]

@[simp]
theorem usedBytes_nil : usedBytes [] = 0 := rfl

@[simp]
theorem usedBytes_cons (b : Block) (bs : List Block) :
    usedBytes (b :: bs) = (if b.used then b.size else 0) + usedBytes bs := by
  unfold usedBytes
  cases hb : b.used <;> simp [hb]

/-- The bytes in use are part of the tiled interval. -/
theorem Tiles.usedBytes_le (h : Tiles hdr a bs e) : a + usedBytes bs ≤ e := by
  induction bs generalizing a with
  | nil => simpa [Tiles] using le_of_eq h
  | cons b bs ih =>
    obtain ⟨-, hrest⟩ := h
    have := ih hrest
    rw [usedBytes_cons]
    split <;> omega

/-! ## Allocation -/

/-- Carving covers the same bytes. -/
theorem tiles_carve (hfit : Fits n b) :
    Tiles hdr b.addr (carve hdr slack n b) (b.addr + hdr + b.size) := by
  obtain ⟨-, hn⟩ := hfit
  unfold carve
  split
  · simp only [Tiles, true_and]
    omega
  · simp [Tiles]

/-- What holds of the sizes that carving can make holds of every block it makes. -/
theorem size_of_mem_carve {P : ℕ → Prop} (hb : P b.size)
    (hsplit : n + hdr + slack ≤ b.size → P n ∧ P (b.size - n - hdr))
    (hc : c ∈ carve hdr slack n b) : P c.size := by
  unfold carve at hc
  split at hc
  next hroom =>
    simp only [List.mem_cons, List.not_mem_nil, or_false] at hc
    rcases hc with rfl | rfl
    · exact (hsplit hroom).1
    · exact (hsplit hroom).2
  next =>
    rw [List.mem_singleton] at hc
    subst hc
    exact hb

/-- An allocation rewrites the first block that fits. -/
theorem alloc_eq_some_iff {r : ℕ × List Block} :
    alloc hdr slack n bs = some r ↔
      ∃ pre b post, bs = pre ++ b :: post ∧ (∀ c ∈ pre, ¬Fits n c) ∧ Fits n b ∧
        r = (b.addr + hdr, pre ++ carve hdr slack n b ++ post) := by
  induction bs generalizing r with
  | nil => simp [alloc]
  | cons d bs ih =>
    rw [alloc]
    split
    next hfit =>
      -- The first block fits, so that nothing may stand before the block that is taken.
      constructor
      · intro h
        exact ⟨[], d, bs, rfl, by simp, hfit, by simpa using h.symm⟩
      · rintro ⟨pre, b, post, hbs, hpre, -, rfl⟩
        cases pre with
        | nil =>
          obtain ⟨rfl, rfl⟩ := List.cons.inj hbs
          simp
        | cons c pre =>
          obtain ⟨rfl, -⟩ := List.cons.inj hbs
          exact absurd hfit (hpre d (by simp))
    next hfit =>
      -- It does not, and stands before the one that is taken from the rest.
      simp only [Option.map_eq_some_iff]
      constructor
      · rintro ⟨r', hr', rfl⟩
        obtain ⟨pre, b, post, rfl, hpre, hb, rfl⟩ := ih.mp hr'
        refine ⟨d :: pre, b, post, rfl, ?_, hb, rfl⟩
        intro c hc
        rcases List.mem_cons.mp hc with rfl | hc
        · exact hfit
        · exact hpre c hc
      · rintro ⟨pre, b, post, hbs, hpre, hb, rfl⟩
        cases pre with
        | nil =>
          obtain ⟨rfl, -⟩ := List.cons.inj hbs
          exact absurd hb hfit
        | cons c pre =>
          obtain ⟨rfl, rfl⟩ := List.cons.inj hbs
          refine ⟨_, ih.mpr ⟨pre, b, post, rfl, fun c' hc' => hpre c' (by simp [hc']), hb, rfl⟩, ?_⟩
          simp

/-- An allocation fails exactly when no block fits. -/
theorem alloc_eq_none_iff : alloc hdr slack n bs = none ↔ ∀ b ∈ bs, ¬Fits n b := by
  induction bs with
  | nil => simp [alloc]
  | cons d bs ih =>
    rw [alloc]
    split
    next hfit => simp [hfit]
    next hfit => simp [hfit, ih]

/-- An allocation leaves the blocks in use alone and takes another one. -/
theorem mem_of_alloc {q : ℕ} {bs' : List Block} (hhdr : 0 < hdr) (ht : Tiles hdr a bs e)
    (halloc : alloc hdr slack n bs = some (q, bs')) (hb : b ∈ bs) (hused : b.used = true) :
    b ∈ bs' ∧ q ≠ b.addr + hdr := by
  obtain ⟨pre, c, post, rfl, -, hfit, heq⟩ := alloc_eq_some_iff.mp halloc
  obtain ⟨rfl, rfl⟩ := Prod.mk.inj heq
  have hne : b ≠ c := fun hbc => by simp [hbc, hfit.1] at hused
  refine ⟨?_, fun haddr => ?_⟩
  · have hmem : b ∈ pre ∨ b ∈ post := by simpa [hne] using hb
    simpa using hmem.imp_right .inr
  · rcases ht.apart hb (show c ∈ pre ++ c :: post by simp) with hbc | hlt | hlt
    · exact hne hbc
    · omega
    · omega

/-- A free block that has room for two requests, with a header between them, leaves room for the
second one. -/
theorem exists_fits_of_alloc {q m : ℕ} {bs' : List Block}
    (halloc : alloc hdr slack n bs = some (q, bs')) (hm : slack ≤ m) (hb : b ∈ bs)
    (hfits : Fits (n + hdr + m) b) : ∃ c ∈ bs', Fits m c := by
  obtain ⟨hfree, hsize⟩ := hfits
  obtain ⟨pre, d, post, rfl, -, -, heq⟩ := alloc_eq_some_iff.mp halloc
  obtain ⟨rfl, rfl⟩ := Prod.mk.inj heq
  by_cases hbd : b = d
  · -- The block itself is taken, and its rest is large enough to be split off.
    have hcarve : carve hdr slack n d =
        [⟨d.addr, n, true⟩, ⟨d.addr + hdr + n, d.size - n - hdr, false⟩] :=
      if_pos (by rw [← hbd]; omega)
    refine ⟨⟨d.addr + hdr + n, d.size - n - hdr, false⟩, by simp [hcarve], rfl, ?_⟩
    change m ≤ d.size - n - hdr
    rw [← hbd]
    omega
  · have hmem : b ∈ pre ∨ b ∈ post := by simpa [hbd] using hb
    exact ⟨b, by simpa using hmem.imp_right .inr, hfree, by omega⟩

/-! ## Release -/

/-- Releasing the first block in use whose payload is at `p`. -/
theorem release_of_mem (hpre : ∀ c ∈ bs, c.addr + hdr ≠ p) (hb : b.used = true)
    (hp : b.addr + hdr = p) :
    release hdr p (bs ++ b :: cs) = bs ++ merge hdr b cs := by
  induction bs with
  | nil => simp [release, hb, hp]
  | cons d bs ih =>
    have hd : d.addr + hdr ≠ p := hpre d (by simp)
    simp only [List.cons_append, release, hd, and_false, ↓reduceIte,
      ih fun c hc => hpre c (by simp [hc])]

/-- Merging covers the same bytes. -/
theorem tiles_merge (h : Tiles hdr (b.addr + hdr + b.size) cs e) :
    Tiles hdr b.addr (merge hdr b cs) e := by
  cases cs with
  | nil =>
    simpa [merge, Tiles] using h
  | cons c cs =>
    obtain ⟨hc, hcs⟩ := h
    rw [merge]
    split
    · exact ⟨rfl, hc, hcs⟩
    · refine ⟨rfl, ?_⟩
      have hend : b.addr + hdr + (b.size + (hdr + c.size)) =
          b.addr + hdr + b.size + hdr + c.size := by ring
      simpa only [hend] using hcs

/-- What holds of the sizes that merging can make holds of every block it leaves. -/
theorem size_of_mem_merge {P : ℕ → Prop} (hb : P b.size)
    (hcs : ∀ d ∈ cs, P d.size ∧ P (b.size + (hdr + d.size))) (hc : c ∈ merge hdr b cs) :
    P c.size := by
  cases cs with
  | nil =>
    simp only [merge, List.mem_singleton] at hc
    subst hc
    exact hb
  | cons d cs =>
    rw [merge] at hc
    split at hc
    · rcases List.mem_cons.mp hc with rfl | hc
      · exact hb
      · exact (hcs c hc).1
    · -- The next block is free, and its header becomes payload.
      rcases List.mem_cons.mp hc with rfl | hc
      · exact (hcs d (by simp)).2
      · exact (hcs c (by simp [hc])).1

/-- A block that is merged with its successor counts no longer. -/
theorem usedBytes_merge (b : Block) (cs : List Block) :
    usedBytes (merge hdr b cs) = usedBytes cs := by
  cases cs with
  | nil => simp [merge]
  | cons c cs =>
    rw [merge]
    split
    · simp
    next hc => simp [hc]

/-! ## Blocks in use -/

theorem mem_inUse : b ∈ inUse bs ↔ b ∈ bs ∧ b.used = true := List.mem_filter

@[simp]
theorem inUse_append (bs cs : List Block) : inUse (bs ++ cs) = inUse bs ++ inUse cs :=
  List.filter_append bs cs

theorem inUse_cons_of_used (hb : b.used = true) : inUse (b :: bs) = b :: inUse bs :=
  List.filter_cons_of_pos hb

theorem inUse_cons_of_free (hb : b.used = false) : inUse (b :: bs) = inUse bs :=
  List.filter_cons_of_neg (by simp [hb])

/-- Carving takes one block into use. -/
theorem inUse_carve (hdr slack : ℕ) (hb : Fits n b) :
    ∃ c, inUse (carve hdr slack n b) = [c] ∧ c.addr = b.addr ∧ c.used = true ∧ n ≤ c.size := by
  by_cases hsplit : n + hdr + slack ≤ b.size
  · exact ⟨⟨b.addr, n, true⟩, by simp [carve, hsplit, inUse], rfl, rfl, le_rfl⟩
  · exact ⟨⟨b.addr, b.size, true⟩, by simp [carve, hsplit, inUse], rfl, rfl, hb.2⟩

/-- Merging concerns free blocks only. -/
theorem inUse_merge (b : Block) (cs : List Block) : inUse (merge hdr b cs) = inUse cs := by
  cases cs with
  | nil => rfl
  | cons c cs =>
    rw [merge]
    split
    next hc => exact inUse_cons_of_free rfl
    next hc =>
      rw [inUse_cons_of_free rfl, inUse_cons_of_free (by simpa using hc)]

/-- An allocation adds one block to those in use. -/
theorem perm_inUse_of_alloc {q : ℕ} {bs' : List Block}
    (halloc : alloc hdr slack n bs = some (q, bs')) :
    ∃ b, q = b.addr + hdr ∧ b.used = true ∧ n ≤ b.size ∧ (inUse bs').Perm (b :: inUse bs) := by
  obtain ⟨pre, d, post, rfl, -, hfit, heq⟩ := alloc_eq_some_iff.mp halloc
  obtain ⟨rfl, rfl⟩ := Prod.mk.inj heq
  obtain ⟨b, hcarve, haddr, hused, hsize⟩ := inUse_carve hdr slack hfit
  refine ⟨b, by rw [haddr], hused, hsize, ?_⟩
  rw [inUse_append, inUse_append, hcarve, inUse_append, inUse_cons_of_free hfit.1,
    List.append_assoc]
  exact List.perm_middle

/-- A release removes its block from those in use. -/
theorem perm_inUse_release (ht : Tiles hdr a bs e) (hhdr : 0 < hdr) (hb : b ∈ bs)
    (hused : b.used = true) :
    (inUse bs).Perm (b :: inUse (release hdr (b.addr + hdr) bs)) := by
  obtain ⟨pre, post, rfl⟩ := List.append_of_mem hb
  -- No earlier block has the same payload, so that `release` finds this one.
  have hother : ∀ c ∈ pre, c.addr + hdr ≠ b.addr + hdr := fun c hc => by
    have := (ht.split.1.bounds hc).2
    omega
  rw [release_of_mem hother hused rfl, inUse_append, inUse_append, inUse_merge,
    inUse_cons_of_used hused]
  exact List.perm_middle

/-- A released block can be taken again. -/
theorem exists_fits_release (ht : Tiles hdr a bs e) (hhdr : 0 < hdr) (hb : b ∈ bs)
    (hused : b.used = true) : ∃ c ∈ release hdr (b.addr + hdr) bs, Fits b.size c := by
  obtain ⟨pre, post, rfl⟩ := List.append_of_mem hb
  have hother : ∀ c ∈ pre, c.addr + hdr ≠ b.addr + hdr := fun c hc => by
    have := (ht.split.1.bounds hc).2
    omega
  rw [release_of_mem hother hused rfl]
  have hmerge : ∃ c ∈ merge hdr b post, Fits b.size c := by
    cases post with
    | nil => exact ⟨_, List.mem_singleton_self _, rfl, le_rfl⟩
    | cons d post =>
      rw [merge]
      split
      next => exact ⟨_, List.mem_cons_self, rfl, le_rfl⟩
      next => exact ⟨_, List.mem_cons_self, rfl, Nat.le_add_right _ _⟩
  obtain ⟨c, hc, hfits⟩ := hmerge
  exact ⟨c, List.mem_append_right pre hc, hfits⟩

/-- Different blocks have different payload addresses. -/
theorem Tiles.nodup_inUse (ht : Tiles hdr a bs e) (hhdr : 0 < hdr) :
    ((inUse bs).map (·.addr + hdr)).Nodup := by
  refine List.Pairwise.map _ (fun b c hbc => ?_) (ht.pairwise.filter _)
  omega

/-- An entry with a key of its own is all that filtering out the key removes. -/
theorem perm_cons_filter_ne {α : Type*} {key : α → ℕ} {l : List α} {x : α}
    (hnodup : (l.map key).Nodup) (hx : x ∈ l) :
    l.Perm (x :: l.filter fun y => key y ≠ key x) := by
  induction l with
  | nil => cases hx
  | cons z l ih =>
    obtain ⟨hz, hl⟩ := List.nodup_cons.mp hnodup
    rcases List.mem_cons.mp hx with rfl | hx
    · have hrest : l.filter (fun y => key y ≠ key x) = l := List.filter_eq_self.mpr fun y hy => by
        simpa using fun heq : key y = key x => hz (heq ▸ List.mem_map_of_mem hy)
      rw [List.filter_cons_of_neg (by simp), hrest]
    · have hne : key z ≠ key x := fun heq => hz (heq ▸ List.mem_map_of_mem hx)
      rw [List.filter_cons_of_pos (by simpa using hne)]
      exact ((ih hl hx).cons z).trans (List.Perm.swap _ _ _)

namespace Ledger

variable {ptrs : List ℕ} {bs' : List Block}

/-- The pointers of the ledger are the payloads of the blocks in use. -/
theorem mem_iff (hl : Ledger hdr bs ptrs) :
    p ∈ ptrs ↔ ∃ b ∈ bs, b.used = true ∧ b.addr + hdr = p := by
  rw [← List.Perm.mem_iff hl, List.mem_map]
  simp only [mem_inUse, and_assoc]

/-- The order of the pointers does not matter. -/
theorem perm {ptrs' : List ℕ} (hl : Ledger hdr bs ptrs) (hp : ptrs.Perm ptrs') :
    Ledger hdr bs ptrs' :=
  List.Perm.trans hl hp

/-- One more block in use, and its pointer. -/
theorem cons (hl : Ledger hdr bs ptrs) (hperm : (inUse bs').Perm (b :: inUse bs)) :
    Ledger hdr bs' ((b.addr + hdr) :: ptrs) :=
  (hperm.map _).trans (List.Perm.cons _ hl)

/-- One block in use less, and its pointer. -/
theorem of_cons (hl : Ledger hdr bs ((b.addr + hdr) :: ptrs))
    (hperm : (inUse bs).Perm (b :: inUse bs')) : Ledger hdr bs' ptrs :=
  List.Perm.cons_inv ((hperm.map fun b : Block => b.addr + hdr).symm.trans hl)

end Ledger

/-! ## Free neighbours -/

/-- No two neighbours are free. -/
def Coalesced (bs : List Block) : Prop := bs.IsChain fun b c => b.used = true ∨ c.used = true

/-- Being a free neighbour does not depend on the size. -/
theorem Coalesced.cons_congr (h : Coalesced (b :: bs)) (hused : c.used = b.used) :
    Coalesced (c :: bs) := by
  cases bs with
  | nil => exact List.isChain_singleton c
  | cons d bs =>
    obtain ⟨hbd, hrest⟩ := List.isChain_cons_cons.mp h
    exact List.isChain_cons_cons.mpr ⟨hused ▸ hbd, hrest⟩

/-- A block in use may stand before anything. -/
theorem Coalesced.cons_used (h : Coalesced bs) (hused : b.used = true) : Coalesced (b :: bs) := by
  cases bs with
  | nil => exact List.isChain_singleton b
  | cons d bs => exact List.isChain_cons_cons.mpr ⟨.inl hused, h⟩

/-- An allocation makes no free neighbours: what it splits off stands behind the block in use. -/
theorem Coalesced.alloc {q : ℕ} {bs' : List Block} (h : Coalesced bs)
    (halloc : alloc hdr slack n bs = some (q, bs')) : Coalesced bs' := by
  obtain ⟨pre, b, post, rfl, -, hfit, heq⟩ := alloc_eq_some_iff.mp halloc
  obtain ⟨-, rfl⟩ := Prod.mk.inj heq
  obtain ⟨hpre, hpost, -⟩ := List.isChain_append.mp h
  have htail : Coalesced post := List.IsChain.tail hpost
  rw [List.append_assoc]
  unfold carve
  split
  · refine List.isChain_append.mpr ⟨hpre, ?_, by simp⟩
    have hrest : Coalesced (⟨b.addr + hdr + n, b.size - n - hdr, false⟩ :: post) :=
      Coalesced.cons_congr hpost hfit.1.symm
    exact hrest.cons_used rfl
  · exact List.isChain_append.mpr ⟨hpre, htail.cons_used rfl, by simp⟩

/-- Without free neighbours, releasing the block that was just allocated restores the list: the
part that was split off is merged again, and a block that was not split has no free successor. -/
theorem release_alloc {q : ℕ} {bs' : List Block} (h : Coalesced bs) (ht : Tiles hdr a bs e)
    (hhdr : 0 < hdr) (halloc : alloc hdr slack n bs = some (q, bs')) : release hdr q bs' = bs := by
  obtain ⟨pre, b, post, rfl, -, ⟨hfree, hsize⟩, heq⟩ := alloc_eq_some_iff.mp halloc
  obtain ⟨rfl, rfl⟩ := Prod.mk.inj heq
  -- The blocks before the one that was taken have other pointers, so it is the one released.
  have hother : ∀ c ∈ pre, c.addr + hdr ≠ b.addr + hdr := fun c hc => by
    have := (ht.split.1.bounds hc).2
    omega
  have hrelease : ∀ size cs, release hdr (b.addr + hdr) (pre ++ ⟨b.addr, size, true⟩ :: cs) =
      pre ++ merge hdr ⟨b.addr, size, true⟩ cs := fun _ _ => release_of_mem hother rfl rfl
  have hb : (⟨b.addr, b.size, false⟩ : Block) = b := by
    cases b
    cases hfree
    rfl
  unfold carve
  rw [List.append_assoc]
  split
  next hroom =>
    -- The block was split: merging with the rest gives it its old size.
    have hsum : n + (hdr + (b.size - n - hdr)) = b.size := by omega
    rw [List.cons_append, List.cons_append, List.nil_append, hrelease]
    simp only [merge, Bool.false_eq_true, ↓reduceIte, hsum, hb]
  next =>
    rw [List.singleton_append, hrelease]
    -- It was not split, and behind a free block there was none to merge with.
    obtain ⟨-, hpost, -⟩ := List.isChain_append.mp h
    cases post with
    | nil => simp only [merge, hb]
    | cons c cs =>
      have hused : c.used = true := by
        simpa [hfree] using (List.isChain_cons_cons.mp hpost).1
      simp only [merge, hused, ↓reduceIte, hb]

/-- Releasing the payload addresses `ptrs` one after the other leads from `bs` back to `bs₀`, each
of them that of a block in use, and never leaves two free neighbours. -/
def Unwinds (hdr : ℕ) (bs₀ : List Block) : List ℕ → List Block → Prop
  | [], bs => bs = bs₀ ∧ Coalesced bs
  | p :: ptrs, bs => Coalesced bs ∧ (∃ b ∈ bs, b.used = true ∧ b.addr + hdr = p) ∧
    Unwinds hdr bs₀ ptrs (release hdr p bs)

/-- Releases that unwind the allocations leave no two free neighbours. -/
theorem Unwinds.coalesced {bs₀ : List Block} {ptrs : List ℕ} (h : Unwinds hdr bs₀ ptrs bs) :
    Coalesced bs := by
  cases ptrs with
  | nil => exact h.2
  | cons p ptrs => exact h.1

/-- An allocation adds its block on top of those to be released. -/
theorem Unwinds.alloc {bs₀ bs' : List Block} {ptrs : List ℕ} {q : ℕ}
    (h : Unwinds hdr bs₀ ptrs bs) (ht : Tiles hdr a bs e) (hhdr : 0 < hdr)
    (halloc : alloc hdr slack n bs = some (q, bs')) : Unwinds hdr bs₀ (q :: ptrs) bs' := by
  obtain ⟨b, hq, hused, -, hperm⟩ := perm_inUse_of_alloc halloc
  have hb := (mem_inUse.mp (hperm.mem_iff.mpr List.mem_cons_self)).1
  refine ⟨h.coalesced.alloc halloc, ⟨b, hb, hused, hq.symm⟩, ?_⟩
  rwa [release_alloc h.coalesced ht hhdr halloc]

end SysLib.FirstFit
