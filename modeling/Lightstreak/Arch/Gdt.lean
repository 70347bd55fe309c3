import Mathlib.Tactic.IntervalCases
import Lightstreak.Arch.Interrupts

/-!
# Segments and the task state (`kernel/arch/gdt.c`, `tss.c`)

`gdt_init` writes the descriptor table and `tss_init` the descriptor of the task state segment. An
entry scatters base and limit over packed fields; `GdtEntry.base` and `GdtEntry.limit` put them
together again as the processor does.

* `base_gdtSetEntry`, `limit_gdtSetEntry`: what an entry decodes to;
* `gdtInit_flat`: the code and data segments cover all of memory;
* `access_tssInit`: the access bytes are those that interrupts and segment loads are checked
  against;
* `limit_tssInit`: the limit of the task state segment, which `tss_init` counts from address zero
  and not from the base;
* `describesTss_iff`: so the descriptor is right at one address in a megabyte.
-/

namespace Lightstreak

open SysLib

/-- `gdt_entry_t` -/
structure GdtEntry where
  /-- Bits 0 to 15 of the limit. -/
  limitLow : UInt16
  /-- Bits 0 to 15 of the base. -/
  baseLow : UInt16
  /-- Bits 16 to 23 of the base. -/
  baseMid : UInt8
  /-- Present bit, privilege level and type. -/
  access : UInt8
  /-- Flags, and bits 16 to 19 of the limit. -/
  granularity : UInt8
  /-- Bits 24 to 31 of the base. -/
  baseHigh : UInt8
deriving DecidableEq, Repr

/-- `gdt_ptr_t` -/
structure GdtPtr where
  /-- The size of the table less one. -/
  limit : UInt16
  /-- The address of the table. -/
  base : UInt32
deriving DecidableEq, Repr

/-- The state of `gdt.c` and `tss.c`: the table `gdt`, the registers loaded from it, and memory,
which holds `tss`. -/
structure SegmentState where
  /-- The table. -/
  gdt : ℕ → GdtEntry
  /-- What `lgdt` has loaded. -/
  gdtr : GdtPtr
  /-- The selector that `ltr` has loaded. -/
  tr : ℕ
  /-- Memory, where the TSS is. -/
  mem : Mem

/-- `GDT_ENTRIES` -/
def gdtEntries : ℕ := 6

/-- `sizeof(tss_entry_t)` -/
def tssSize : ℕ := 104

/-- `gdt_set_entry(num, base, limit, access, gran)` -/
def gdtSetEntry (gdt : ℕ → GdtEntry) (num : ℕ) (base limit : UInt32) (access gran : UInt8) :
    ℕ → GdtEntry :=
  Function.update gdt num
    { limitLow := (limit &&& 0xFFFF).toUInt16
      baseLow := (base &&& 0xFFFF).toUInt16
      baseMid := ((base >>> 16) &&& 0xFF).toUInt8
      access := access
      granularity := ((limit >>> 16) &&& 0x0F).toUInt8 ||| gran
      baseHigh := ((base >>> 24) &&& 0xFF).toUInt8 }

/-- `gdt_init()`, with the table at `gdtAddr`. -/
def gdtInit (s : SegmentState) (gdtAddr : UInt32) : SegmentState :=
  let gdt := gdtSetEntry s.gdt 0 0 0 0 0
  -- Kernel code and data.
  let gdt := gdtSetEntry gdt 1 0 0xFFFFF 0x9A 0xCF
  let gdt := gdtSetEntry gdt 2 0 0xFFFFF 0x92 0xCF
  -- User code and data.
  let gdt := gdtSetEntry gdt 3 0 0xFFFFF 0xFA 0xCF
  let gdt := gdtSetEntry gdt 4 0 0xFFFFF 0xF2 0xCF
  let gdt := gdtSetEntry gdt 5 0 0 0 0
  { s with gdt := gdt, gdtr := ⟨UInt16.ofNat (8 * gdtEntries - 1), gdtAddr⟩ }

/-- `gdt_set_tss_entry(base, limit)` -/
def gdtSetTssEntry (gdt : ℕ → GdtEntry) (base limit : UInt32) : ℕ → GdtEntry :=
  gdtSetEntry gdt 5 base limit 0x89 0x00

/-- `tss_init(kernel_stack)`, with `tss` at the given address. `ss0`, `esp0` and `iomap_base` are at
the offsets 8, 4 and 102. -/
def tssInit (s : SegmentState) (tss kernelStack : UInt32) : SegmentState :=
  let base := tss
  let limit := base + UInt32.ofNat tssSize - 1
  let gdt := gdtSetTssEntry s.gdt base limit
  let mem := s.mem.fill tss.toNat 0 tssSize
  let mem := mem.store32 (tss.toNat + 8) 0x10
  let mem := mem.store32 (tss.toNat + 4) kernelStack.toNat
  let mem := mem.store16 (tss.toNat + 102) tssSize
  { s with gdt := gdt, mem := mem, tr := 0x28 }

/-! ## Decoding an entry -/

namespace GdtEntry

/-- The base address. -/
def base (e : GdtEntry) : ℕ :=
  e.baseLow.toNat + 2 ^ 16 * e.baseMid.toNat + 2 ^ 24 * e.baseHigh.toNat

/-- The limit, in the unit that the granularity says. -/
def limit (e : GdtEntry) : ℕ := e.limitLow.toNat + 2 ^ 16 * (e.granularity.toNat % 16)

/-- Bit 7 of the granularity: the limit counts pages. -/
def pageGranular (e : GdtEntry) : Bool := e.granularity.toNat / 128 == 1

/-- The last byte of the segment, counted from its base. -/
def lastByte (e : GdtEntry) : ℕ :=
  if e.pageGranular then 4096 * e.limit + 4095 else e.limit

end GdtEntry

variable {gdt : ℕ → GdtEntry} {s : SegmentState} {num : ℕ} {base limit tss kernelStack : UInt32}
  {access gran : UInt8}

/-- `(x >> k) & (2 ^ n - 1)` -/
theorem toNat_shiftRight_and {x k mask : UInt32} {n : ℕ} (hk : k.toNat < 32)
    (hmask : mask.toNat = 2 ^ n - 1) :
    ((x >>> k) &&& mask).toNat = x.toNat / 2 ^ k.toNat % 2 ^ n := by
  rw [UInt32.toNat_and, UInt32.toNat_shiftRight, Nat.mod_eq_of_lt hk, Nat.shiftRight_eq_div_pow,
    hmask, Nat.and_two_pow_sub_one_eq_mod]

/-- What an entry stores of its limit beside the low 16 bits. -/
theorem toNat_limit_high (limit : UInt32) :
    ((limit >>> 16) &&& 0x0F).toNat = limit.toNat / 2 ^ 16 % 2 ^ 4 :=
  toNat_shiftRight_and (by decide) (by decide)

theorem toNat_and_ffff (x : UInt32) : (x &&& 0xFFFF).toNat = x.toNat % 2 ^ 16 := by
  rw [UInt32.toNat_and]
  exact Nat.and_two_pow_sub_one_eq_mod x.toNat 16

/-- The base of an entry is never cut. -/
theorem base_gdtSetEntry :
    (gdtSetEntry gdt num base limit access gran num).base = base.toNat := by
  have hbase := base.toNat_lt
  have hmid : ((base >>> 16) &&& 0xFF).toNat = base.toNat / 2 ^ 16 % 2 ^ 8 :=
    toNat_shiftRight_and (by decide) (by decide)
  have hhigh : ((base >>> 24) &&& 0xFF).toNat = base.toNat / 2 ^ 24 % 2 ^ 8 :=
    toNat_shiftRight_and (by decide) (by decide)
  simp only [gdtSetEntry, Function.update_self, GdtEntry.base, UInt32.toNat_toUInt16,
    UInt32.toNat_toUInt8, toNat_and_ffff, hmid, hhigh]
  omega

/-- The limit of an entry is cut to 20 bits. -/
theorem limit_gdtSetEntry (hgran : gran.toNat % 2 ^ 4 = 0) :
    (gdtSetEntry gdt num base limit access gran num).limit = limit.toNat % 2 ^ 20 := by
  -- The caller's flags are above the nibble that holds the high bits of the limit.
  have hnibble : ((((limit >>> 16) &&& 0x0F).toUInt8 ||| gran).toNat) % 2 ^ 4 =
      limit.toNat / 2 ^ 16 % 2 ^ 4 := by
    rw [UInt8.toNat_or, Nat.or_mod_two_pow, hgran, Nat.or_zero, UInt32.toNat_toUInt8,
      toNat_limit_high]
    omega
  simp only [gdtSetEntry, Function.update_self, GdtEntry.limit, UInt32.toNat_toUInt16,
    toNat_and_ffff]
  rw [show (16 : ℕ) = 2 ^ 4 from rfl, hnibble]
  omega

/-- Bit 7 of the granularity is the caller's. -/
theorem pageGranular_gdtSetEntry (hgran : gran.toNat < 128) :
    (gdtSetEntry gdt num base limit access gran num).pageGranular = false := by
  have hlt : (((limit >>> 16) &&& 0x0F).toUInt8 ||| gran).toNat < 2 ^ 7 := by
    rw [UInt8.toNat_or, UInt32.toNat_toUInt8, toNat_limit_high]
    exact Nat.or_lt_two_pow (by omega) hgran
  simp only [gdtSetEntry, Function.update_self, GdtEntry.pageGranular, beq_eq_false_iff_ne]
  omega

/-! ## The segments -/

/-- A flat segment of 4 GB. -/
theorem gdtSetEntry_flat : gdtSetEntry gdt num 0 0xFFFFF access 0xCF num =
    { limitLow := 0xFFFF, baseLow := 0, baseMid := 0, access := access, granularity := 0xCF,
      baseHigh := 0 } := by
  have hlimit : ((0xFFFFF : UInt32) &&& 0xFFFF).toUInt16 = 0xFFFF := by decide
  have hgran : (((0xFFFFF : UInt32) >>> 16) &&& 0x0F).toUInt8 ||| 0xCF = 0xCF := by decide
  rw [gdtSetEntry, Function.update_self, hlimit, hgran]
  rfl

theorem gdtSetEntry_of_ne {n : ℕ} (h : n ≠ num) :
    gdtSetEntry gdt num base limit access gran n = gdt n :=
  Function.update_of_ne h _ _

/-- The code and data segments start at zero and end with the last byte of memory. -/
theorem gdtInit_flat (s : SegmentState) (gdtAddr : UInt32) (hlo : 1 ≤ num) (hhi : num ≤ 4) :
    ((gdtInit s gdtAddr).gdt num).base = 0 ∧
      ((gdtInit s gdtAddr).gdt num).lastByte = 2 ^ 32 - 1 := by
  have hflat : ∃ access, (gdtInit s gdtAddr).gdt num =
      { limitLow := 0xFFFF, baseLow := 0, baseMid := 0, access := access, granularity := 0xCF,
        baseHigh := 0 } := by
    unfold gdtInit
    interval_cases num
    all_goals
      simp only [gdtSetEntry_of_ne, ne_eq, Nat.reduceEqDiff, not_false_eq_true, gdtSetEntry_flat]
      exact ⟨_, rfl⟩
  obtain ⟨access, hentry⟩ := hflat
  -- 0xCF has bit 7 set, so that the limit of 20 bits counts pages.
  have hlow : (0xFFFF : UInt16).toNat = 65535 := by decide
  have hgran : (0xCF : UInt8).toNat = 207 := by decide
  rw [hentry]
  refine ⟨rfl, ?_⟩
  simp only [GdtEntry.lastByte, GdtEntry.pageGranular, GdtEntry.limit, hlow, hgran]
  decide

/-- The table has the access bytes that the processor checks. -/
theorem access_tssInit (s : SegmentState) (gdtAddr tss kernelStack : UInt32)
    (hnum : num < gdtEntries) :
    ((tssInit (gdtInit s gdtAddr) tss kernelStack).gdt num).access.toNat = gdtAccess num := by
  unfold gdtEntries at hnum
  interval_cases num <;> rfl

/-! ## The task state segment -/

/-- Entry 5 decodes to the segment of `tss`, with the I/O permission bitmap behind its end. -/
structure DescribesTss (s : SegmentState) (tss : UInt32) : Prop where
  /-- The descriptor points to the TSS. -/
  base_eq : (s.gdt 5).base = tss.toNat
  /-- It covers the TSS and nothing else. -/
  limit_eq : (s.gdt 5).limit = tssSize - 1
  /-- Its limit is in bytes. -/
  byte_granular : (s.gdt 5).pageGranular = false
  /-- The I/O permission bitmap is behind the limit, so that user mode has no port. -/
  iomap_beyond : (s.gdt 5).limit < s.mem.load16 (tss.toNat + 102)

/-- `tss_init` puts the I/O permission bitmap behind the TSS. -/
theorem iomapBase_tssInit (s : SegmentState) (tss kernelStack : UInt32) :
    (tssInit s tss kernelStack).mem.load16 (tss.toNat + 102) = tssSize := by
  rw [tssInit]
  dsimp only
  rw [Mem.load16_store16]
  rfl

/-- The limit is that of a segment which starts at zero, cut to 20 bits. -/
theorem limit_tssInit (s : SegmentState) (tss kernelStack : UInt32) :
    ((tssInit s tss kernelStack).gdt 5).limit = (tss.toNat + (tssSize - 1)) % 2 ^ 20 := by
  have htss := tss.toNat_lt
  have hlimit : (tss + UInt32.ofNat tssSize - 1).toNat = (tss.toNat + 103) % 2 ^ 32 := by
    rw [UInt32.toNat_sub, UInt32.toNat_add, show (UInt32.ofNat tssSize).toNat = 104 from rfl,
      show (1 : UInt32).toNat = 1 from rfl]
    omega
  rw [tssInit, gdtSetTssEntry, limit_gdtSetEntry rfl, hlimit]
  simp only [tssSize]
  omega

/-- After `gdt_init` and `tss_init` the descriptor of the task state segment describes it if and
only if `tss` was placed at a multiple of one megabyte. -/
theorem describesTss_iff (s : SegmentState) (gdtAddr tss kernelStack : UInt32) :
    DescribesTss (tssInit (gdtInit s gdtAddr) tss kernelStack) tss ↔ 2 ^ 20 ∣ tss.toNat := by
  have hlimit := limit_tssInit (gdtInit s gdtAddr) tss kernelStack
  simp only [tssSize] at hlimit
  constructor
  · -- Only the limit depends on the place of the segment.
    intro h
    have heq := h.limit_eq
    rw [hlimit, tssSize] at heq
    omega
  · intro h
    have heq : ((tssInit (gdtInit s gdtAddr) tss kernelStack).gdt 5).limit = tssSize - 1 := by
      rw [hlimit, tssSize]
      omega
    refine ⟨base_gdtSetEntry, heq, ?_, ?_⟩
    · exact pageGranular_gdtSetEntry (by decide)
    · rw [iomapBase_tssInit, heq]
      decide

/-- Before `gdt_init`: the static variables are zero. -/
def loadedSegments : SegmentState := ⟨fun _ => ⟨0, 0, 0, 0, 0, 0⟩, ⟨0, 0⟩, 0, fun _ => 0⟩

/-- `tss` at two megabytes. -/
theorem describesTss_iff_twoMegabytes :
    DescribesTss (tssInit (gdtInit loadedSegments 0x105000) 0x200000 0x104000) 0x200000 :=
  (describesTss_iff loadedSegments 0x105000 0x200000 0x104000).mpr (by decide)

/-- A kernel that is linked at one megabyte has `tss` somewhere behind that. -/
theorem not_describesTss :
    ¬ ∀ (s : SegmentState) (gdtAddr tss kernelStack : UInt32),
      DescribesTss (tssInit (gdtInit s gdtAddr) tss kernelStack) tss := by
  intro h
  have hlimit := (h loadedSegments 0x105000 0x105040 0x104000).limit_eq
  rw [limit_tssInit] at hlimit
  exact absurd hlimit (by decide)

end Lightstreak
