import Lightstreak.Fs.RamfsSpec

/-!
# Partial writes

`ramfs_write` clamps a request at the end of the buffer with one unsigned comparison, and sets the
size from what the clamp leaves. A request that starts behind the buffer is clamped to a wrapped
length, and one of no bytes that starts behind the end of the file still moves that end.

* `ramfsRead_splice`: what was written is read back, also behind the old end of the file;
* `exactWrite_iff`: a write stores, returns and changes exactly what a partial write should, if and
  only if it starts in the file, or has a byte to write and starts in the buffer.
-/

namespace Lightstreak

open SysLib

variable {files : Ramfs} {i offset len : ℕ} {buf : ℕ → UInt8}

/-- The number of bytes of a request for which the buffer of a file has room. -/
def writtenLen (offset len : ℕ) : ℕ := min len (ramfsMaxFileSize - offset)

/-- The end of what is written is in the buffer. -/
theorem add_writtenLen_le (h : offset ≤ ramfsMaxFileSize) (len : ℕ) :
    offset + writtenLen offset len ≤ ramfsMaxFileSize := by
  unfold writtenLen
  omega

/-- A partial write to slot `i`: the bytes that fit are stored and counted, the end of the file
moves if there are any, nothing else changes, and the bytes can be read back. -/
structure ExactWrite (files : Ramfs) (i : ℕ) (buf : ℕ → UInt8) (offset len : ℕ) (files' : Ramfs) :
    Prop where
  /-- The call returns the number of bytes that fit. -/
  returns : vfsWrite (some ramfsOps) files i buf offset len =
    some ((writtenLen offset len : ℤ), files')
  /-- These bytes are written, and no others of the file. -/
  data : ∀ k, (files' i).data k =
    if offset ≤ k ∧ k < offset + writtenLen offset len then buf (k - offset) else (files i).data k
  /-- The size grows to the end of what was written. -/
  size : (files' i).size =
    if 0 < writtenLen offset len then max (files i).size (offset + writtenLen offset len)
    else (files i).size
  /-- The name stays. -/
  name : (files' i).name = (files i).name
  /-- The file stays in use. -/
  used : (files' i).used = (files i).used
  /-- All other files stay. -/
  others : ∀ j, j ≠ i → files' j = files j
  /-- A read at the same place returns what was written. -/
  readBack : vfsRead (some ramfsOps) files' i offset (writtenLen offset len) =
    some ((writtenLen offset len : ℤ), (List.range (writtenLen offset len)).map buf)

/-- The bytes just written are read back. -/
theorem ramfsRead_splice (hi : i < ramfsMaxFiles) (hused : (files i).used)
    (hsize : (files i).size ≤ ramfsMaxFileSize) {n : ℕ} (hn : offset + n ≤ ramfsMaxFileSize) :
    ramfsRead (Function.update files i ((files i).splice offset n buf)) i offset n =
      some ((n : ℤ), (List.range n).map buf) := by
  have hsplice : ((files i).splice offset n buf).size = max (files i).size (offset + n) := rfl
  have hbytes : (((files i).splice offset n buf).content.drop offset).take n =
      (List.range n).map buf := by
    rw [RamfsFile.take_drop_content, hsplice, show min n (max (files i).size (offset + n) - offset)
      = n by omega]
    refine List.map_congr_left fun k hk => ?_
    have hin : offset ≤ offset + k ∧ offset + k < offset + n := by
      have := List.mem_range.mp hk
      omega
    simp only [RamfsFile.splice, if_pos hin, Nat.add_sub_cancel_left]
  rw [ramfsRead_eq hi (by rwa [Function.update_self]) (by rw [Function.update_self]; omega)
    (by rw [Function.update_self]; omega), Function.update_self, hbytes, List.length_map,
    List.length_range]

/-- Exact partial writes: for every used slot with a size in the buffer, every source buffer and
every request whose end does not wrap, the write is exact if and only if it starts in the file, or
has a byte to write and starts in the buffer. -/
theorem exactWrite_iff (hi : i < ramfsMaxFiles) (hused : (files i).used)
    (hsize : (files i).size ≤ ramfsMaxFileSize) (buf : ℕ → UInt8) (offset len : UInt32)
    (hlen : offset.toNat + len.toNat < 2 ^ 32) :
    (∃ files', ExactWrite files i buf offset.toNat len.toNat files') ↔
      offset.toNat ≤ (files i).size ∨ 0 < len.toNat ∧ offset.toNat < ramfsMaxFileSize := by
  have hoff := offset.toNat_lt
  have hlt := len.toNat_lt
  generalize offset.toNat = offset at *
  generalize len.toNat = len at *
  have hwrite := fun h : offset ≤ ramfsMaxFileSize => ramfsWrite_eq hi hused h hlen buf
  constructor
  · rintro ⟨files', hexact⟩
    -- A write that returns starts in the buffer.
    have hstart : offset ≤ ramfsMaxFileSize := by
      by_contra hout
      have hnone := (ramfsWrite_eq_none_iff hi hused hoff hlt buf).mpr fun h => hout h.1
      exact Option.some_ne_none _ (hexact.returns.symm.trans hnone)
    obtain ⟨-, rfl⟩ := Prod.mk.inj (Option.some.inj (hexact.returns.symm.trans (hwrite hstart)))
    -- The end moves to the end of the request even if that is empty.
    have hend := hexact.size
    rw [Function.update_self] at hend
    change max (files i).size (offset + writtenLen offset len) = _ at hend
    split at hend
    next hpos =>
      unfold writtenLen at hpos
      omega
    next => omega
  · intro hcond
    have hstart : offset ≤ ramfsMaxFileSize := by omega
    refine ⟨_, hwrite hstart, fun k => ?_, ?_, ?_, ?_, fun j hj => Function.update_of_ne hj _ _,
      ramfsRead_splice hi hused hsize (add_writtenLen_le hstart len)⟩
    · rw [Function.update_self]
      rfl
    · rw [Function.update_self]
      change max (files i).size (offset + writtenLen offset len) = _
      have hn : writtenLen offset len = min len (ramfsMaxFileSize - offset) := rfl
      split <;> omega
    · rw [Function.update_self]
      rfl
    · rw [Function.update_self]
      rfl

/-- A filesystem with one file, which is empty. -/
def oneEmptyFile : Ramfs := fun i => ⟨[0], fun _ => 0, 0, i = 0⟩

/-- Four bytes behind the end of an empty file. -/
theorem exactWrite_iff_fourBytes :
    ∃ files', ExactWrite oneEmptyFile 0 (fun _ => 0x41) 100 4 files' :=
  (exactWrite_iff (i := 0) (by decide) rfl (by decide) (fun _ => 0x41) 100 4 (by decide)).mpr
    (.inr (by decide))

/-- One byte at offset 40000 is copied out of the buffer, and no byte at offset 100 of the empty
file makes it a file of a hundred bytes. -/
theorem not_exactWrite_oneEmptyFile :
    (¬∃ files', ExactWrite oneEmptyFile 0 (fun _ => 0x41) 40000 1 files') ∧
      ¬∃ files', ExactWrite oneEmptyFile 0 (fun _ => 0x41) 100 0 files' := by
  constructor
  · rintro ⟨files', hexact⟩
    have hnone : ramfsWrite oneEmptyFile 0 (fun _ => 0x41) 40000 1 = none :=
      (ramfsWrite_eq_none_iff (i := 0) (by decide) rfl (by decide) (by decide) _).mpr (by decide)
    exact Option.some_ne_none _ (hexact.returns.symm.trans hnone)
  · rintro ⟨files', hexact⟩
    have hwrite : (ramfsWrite oneEmptyFile 0 (fun _ => 0x41) 100 0).map (fun q => (q.2 0).size) =
        some 100 := by decide
    have hsize : (files' 0).size = 0 := hexact.size
    have hreturns : ramfsWrite oneEmptyFile 0 (fun _ => 0x41) 100 0 = _ := hexact.returns
    rw [hreturns, Option.map_some, hsize] at hwrite
    cases hwrite

end Lightstreak
