import Mathlib.Data.List.Nodup
import Lightstreak.Fs.Mkramfs
import Lightstreak.Fs.RamfsSpec

/-!
# Loading an image undoes packing it

`mkramfs` and `initramfs_load` share no code. Between them stands the image: a header, a table of
72-byte entries and the contents at absolute offsets.

* `addFiles_eq`: what `mkramfs` packs: the regular files whose name does not start with a dot;
* `Loaded.initramfsLoad`: loading the image of any list of files installs them one after another
  (`install`): each goes to the next slot, cut to the size of its buffer, unless its name is taken
  or no slot is left; nothing but the image is read;
* `Loaded.holdsFiles`: what `ramfs_readdir`, `ramfs_open` and `ramfs_read` then return;
* `initramfsLoad_mkramfs_iff`: the files of a directory arrive exactly if none of their names
  starts with a dot.
-/

namespace Lightstreak

open SysLib

/-- A file on the host. -/
structure HostFile where
  /-- The name on the host, without its terminator. -/
  name : List UInt8
  /-- The contents. -/
  data : List UInt8

/-- The regular files of a directory, in order. -/
def regularFiles (dir : List DirEnt) : List HostFile :=
  dir.filterMap fun ent => ent.contents.map fun data => ⟨ent.dName, data⟩

/-- The limits of the ramfs on names: at most 64 files with different names, which are file names of
at most 63 bytes. -/
structure Nameable (fs : List HostFile) : Prop where
  /-- There is a slot for each file. -/
  length_le : fs.length ≤ maxFiles
  /-- No two files have the same name. -/
  nodup : (fs.map HostFile.name).Nodup
  /-- No name is empty. -/
  name_ne_nil : ∀ f ∈ fs, f.name ≠ []
  /-- A name is a string. -/
  no_nul : ∀ f ∈ fs, 0 ∉ f.name
  /-- A name is not a path. -/
  no_slash : ∀ f ∈ fs, '/'.toUInt8 ∉ f.name
  /-- A name and its terminator fit `name[64]`. -/
  name_le : ∀ f ∈ fs, f.name.length < nameLen

/-- The limits of the ramfs: a file has at most 32 KB. -/
structure Packable (fs : List HostFile) : Prop extends Nameable fs where
  /-- The contents fit the buffer of a slot. -/
  size_le : ∀ f ∈ fs, f.data.length ≤ ramfsMaxFileSize

/-- One more file, with a name of its own. -/
theorem Nameable.cons {fs : List HostFile} {f : HostFile} (hone : Nameable [f]) (hfs : Nameable fs)
    (hnew : ∀ g ∈ fs, g.name ≠ f.name) (hlen : fs.length < maxFiles) : Nameable (f :: fs) := by
  have hmem : f ∈ [f] := List.mem_singleton_self f
  refine ⟨hlen, ?_, ?_, ?_, ?_, ?_⟩
  · rw [List.map_cons, List.nodup_cons]
    refine ⟨fun hin => ?_, hfs.nodup⟩
    obtain ⟨g, hg, hname⟩ := List.mem_map.mp hin
    exact hnew g hg hname
  · exact List.forall_mem_cons.mpr ⟨hone.name_ne_nil f hmem, hfs.name_ne_nil⟩
  · exact List.forall_mem_cons.mpr ⟨hone.no_nul f hmem, hfs.no_nul⟩
  · exact List.forall_mem_cons.mpr ⟨hone.no_slash f hmem, hfs.no_slash⟩
  · exact List.forall_mem_cons.mpr ⟨hone.name_le f hmem, hfs.name_le⟩

/-- The name starts with a dot. -/
def HostFile.Hidden (f : HostFile) : Prop := f.name.head? = some '.'.toUInt8

instance (f : HostFile) : Decidable f.Hidden := inferInstanceAs (Decidable (_ = _))

/-- The files that `mkramfs` packs if there is room for them in its table. -/
def packedFiles (dir : List DirEnt) : List HostFile := (regularFiles dir).filter fun f => ¬f.Hidden

variable {fs done rest : List HostFile} {f : HostFile} {files files' : Ramfs} {mem : ReadMem}
  {dir : List DirEnt} {base P off i n : ℕ}

/-! ## What `mkramfs` writes -/

/-- The entry of a file before offsets are known. -/
def HostFile.entry (f : HostFile) : FileEntry :=
  ⟨nameField f.name, 0, f.data.length % 2 ^ 32, f.data⟩

/-- The part of the table for some files, with the offset of the first. -/
def tableBytes (off : ℕ) (fs : List HostFile) : List UInt8 :=
  (setOffsets off (fs.map HostFile.entry)).flatMap entryBytes

/-- The contents of some files. -/
def blobBytes (fs : List HostFile) : List UInt8 := fs.flatMap HostFile.data

/-- The image of some files. -/
def imageOf (fs : List HostFile) : List UInt8 :=
  le32 mkramfsMagic ++ le32 fs.length ++ tableBytes (8 + 72 * fs.length) fs ++ blobBytes fs

/-- The files in the table, as long as there is room for all of them. -/
theorem addFiles_eq (hlen : n + (packedFiles dir).length ≤ maxFiles) :
    addFiles n dir = (packedFiles dir).map HostFile.entry := by
  induction dir generalizing n with
  | nil => rfl
  | cons ent dir ih =>
    by_cases hroom : n < maxFiles
    · rw [addFiles, if_pos hroom]
      cases hcont : ent.contents with
      | none =>
        -- No regular file: the entry is passed over, with or without the test of its name.
        have hreg : packedFiles (ent :: dir) = packedFiles dir := by
          simp [packedFiles, regularFiles, hcont]
        rw [hreg] at hlen ⊢
        simp only [ih hlen, ite_self]
      | some data =>
        -- The test is on the first byte, so that every hidden file fails it like `.` and `..`.
        by_cases hdot : ent.dName.head? = some '.'.toUInt8
        · have hreg : packedFiles (ent :: dir) = packedFiles dir := by
            simp [packedFiles, regularFiles, hcont, HostFile.Hidden, hdot]
          rw [hreg] at hlen ⊢
          rw [if_pos hdot, ih hlen]
        · have hreg : packedFiles (ent :: dir) = ⟨ent.dName, data⟩ :: packedFiles dir := by
            simp [packedFiles, regularFiles, hcont, HostFile.Hidden, hdot]
          rw [hreg, List.length_cons] at hlen
          rw [if_neg hdot, hreg, List.map_cons]
          simp only [ih (show n + 1 + (packedFiles dir).length ≤ maxFiles by omega)]
          rfl
    · -- The table is full, so that no file is left.
      have hnil : packedFiles (ent :: dir) = [] := List.eq_nil_of_length_eq_zero (by omega)
      rw [addFiles, if_neg hroom, hnil]
      rfl

/-- Setting the offsets keeps the number of entries. -/
theorem length_setOffsets (off : ℕ) (es : List FileEntry) :
    (setOffsets off es).length = es.length := by
  induction es generalizing off with
  | nil => rfl
  | cons e es ih => rw [setOffsets, List.length_cons, List.length_cons, ih]

/-- Files of less than 4 GB are written fully. -/
theorem flatMap_take_setOffsets (off : ℕ) (hsize : ∀ f ∈ fs, f.data.length < 2 ^ 32) :
    ((setOffsets off (fs.map HostFile.entry)).flatMap fun e => e.data.take e.size) =
      blobBytes fs := by
  induction fs generalizing off with
  | nil => rfl
  | cons f fs ih =>
    have hf : (f.data.take (f.data.length % 2 ^ 32)) = f.data := by
      rw [Nat.mod_eq_of_lt (hsize f (by simp)), List.take_length]
    rw [List.map_cons, setOffsets, List.flatMap_cons, ih _ fun g hg => hsize g (by simp [hg])]
    exact congrArg (· ++ blobBytes fs) hf

/-- Within the limits of `mkramfs` the image holds all files that were found. -/
theorem mkramfs_eq (hlen : (packedFiles dir).length ≤ maxFiles)
    (hsize : ∀ f ∈ packedFiles dir, f.data.length < 2 ^ 32) :
    mkramfs dir = imageOf (packedFiles dir) := by
  have hmax : maxFiles = 64 := rfl
  rw [mkramfs, addFiles_eq (by omega)]
  generalize packedFiles dir = fs at *
  have hheader : add32 8 ((fs.map HostFile.entry).length * 72 % 2 ^ 32) = 8 + 72 * fs.length := by
    rw [List.length_map, add32]
    omega
  rw [hheader, writeImage, length_setOffsets, List.length_map, flatMap_take_setOffsets _ hsize]
  rfl

/-! ## Loading -/

/-- The slot holds the file. -/
structure SlotHolds (slot : RamfsFile) (f : HostFile) : Prop where
  /-- The slot is in use. -/
  used : slot.used = true
  /-- The name of the file is stored with its terminator. -/
  name : ∃ tail, slot.name = f.name ++ 0 :: tail
  /-- The contents are those of the file. -/
  content : slot.content = f.data

/-- The first slots hold the files, in order, and the others are free. -/
structure Loaded (files : Ramfs) (fs : List HostFile) : Prop where
  /-- The ramfs is sound. -/
  inv : RamfsInv files
  /-- File `i` of the list is in slot `i`. -/
  slot : ∀ i f, fs[i]? = some f → SlotHolds (files i) f
  /-- The slots behind the list are free. -/
  free : ∀ i, fs.length ≤ i → i < ramfsMaxFiles → (files i).used = false

/-- The name that is read from a slot is the name of the file. -/
theorem SlotHolds.cstr_name {slot : RamfsFile} (h : SlotHolds slot f) (hnul : 0 ∉ f.name) :
    cstr slot.name = f.name := by
  obtain ⟨tail, htail⟩ := h.name
  rw [htail, cstr_append_zero hnul]

/-- Copying a string that fits copies it with its terminator. -/
theorem copyName_eq {s : List UInt8} (dst tail : List UInt8) (hs : 0 ∉ s) (hn : s.length ≤ n) :
    copyName n dst (s ++ 0 :: tail) = some (s ++ 0 :: dst.drop (s.length + 1)) := by
  induction s generalizing n dst with
  | nil => cases n <;> simp [copyName]
  | cons c s ih =>
    obtain ⟨n, rfl⟩ : ∃ k, n = k + 1 := Nat.exists_eq_add_one.mpr (Nat.zero_lt_of_lt hn)
    obtain ⟨hc, hs⟩ := not_or.mp (mt List.mem_cons.mpr hs)
    rw [List.cons_append, copyName, if_neg (Ne.symm hc), ih _ hs (Nat.le_of_succ_le_succ hn)]
    simp

/-- The slot that a name is found in. -/
theorem Loaded.slotOf (hl : Loaded files fs) (hpack : Nameable fs) (hf : fs[i]? = some f) :
    slotOf files f.name = some i := by
  have hi : i < fs.length := (List.getElem?_eq_some_iff.mp hf).1
  have hmax : maxFiles = ramfsMaxFiles := rfl
  have hslot := hl.slot i f hf
  have hmem : f ∈ fs := List.mem_of_getElem? hf
  have hle := hpack.length_le
  refine slotOf_eq_some_iff.mpr ⟨by omega, ⟨hslot.used, hslot.cstr_name (hpack.no_nul f hmem)⟩,
    fun j hj _ => ?_⟩
  -- An earlier slot holds a file with another name.
  obtain ⟨g, hg⟩ : ∃ g, fs[j]? = some g := ⟨fs[j], List.getElem?_eq_getElem (by omega)⟩
  have hgmem : g ∈ fs := List.mem_of_getElem? hg
  rw [(hl.slot j g hg).cstr_name (hpack.no_nul g hgmem)]
  intro heq
  have := (List.nodup_iff_getElem?_ne_getElem?.mp hpack.nodup) j i hj (by simpa using hi)
  simp [hg, hf, heq] at this

/-- A name that no file has is in no slot. -/
theorem Loaded.slotOf_eq_none (hl : Loaded files fs) (hnul : ∀ g ∈ fs, 0 ∉ g.name)
    (hnew : ∀ g ∈ fs, g.name ≠ f.name) : Lightstreak.slotOf files f.name = none := by
  refine slotOf_eq_none_iff.mpr fun j hj hused => ?_
  by_cases hlt : j < fs.length
  · obtain ⟨g, hg⟩ : ∃ g, fs[j]? = some g := ⟨fs[j], List.getElem?_eq_getElem hlt⟩
    have hgmem : g ∈ fs := List.mem_of_getElem? hg
    rw [(hl.slot j g hg).cstr_name (hnul g hgmem)]
    exact hnew g hgmem
  · simp [hl.free j (by omega) hj] at hused

/-- The first free slot is the one behind the list. -/
theorem Loaded.findFreeSlot (hl : Loaded files fs) (hlen : fs.length < ramfsMaxFiles) :
    findFreeSlot files = fs.length := by
  refine findFreeSlot_eq_iff.mpr ⟨hlen, hl.free fs.length le_rfl hlen, fun j hj => ?_⟩
  obtain ⟨g, hg⟩ : ∃ g, fs[j]? = some g := ⟨fs[j], List.getElem?_eq_getElem hj⟩
  exact (hl.slot j g hg).used

/-- The name field is the name with its terminator and padding. -/
theorem nameField_eq (hname : f.name.length < nameLen) :
    nameField f.name = f.name ++ 0 :: List.replicate (nameLen - 1 - f.name.length) 0 := by
  have hlen : nameLen = 64 := rfl
  rw [nameField, List.take_of_length_le (by omega),
    show nameLen - f.name.length = (nameLen - 1 - f.name.length) + 1 by omega,
    List.replicate_succ]

/-- A name field always has 64 bytes. -/
theorem length_nameField (hname : f.name.length < nameLen) :
    (nameField f.name).length = nameLen := by
  have hlen : nameLen = 64 := rfl
  rw [nameField_eq hname, List.length_append, List.length_cons, List.length_replicate]
  omega

/-! ### One file after another -/

/-- What a buffer has room for. -/
def HostFile.cut (f : HostFile) : HostFile := { f with data := f.data.take ramfsMaxFileSize }

/-- The files after one more file was loaded: it is appended, unless its name is taken or there are
64 files already. -/
def install (done : List HostFile) (f : HostFile) : List HostFile :=
  if f.name ∈ done.map HostFile.name ∨ ramfsMaxFiles ≤ done.length then done else done ++ [f.cut]

/-- What the loader relies on in a name. -/
structure HostFile.ShortName (f : HostFile) : Prop where
  /-- The name has no NUL inside. -/
  no_nul : 0 ∉ f.name
  /-- The name and its terminator fit the field of the image. -/
  name_le : f.name.length < nameLen

/-- Creating a file with a new name takes the next slot. -/
theorem Loaded.ramfsCreate (hl : Loaded files done) (tail : List UInt8)
    (hlen : done.length < ramfsMaxFiles) (hdone : ∀ g ∈ done, 0 ∉ g.name) (hf : f.ShortName)
    (hnew : ∀ g ∈ done, g.name ≠ f.name) :
    ∃ tail', ramfsCreate files (f.name ++ 0 :: tail) = some ((done.length : ℤ),
      Function.update files done.length
        { files done.length with name := f.name ++ 0 :: tail', size := 0, used := true }) := by
  have hfind : findFile files (f.name ++ 0 :: tail) = some (-1) := by
    rw [findFile_eq hl.inv (by simp), cstr_append_zero hf.no_nul, hl.slotOf_eq_none hdone hnew]
    rfl
  have hcopy := copyName_eq (files done.length).name tail hf.no_nul
    (show f.name.length ≤ vfsMaxFilename - 1 from Nat.le_of_lt_succ hf.name_le)
  have hpos : ¬((done.length : ℤ) < 0) := by omega
  refine ⟨(files done.length).name.drop (f.name.length + 1), ?_⟩
  simp only [Lightstreak.ramfsCreate, hfind, hl.findFreeSlot hlen, Option.bind_eq_bind,
    Option.bind_some, Int.toNat_natCast, hcopy, if_neg hpos]
  rfl

/-- Creating a file fails if its name is taken or no slot is left. -/
theorem Loaded.ramfsCreate_fails (hl : Loaded files done) (tail : List UInt8)
    (hdone : ∀ g ∈ done, 0 ∉ g.name) (hf : f.ShortName)
    (hno : f.name ∈ done.map HostFile.name ∨ ramfsMaxFiles ≤ done.length) :
    Lightstreak.ramfsCreate files (f.name ++ 0 :: tail) = some (-1, files) := by
  have hfind : findFile files (f.name ++ 0 :: tail) =
      some (idxOrNeg (Lightstreak.slotOf files f.name)) := by
    rw [findFile_eq hl.inv (by simp), cstr_append_zero hf.no_nul]
  rw [Lightstreak.ramfsCreate, hfind]
  cases hslot : Lightstreak.slotOf files f.name with
  | some j => simp [idxOrNeg]
  | none =>
    -- The name is not taken, so that the slots are.
    have hfull : ramfsMaxFiles ≤ done.length := by
      by_contra hroom
      obtain ⟨g, hg, hname⟩ := List.mem_map.mp (hno.resolve_right hroom)
      obtain ⟨i, hi, hgi⟩ := List.getElem_of_mem hg
      have hgslot := hl.slot i g (by rw [List.getElem?_eq_getElem hi, hgi])
      refine slotOf_eq_none_iff.mp hslot i (by omega) hgslot.used ?_
      rw [hgslot.cstr_name (hdone g hg), hname]
    have hfree : Lightstreak.findFreeSlot files < 0 := by
      refine findFreeSlot_neg_iff.mpr fun i hi => ?_
      have hget : done[i]? = some (done[i]) := List.getElem?_eq_getElem (by omega)
      exact (hl.slot i _ hget).used
    simp [idxOrNeg, hfree]

/-- Copying the contents of a file into the slot that was created for it, as far as they fit. -/
theorem loadData_eq (files : Ramfs) (i : ℕ) (hempty : (files i).size = 0)
    (hdata : mem.Holds (base + off) f.data) (hend : base + off + f.data.length ≤ 2 ^ 32) :
    ∃ data, loadData mem base off f.data.length i files =
        some (Function.update files i
          { files i with data := data, size := f.cut.data.length }) ∧
      (List.range f.cut.data.length).map data = f.cut.data := by
  have hmax : ramfsMaxFileSize = 32768 := rfl
  have hcut : f.cut.data.length = min ramfsMaxFileSize f.data.length := List.length_take
  rcases Nat.eq_zero_or_pos f.data.length with hzero | hpos
  · -- An empty file is not copied; its slot is empty already.
    have hcut0 : f.cut.data.length = 0 := by omega
    refine ⟨(files i).data, ?_, ?_⟩
    · have hno : ¬((0 : ℤ) ≤ i ∧ 0 < f.data.length) := by omega
      have hsame : ({ files i with data := (files i).data, size := f.cut.data.length } :
          RamfsFile) = files i := by
        rw [hcut0, ← hempty]
      rw [loadData, if_neg hno, hsame, Function.update_eq_self]
    · rw [hcut0, List.eq_nil_of_length_eq_zero hcut0]
      rfl
  · have hyes : (0 : ℤ) ≤ i ∧ 0 < f.data.length := ⟨by omega, hpos⟩
    have hcopyLen : (if ramfsMaxFileSize < f.data.length then ramfsMaxFileSize
        else f.data.length) = f.cut.data.length := by
      split <;> omega
    have hsrc : ∀ k < f.cut.data.length,
        mem (add32 (add32 base off) k) = some (f.data.getD k 0) := fun k hk => by
      have hk' : k < f.data.length := by omega
      rw [add32_eq (show base + off < 2 ^ 32 by omega), add32_eq (by omega), hdata.get hk',
        List.getD_eq_getElem _ _ hk']
    have hcopy : memCopyIn (files i).data 0 _ f.cut.data.length = _ :=
      memCopyIn_eq (by omega) hsrc
    refine ⟨fun k => if 0 ≤ k ∧ k < 0 + f.cut.data.length then f.data.getD (k - 0) 0
      else (files i).data k, ?_, ?_⟩
    · rw [loadData, if_pos hyes]
      simp only [hcopyLen, Int.toNat_natCast, hcopy, Option.bind_eq_bind, Option.bind_some,
        Option.pure_def]
    · refine List.ext_getElem (by simp) fun k h₁ h₂ => ?_
      have hk' : k < f.data.length := by omega
      simp only [List.getElem_map, List.getElem_range, Nat.zero_le, true_and, Nat.zero_add, h₂,
        if_true, Nat.sub_zero, List.getD_eq_getElem _ _ hk']
      exact (List.getElem_take).symm

/-- Filling the next slot. -/
theorem Loaded.snoc {slot : RamfsFile} (hl : Loaded files fs) (hslot : SlotHolds slot f)
    (hinv : RamfsInv (Function.update files fs.length slot)) :
    Loaded (Function.update files fs.length slot) (fs ++ [f]) := by
  refine ⟨hinv, fun i g hg => ?_, fun i hi hlt => ?_⟩
  · by_cases hi : i = fs.length
    · -- The new file is the last one of the list.
      rw [hi, List.getElem?_concat_length, Option.some.injEq] at hg
      rw [hi, Function.update_self]
      exact hg ▸ hslot
    · rw [Function.update_of_ne hi]
      have hlt : i < fs.length := by
        have := (List.getElem?_eq_some_iff.mp hg).1
        rw [List.length_append, List.length_singleton] at this
        omega
      exact hl.slot i g (by rwa [List.getElem?_append_left hlt] at hg)
  · rw [List.length_append, List.length_singleton] at hi
    rw [Function.update_of_ne (by omega)]
    exact hl.free i (by omega) hlt

/-- What the loop reads of an entry: the offset, the size, and the name in its field. -/
theorem reads_entry (hf : f.ShortName)
    (hentry : mem.Holds P (nameField f.name ++ le32 off ++ le32 f.data.length))
    (hP : P + 72 ≤ 2 ^ 32) (hoff : off < 2 ^ 32) (hsize : f.data.length < 2 ^ 32) :
    mem.load32 (add32 P 64) = some off ∧ mem.load32 (add32 P 68) = some f.data.length ∧
      mem.bytes P vfsMaxFilename =
        f.name ++ 0 :: List.replicate (nameLen - 1 - f.name.length) 0 ∧
      mem.readStr P (2 ^ 32) = some f.name := by
  have hname := hf.name_le
  -- The entry is the name field, the offset at 64 and the size at 68.
  rw [List.append_assoc, ReadMem.holds_append, ReadMem.holds_append] at hentry
  obtain ⟨hnameAt, hoffAt, hsizeAt⟩ := hentry
  have hlength : (nameField f.name).length = 64 := length_nameField hname
  have hoffset : mem.load32 (add32 P 64) = some off := by
    rw [add32_eq (by omega), ← hlength, hoffAt.load32, Nat.mod_eq_of_lt hoff]
  have hfsize : mem.load32 (add32 P 68) = some f.data.length := by
    rw [add32_eq (by omega), show P + 68 = P + (nameField f.name).length + 4 by omega,
      ← Nat.mod_eq_of_lt hsize]
    exact hsizeAt.load32
  have hbytes : mem.bytes P vfsMaxFilename = nameField f.name :=
    (congrArg _ hlength.symm).trans hnameAt.bytes
  rw [nameField_eq hname] at hnameAt hbytes
  exact ⟨hoffset, hfsize, hbytes,
    hnameAt.readStr hf.no_nul (n := 2 ^ 32) (Nat.lt_trans hname (by decide))⟩

/-- One turn of the loop installs the file of the entry. -/
theorem Loaded.loadEntry (hl : Loaded files done) (hdone : ∀ g ∈ done, 0 ∉ g.name)
    (hf : f.ShortName) (hentry : mem.Holds P (nameField f.name ++ le32 off ++ le32 f.data.length))
    (hP : P + 72 ≤ 2 ^ 32) (hdata : mem.Holds (base + off) f.data)
    (hend : base + off + f.data.length ≤ 2 ^ 32) (hoff : off < 2 ^ 32)
    (hsize : f.data.length < 2 ^ 32) :
    ∃ files' msg, loadEntry mem base P files = some (files', msg) ∧
      Loaded files' (install done f) := by
  obtain ⟨hoffset, hfsize, hbytes, hprint⟩ := reads_entry hf hentry hP hoff hsize
  by_cases hno : f.name ∈ done.map HostFile.name ∨ ramfsMaxFiles ≤ done.length
  · -- Nothing is created, and nothing copied.
    have hcreate := hl.ramfsCreate_fails (List.replicate (nameLen - 1 - f.name.length) 0) hdone hf
      hno
    rw [← hbytes] at hcreate
    have hskip : loadData mem base off f.data.length (-1) files = some files := by
      rw [loadData, if_neg (by omega)]
    refine ⟨files, .loaded f.name f.data.length, ?_, by rwa [install, if_pos hno]⟩
    simp only [Lightstreak.loadEntry, hoffset, hfsize, hcreate, hskip, hprint,
      Option.bind_eq_bind, Option.bind_some, Option.pure_def]
  · obtain ⟨hfresh, hroom⟩ := not_or.mp hno
    -- The slot is created, then filled.
    obtain ⟨tail, hcreate⟩ := hl.ramfsCreate (List.replicate (nameLen - 1 - f.name.length) 0)
      (Nat.lt_of_not_le hroom) hdone hf fun g hg heq =>
        hfresh (heq ▸ List.mem_map_of_mem hg)
    rw [← hbytes] at hcreate
    obtain ⟨data, hload, hcontent⟩ := loadData_eq (Function.update files done.length
      { files done.length with name := f.name ++ 0 :: tail, size := 0, used := true })
      done.length (by rw [Function.update_self]) hdata hend
    rw [Function.update_idem, Function.update_self] at hload
    have hentry : Lightstreak.loadEntry mem base P files =
        some (Function.update files done.length
          ⟨f.name ++ 0 :: tail, data, f.cut.data.length, true⟩,
          .loaded f.name f.data.length) := by
      simp only [Lightstreak.loadEntry, hoffset, hfsize, hcreate, hload, hprint,
        Option.bind_eq_bind, Option.bind_some, Option.pure_def]
    rw [install, if_neg hno]
    exact ⟨_, _, hentry, hl.snoc ⟨rfl, ⟨tail, rfl⟩, hcontent⟩ (hl.inv.loadEntry hentry)⟩

/-- Installing a file keeps names free of NULs. -/
theorem no_nul_install (hdone : ∀ g ∈ done, 0 ∉ g.name) (hf : 0 ∉ f.name) :
    ∀ g ∈ install done f, 0 ∉ g.name := by
  unfold install
  split
  · exact hdone
  · simpa [or_imp, forall_and] using ⟨hdone, hf⟩

/-- The table is the entry of the first file and then the table of the others. -/
theorem tableBytes_cons (hsize : f.data.length < 2 ^ 32) :
    tableBytes off (f :: fs) = nameField f.name ++ le32 off ++ le32 f.data.length ++
      tableBytes (add32 off f.data.length) fs := by
  rw [tableBytes, List.map_cons, HostFile.entry, Nat.mod_eq_of_lt hsize]
  rfl

/-- An entry of the table has 72 bytes. -/
theorem length_tableBytes (off : ℕ) (hname : ∀ f ∈ fs, f.name.length < nameLen) :
    (tableBytes off fs).length = 72 * fs.length := by
  induction fs generalizing off with
  | nil => rfl
  | cons f fs ih =>
    have htail : (tableBytes _ fs).length = _ :=
      ih (add32 off (f.data.length % 2 ^ 32)) fun g hg => hname g (by simp [hg])
    have hlength : (nameField f.name).length = 64 := length_nameField (hname f (by simp))
    have hentry : (entryBytes { f.entry with offset := off }).length = 72 := by
      simp [entryBytes, HostFile.entry, hlength, le32]
    rw [tableBytes] at htail
    rw [tableBytes, List.map_cons, setOffsets, List.flatMap_cons, List.length_append, hentry,
      List.length_cons]
    dsimp only [HostFile.entry] at htail ⊢
    omega

/-- No file is longer than all files together. -/
theorem length_le_length_blobBytes (hf : f ∈ fs) : f.data.length ≤ (blobBytes fs).length := by
  induction fs with
  | nil => cases hf
  | cons g fs ih =>
    rw [blobBytes, List.flatMap_cons, List.length_append]
    rcases List.mem_cons.mp hf with rfl | hf
    · exact Nat.le_add_right _ _
    · exact (ih hf).trans (Nat.le_add_left _ _)

/-- The size of all files together is bounded. -/
theorem length_blobBytes_le (hsize : ∀ f ∈ fs, f.data.length ≤ ramfsMaxFileSize) :
    (blobBytes fs).length ≤ ramfsMaxFileSize * fs.length := by
  induction fs with
  | nil => exact Nat.zero_le _
  | cons f fs ih =>
    have hf := hsize f List.mem_cons_self
    have hfs := ih fun g hg => hsize g (List.mem_cons_of_mem f hg)
    rw [blobBytes, List.flatMap_cons, List.length_append, List.length_cons, Nat.mul_succ,
      Nat.add_comm]
    exact Nat.add_le_add hfs hf

/-- The loop installs the files of the rest of the table. The address of the next entry wraps if
the table ends where the address space does. -/
theorem Loaded.loadEntries (hl : Loaded files done) (hdone : ∀ g ∈ done, 0 ∉ g.name)
    (hrest : ∀ f ∈ rest, f.ShortName) (htable : mem.Holds P (tableBytes off rest))
    (hP : P + 72 * rest.length ≤ 2 ^ 32) (hblob : mem.Holds (base + off) (blobBytes rest))
    (hend : base + off + (blobBytes rest).length ≤ 2 ^ 32)
    (hoff : off + (blobBytes rest).length < 2 ^ 32) :
    ∃ files' log, loadEntries mem base rest.length (P % 2 ^ 32) files = some (files', log) ∧
      Loaded files' (rest.foldl install done) := by
  induction rest generalizing files done P off with
  | nil => exact ⟨files, [], rfl, hl⟩
  | cons f rest ih =>
    obtain ⟨hf, hrest⟩ := List.forall_mem_cons.mp hrest
    have hlength : (nameField f.name).length = 64 := length_nameField hf.name_le
    rw [List.length_cons] at hP
    have hcons : blobBytes (f :: rest) = f.data ++ blobBytes rest := List.flatMap_cons
    rw [hcons, List.length_append] at hend hoff
    rw [hcons, ReadMem.holds_append] at hblob
    have hsize : f.data.length < 2 ^ 32 := by omega
    rw [tableBytes_cons hsize, ReadMem.holds_append] at htable
    obtain ⟨hentry, htable⟩ := htable
    have hnext : P + (nameField f.name ++ le32 off ++ le32 f.data.length).length = P + 72 := by
      rw [List.length_append, List.length_append, hlength]
      rfl
    rw [hnext, add32_eq (by omega)] at htable
    -- This entry, then the others by the induction hypothesis.
    obtain ⟨files₁, msg, hfirst, hl₁⟩ :=
      hl.loadEntry hdone hf hentry (by omega) hblob.1 (by omega) (by omega) hsize
    obtain ⟨files₂, log, hload, hl₂⟩ := ih hl₁ (no_nul_install hdone hf.no_nul) hrest htable
      (by omega) (by rw [← Nat.add_assoc]; exact hblob.2) (by omega) (by omega)
    refine ⟨files₂, msg :: log, ?_, hl₂⟩
    have hptr : add32 P 72 = (P + 72) % 2 ^ 32 := rfl
    rw [List.length_cons, Nat.mod_eq_of_lt (by omega), Lightstreak.loadEntries]
    simp only [hfirst, hptr, hload, Option.bind_eq_bind, Option.bind_some, Option.pure_def]

theorem loaded_ramfsInit (files : Ramfs) : Loaded (ramfsInit files).2 [] where
  inv := ramfsInv_ramfsInit files
  slot := fun i f h => by cases h
  free := fun i _ hi => by simp [ramfsInit, hi]

/-- Loading an image that ends inside the address space. Only the image can be read. -/
theorem Loaded.initramfsLoad (hl : Loaded files done) (hdone : ∀ g ∈ done, 0 ∉ g.name)
    (hfs : ∀ f ∈ fs, f.ShortName) (hlt : (imageOf fs).length < 2 ^ 32)
    (hfits : base + (imageOf fs).length ≤ 2 ^ 32) :
    ∃ files' log, initramfsLoad (ReadMem.ofList base (imageOf fs)) base files =
      some (files', log) ∧ Loaded files' (fs.foldl install done) := by
  have hholds := ReadMem.holds_ofList base (imageOf fs)
  generalize ReadMem.ofList base (imageOf fs) = mem at hholds
  have htable := length_tableBytes (8 + 72 * fs.length) fun f hf => (hfs f hf).name_le
  have hword : ∀ v, (le32 v).length = 4 := fun _ => rfl
  simp only [imageOf, ReadMem.holds_append, List.length_append, hword, htable] at hholds hfits hlt
  -- The four parts of the image, each behind the one before.
  obtain ⟨⟨⟨hmagicAt, hcountAt⟩, htableAt⟩, hblobAt⟩ := hholds
  have hmagic : mem.load32 base = some initramfsMagic := hmagicAt.load32
  have hcount : mem.load32 (add32 base 4) = some fs.length := by
    rw [add32_eq (by omega), hcountAt.load32, Nat.mod_eq_of_lt (by omega)]
  obtain ⟨files', log, hload, hl'⟩ := hl.loadEntries hdone hfs htableAt (by omega)
    (by rwa [← Nat.add_assoc] at hblobAt ⊢) (by omega) (by omega)
  refine ⟨files', .loading fs.length :: log, ?_, hl'⟩
  have hptr : add32 base 8 = (base + (4 + 4)) % 2 ^ 32 := rfl
  simp only [Lightstreak.initramfsLoad, hmagic, hcount, hptr, hload, Option.bind_eq_bind,
    Option.bind_some, Option.pure_def, ne_eq, not_true_eq_false, ↓reduceIte]

/-- Files with different names, as many as there is room for, are all installed, except for those
whose name is taken at the start. -/
theorem foldl_install_eq (hnodup : (fs.map HostFile.name).Nodup)
    (hlen : done.length + fs.length ≤ ramfsMaxFiles) :
    fs.foldl install done =
      done ++ (fs.filter fun f => f.name ∉ done.map HostFile.name).map HostFile.cut := by
  induction fs generalizing done with
  | nil => simp
  | cons f fs ih =>
    rw [List.map_cons, List.nodup_cons] at hnodup
    rw [List.length_cons] at hlen
    rw [List.foldl_cons, install]
    by_cases htaken : f.name ∈ done.map HostFile.name
    · rw [if_pos (.inl htaken), ih hnodup.2 (by omega),
        List.filter_cons_of_neg (by simpa using htaken)]
    · have hlen' : (done ++ [f.cut]).length + fs.length ≤ ramfsMaxFiles := by
        rw [List.length_append, List.length_singleton]
        omega
      rw [if_neg (not_or.mpr ⟨htaken, by omega⟩), ih hnodup.2 hlen',
        List.filter_cons_of_pos (by simpa using htaken), List.map_cons, List.append_assoc,
        List.singleton_append]
      -- The later files have other names than this one.
      have hother : ∀ g ∈ fs, g.name ≠ f.name := fun g hg heq =>
        hnodup.1 (heq ▸ List.mem_map_of_mem hg)
      refine congrArg (fun l => done ++ f.cut :: l.map HostFile.cut)
        (List.filter_congr fun g hg => ?_)
      simp [HostFile.cut, hother g hg]

/-- Files with different names are installed one after the other. -/
theorem Nameable.foldl_install_nil (hname : Nameable fs) :
    fs.foldl install [] = fs.map HostFile.cut := by
  have hlen : ([] : List HostFile).length + fs.length ≤ ramfsMaxFiles :=
    (Nat.zero_add _).trans_le hname.length_le
  simpa using foldl_install_eq hname.nodup hlen

/-! ## What the filesystem then returns -/

/-- The directory entry of a file. -/
def HostFile.dirent (f : HostFile) : Dirent := ⟨f.name ++ [0], f.data.length⟩

/-- The filesystem has exactly these files, in this order, as its operations see them. A path is
given with the bytes that may be read behind it. -/
structure HoldsFiles (files : Ramfs) (fs : List HostFile) : Prop where
  /-- The directory lists the files in their order. -/
  readdir : ∀ max : ℤ, ramfsReaddir files max =
    some (((fs.take max.toNat).length : ℤ), (fs.take max.toNat).map HostFile.dirent)
  /-- Every file is opened by its name. -/
  openName : ∀ (i : ℕ) f rest, fs[i]? = some f →
    ramfsOpen files (f.name ++ 0 :: rest) = some (i : ℤ)
  /-- Every file is opened by its name with a slash before it. -/
  openSlash : ∀ (i : ℕ) f rest, fs[i]? = some f →
    ramfsOpen files ('/'.toUInt8 :: (f.name ++ 0 :: rest)) = some (i : ℤ)
  /-- Every file reads as its contents. -/
  read : ∀ (i : ℕ) f offset len, fs[i]? = some f → ramfsRead files i offset len =
    some ((((f.data.drop offset).take len).length : ℤ), (f.data.drop offset).take len)

/-- The loop of `ramfs_readdir` lists the files of the slots it still has to look at, as many as
there is room for. -/
theorem Loaded.readdirFrom (hl : Loaded files fs) (hpack : Nameable fs) (max count : ℤ)
    (hi : i + n = ramfsMaxFiles) : readdirFrom files max i n count =
      some (((fs.drop i).take (max - count).toNat).map HostFile.dirent) := by
  induction n generalizing i count with
  | zero =>
    have hlen : fs.length ≤ ramfsMaxFiles := hpack.length_le
    rw [List.drop_of_length_le (by omega)]
    simp [Lightstreak.readdirFrom]
  | succ n ih =>
    rw [Lightstreak.readdirFrom]
    by_cases hroom : count < max
    · rw [if_pos hroom]
      by_cases hlt : i < fs.length
      · have hget : fs[i]? = some fs[i] := List.getElem?_eq_getElem hlt
        have hslot := hl.slot i _ hget
        have hmem : fs[i] ∈ fs := List.getElem_mem hlt
        obtain ⟨tail, htail⟩ := hslot.name
        have hcopy := copyName_eq (n := vfsMaxFilename - 1) [] tail (hpack.no_nul _ hmem)
          (Nat.le_of_lt_succ (hpack.name_le _ hmem))
        have hsize : (files i).size = fs[i].data.length := by
          rw [← hslot.content, RamfsFile.length_content]
        -- There is room for this file, and for one less behind it.
        obtain ⟨k, hk⟩ : ∃ k, (max - count).toNat = k + 1 := ⟨(max - count).toNat - 1, by omega⟩
        have hk' : (max - (count + 1)).toNat = k := by omega
        rw [if_pos hslot.used, htail, hcopy, ih (count + 1) (by omega), hk, hk',
          List.drop_eq_getElem_cons hlt, List.take_succ_cons, List.map_cons, hsize]
        simp [HostFile.dirent]
      · -- The slots behind the last file are free.
        have hfree := hl.free i (by omega) (by omega)
        rw [if_neg (by simp [hfree]), ih count (by omega), List.drop_of_length_le (by omega),
          List.drop_of_length_le (by omega)]
    · rw [if_neg hroom, show (max - count).toNat = 0 by omega]
      rfl

/-- A loaded file is found by its name. -/
theorem Loaded.findFile (hl : Loaded files fs) (hpack : Nameable fs) (rest : List UInt8)
    (hf : fs[i]? = some f) : findFile files (f.name ++ 0 :: rest) = some (i : ℤ) := by
  rw [findFile_eq hl.inv (by simp), cstr_append_zero (hpack.no_nul f (List.mem_of_getElem? hf)),
    hl.slotOf hpack hf]
  rfl

/-- A ramfs into which files were loaded holds these files. -/
theorem Loaded.holdsFiles (hl : Loaded files fs) (hpack : Nameable fs) : HoldsFiles files fs where
  readdir max := by
    rw [ramfsReaddir, hl.readdirFrom hpack max 0 rfl]
    simp
  openName i f rest hf := by
    have hmem : f ∈ fs := List.mem_of_getElem? hf
    have hfind := hl.findFile hpack rest hf
    -- The name is not empty, and its first byte is no slash.
    cases hname : f.name with
    | nil => exact absurd hname (hpack.name_ne_nil f hmem)
    | cons c name =>
      have hslash : c ≠ '/'.toUInt8 := fun hc =>
        hpack.no_slash f hmem (by rw [hname, hc]; exact List.mem_cons_self)
      rw [hname, List.cons_append] at hfind
      rw [List.cons_append, ramfsOpen, if_neg hslash, hfind]
  openSlash i f rest hf := by
    rw [ramfsOpen, if_pos rfl, hl.findFile hpack rest hf]
  read i f offset len hf := by
    have hslot := hl.slot i f hf
    have hlt : i < ramfsMaxFiles :=
      Nat.lt_of_lt_of_le (List.getElem?_eq_some_iff.mp hf).1 hpack.length_le
    rw [← hslot.content]
    by_cases hoff : offset ≤ (files i).size
    · exact ramfsRead_eq hlt hslot.used (hl.inv.size_le i hlt) hoff
    · -- Behind the end of the file there is nothing to read.
      rw [List.drop_of_length_le (by rw [RamfsFile.length_content]; omega)]
      simp [ramfsRead, hlt, hslot.used, show (files i).size ≤ offset by omega]

/-- A filesystem does not hold two lists of files of different lengths. -/
theorem HoldsFiles.length_eq (h : HoldsFiles files fs) (h' : HoldsFiles files rest) :
    fs.length = rest.length := by
  have heq := (h.readdir (max fs.length rest.length)).symm.trans
    (h'.readdir (max fs.length rest.length))
  rw [Option.some.injEq, Prod.mk.injEq, List.take_of_length_le (by omega),
    List.take_of_length_le (by omega)] at heq
  exact Int.ofNat.inj heq.1

/-! ## Packing and loading a directory -/

/-- Files that can be packed can be packed without some of them. -/
theorem Packable.filter (hpack : Packable fs) (p : HostFile → Bool) : Packable (fs.filter p) where
  length_le := (List.length_filter_le p fs).trans hpack.length_le
  nodup := hpack.nodup.sublist (List.filter_sublist.map _)
  name_ne_nil f hf := hpack.name_ne_nil f (List.mem_of_mem_filter hf)
  no_nul f hf := hpack.no_nul f (List.mem_of_mem_filter hf)
  no_slash f hf := hpack.no_slash f (List.mem_of_mem_filter hf)
  name_le f hf := hpack.name_le f (List.mem_of_mem_filter hf)
  size_le f hf := hpack.size_le f (List.mem_of_mem_filter hf)

/-- The image of packable files is less than 4 GB. -/
theorem Packable.length_imageOf_lt (hpack : Packable fs) : (imageOf fs).length < 2 ^ 32 := by
  have hlen : fs.length ≤ 64 := hpack.length_le
  have hblob : (blobBytes fs).length ≤ 32768 * fs.length := length_blobBytes_le hpack.size_le
  have htable := length_tableBytes (8 + 72 * fs.length) hpack.name_le
  have hword : ∀ v, (le32 v).length = 4 := fun _ => rfl
  simp only [imageOf, List.length_append, hword, htable]
  omega

theorem Packable.mkramfs_eq (hpack : Packable (packedFiles dir)) :
    mkramfs dir = imageOf (packedFiles dir) :=
  Lightstreak.mkramfs_eq hpack.length_le fun f hf =>
    Nat.lt_of_le_of_lt (hpack.size_le f hf) (by decide)

theorem Nameable.shortName (hname : Nameable fs) : ∀ f ∈ fs, f.ShortName := fun f hf =>
  ⟨hname.no_nul f hf, hname.name_le f hf⟩

/-- Nothing is cut off a file that fits. -/
theorem Packable.map_cut (hpack : Packable fs) : fs.map HostFile.cut = fs := by
  refine (List.map_congr_left fun f hf => ?_).trans (List.map_id fs)
  rw [HostFile.cut, List.take_of_length_le (hpack.size_le f hf)]
  rfl

/-- Cutting contents to the size of a slot changes no name. -/
theorem Nameable.map_cut (hname : Nameable fs) : Nameable (fs.map HostFile.cut) := by
  have hnames : (fs.map HostFile.cut).map HostFile.name = fs.map HostFile.name := by
    simp [HostFile.cut]
  refine ⟨by rw [List.length_map]; exact hname.length_le, hnames ▸ hname.nodup, ?_, ?_, ?_, ?_⟩
  all_goals
    intro g hg
    obtain ⟨f, hf, rfl⟩ := List.mem_map.mp hg
  · exact hname.name_ne_nil f hf
  · exact hname.no_nul f hf
  · exact hname.no_slash f hf
  · exact hname.name_le f hf

/-- The filesystem after the image of a directory was loaded has the files that are not hidden,
each cut to the size of its buffer. -/
theorem exists_initramfsLoad_packedFiles (base : ℕ) (files : Ramfs)
    (hname : Nameable (packedFiles dir)) (hsize : ∀ f ∈ packedFiles dir, f.data.length < 2 ^ 32)
    (hlt : (mkramfs dir).length < 2 ^ 32) (hfits : base + (mkramfs dir).length ≤ 2 ^ 32) :
    ∃ files' log, initramfsLoad (ReadMem.ofList base (mkramfs dir)) base (ramfsInit files).2 =
        some (files', log) ∧ HoldsFiles files' ((packedFiles dir).map HostFile.cut) := by
  rw [mkramfs_eq hname.length_le hsize] at hlt hfits ⊢
  obtain ⟨files', log, hload, hl⟩ :=
    (loaded_ramfsInit files).initramfsLoad (by simp) hname.shortName hlt hfits
  rw [hname.foldl_install_nil] at hl
  exact ⟨files', log, hload, hl.holdsFiles hname.map_cut⟩

/-- Files within the limits arrive fully. -/
theorem exists_initramfsLoad_mkramfs (base : ℕ) (files : Ramfs)
    (hpack : Packable (regularFiles dir)) (hfits : base + (mkramfs dir).length ≤ 2 ^ 32) :
    ∃ files' log, initramfsLoad (ReadMem.ofList base (mkramfs dir)) base (ramfsInit files).2 =
        some (files', log) ∧ HoldsFiles files' (packedFiles dir) := by
  have hpacked : Packable (packedFiles dir) := hpack.filter _
  have hlt : (mkramfs dir).length < 2 ^ 32 := by
    rw [hpacked.mkramfs_eq]
    exact hpacked.length_imageOf_lt
  have hload := exists_initramfsLoad_packedFiles base files hpacked.toNameable
    (fun f hf => Nat.lt_of_le_of_lt (hpacked.size_le f hf) (by decide)) hlt hfits
  rwa [hpacked.map_cut] at hload

/-- Loading the image of a directory into an empty ramfs, from any place in the address space and
with nothing but the image readable, gives exactly the regular files of the directory if and only
if none of their names starts with a dot: `mkramfs` means to skip `.` and `..`, and skips every
such name. -/
theorem initramfsLoad_mkramfs_iff (dir : List DirEnt) (base : ℕ) (files : Ramfs)
    (hpack : Packable (regularFiles dir)) (hfits : base + (mkramfs dir).length ≤ 2 ^ 32) :
    (∃ files' log, initramfsLoad (ReadMem.ofList base (mkramfs dir)) base (ramfsInit files).2 =
        some (files', log) ∧ HoldsFiles files' (regularFiles dir)) ↔
      ∀ f ∈ regularFiles dir, ¬f.Hidden := by
  obtain ⟨files', log, hload, hholds⟩ := exists_initramfsLoad_mkramfs base files hpack hfits
  constructor
  · -- Loading is a function, so that the listing has the packed files and the directory's alike.
    rintro ⟨files₁, log₁, hload₁, hholds₁⟩ f hf
    obtain ⟨rfl, -⟩ := Prod.mk.inj (Option.some.inj (hload.symm.trans hload₁))
    have hall := List.length_filter_eq_length_iff.mp (hholds.length_eq hholds₁) f hf
    exact of_decide_eq_true hall
  · intro hvisible
    have hall : packedFiles dir = regularFiles dir :=
      List.filter_eq_self.mpr fun f hf => decide_eq_true (hvisible f hf)
    exact ⟨files', log, hload, hall ▸ hholds⟩

/-- Slots that were never used. -/
def emptySlots : Ramfs := fun _ => ⟨[], fun _ => 0, 0, false⟩

/-- A directory with the file `a` of two bytes and the empty file `b`, at 1 MB. -/
theorem initramfsLoad_mkramfs_iff_twoFiles :
    ∃ files' log,
      initramfsLoad (ReadMem.ofList 0x100000
          (mkramfs [⟨[0x2E], none⟩, ⟨[0x61], some [72, 105]⟩, ⟨[0x62], some []⟩]))
        0x100000 (ramfsInit emptySlots).2 = some (files', log) ∧
      HoldsFiles files' [⟨[0x61], [72, 105]⟩, ⟨[0x62], []⟩] :=
  (initramfsLoad_mkramfs_iff [⟨[0x2E], none⟩, ⟨[0x61], some [72, 105]⟩, ⟨[0x62], some []⟩] _
    emptySlots ⟨⟨by decide, by decide, by decide, by decide, by decide, by decide⟩, by decide⟩
    (by decide +kernel)).mpr (by decide)

/-- The one file of the directory, `.a`, is lost. -/
theorem not_holdsFiles_mkramfs_dotFile :
    Packable (regularFiles [⟨[0x2E, 0x61], some [72, 105]⟩]) ∧
    0x100000 + (mkramfs [⟨[0x2E, 0x61], some [72, 105]⟩]).length ≤ 2 ^ 32 ∧
    ¬∃ files' log,
      initramfsLoad (ReadMem.ofList 0x100000 (mkramfs [⟨[0x2E, 0x61], some [72, 105]⟩]))
        0x100000 (ramfsInit emptySlots).2 = some (files', log) ∧
      HoldsFiles files' [⟨[0x2E, 0x61], [72, 105]⟩] := by
  have hpack : Packable (regularFiles [⟨[0x2E, 0x61], some [72, 105]⟩]) :=
    ⟨⟨by decide, by decide, by decide, by decide, by decide, by decide⟩, by decide⟩
  have hfits : 0x100000 + (mkramfs [⟨[0x2E, 0x61], some [72, 105]⟩]).length ≤ 2 ^ 32 := by decide
  refine ⟨hpack, hfits, ?_⟩
  rintro ⟨files₁, log₁, hload₁, hholds₁⟩
  obtain ⟨files', log, hload, hholds⟩ :=
    exists_initramfsLoad_mkramfs 0x100000 emptySlots hpack hfits
  obtain ⟨rfl, -⟩ := Prod.mk.inj (Option.some.inj (hload.symm.trans hload₁))
  exact absurd (hholds.length_eq hholds₁) (by decide)

end Lightstreak
