import Mathlib.Data.List.Find
import Lightstreak.Fs.RamfsNames
import Lightstreak.Syscall.FileCalls

/-!
# The file calls refine an abstract file system

Abstractly, a file is a byte list found under its name, and each descriptor of each process is
closed or holds a file and a position (`AbsFs`). The three layers of the kernel (descriptor
tables, `vfs` dispatch, ramfs slots) implement it:

* `FileInv`: open descriptors point to used slots, at positions inside the file;
* `fileCall_refines`: one call, from any state with the invariant, returns what the abstract
  call returns and leaves the state of the abstract call;
* `fileCalls_refine`: whole runs, with any processes interleaved.
-/

namespace Lightstreak

open SysLib

/-! ## The abstract file system -/

/-- Files by name, and for each process and descriptor the open file and the position. -/
structure AbsFs (P : Type) where
  /-- The contents of each file, by its name. -/
  files : List UInt8 → Option (List UInt8)
  /-- The open descriptors of each process: the name of the file, and the offset. -/
  fds : P → ℕ → Option (List UInt8 × ℕ)

namespace AbsFs

variable {P : Type} [DecidableEq P]

def setFd (a : AbsFs P) (p : P) (fd : ℕ) (d : Option (List UInt8 × ℕ)) : AbsFs P :=
  { a with fds := Function.update a.fds p (Function.update (a.fds p) fd d) }

/-- The lowest closed descriptor in 3..31. -/
def lowestClosed (a : AbsFs P) (p : P) : Option ℕ :=
  (List.range' 3 (maxFds - 3)).find? fun fd => (a.fds p fd).isNone

/-- Open the file of that name at position 0, on the lowest closed descriptor. -/
def openFile (a : AbsFs P) (p : P) (path : List UInt8) : (ℤ × List UInt8) × AbsFs P :=
  match a.lowestClosed p, a.files (dropSlash path) with
  | some fd, some _ => ((fd, []), a.setFd p fd (some (dropSlash path, 0)))
  | _, _ => ((-1, []), a)

/-- Return the bytes from the position on, at most `len`, and advance. -/
def read (a : AbsFs P) (p : P) (fd len : ℕ) : (ℤ × List UInt8) × AbsFs P :=
  match a.fds p fd with
  | none => ((-1, []), a)
  | some (name, pos) =>
    let bytes := (((a.files name).getD []).drop pos).take len
    ((bytes.length, bytes), a.setFd p fd (some (name, pos + bytes.length)))

/-- Overwrite or extend the file at the position with as many bytes of `buf` as fit, and
advance. -/
def write (a : AbsFs P) (p : P) (fd : ℕ) (buf : ℕ → UInt8) (len : ℕ) :
    (ℤ × List UInt8) × AbsFs P :=
  match a.fds p fd with
  | none => ((-1, []), a)
  | some (name, pos) =>
    let n := min len (ramfsMaxFileSize - pos)
    let content := (a.files name).getD []
    let content' := content.take pos ++ (List.range n).map buf ++ content.drop (pos + n)
    ((n, []), { a with files := Function.update a.files name (some content') }.setFd p fd
      (some (name, pos + n)))

/-- Close an open descriptor. -/
def close (a : AbsFs P) (p : P) (fd : ℕ) : (ℤ × List UInt8) × AbsFs P :=
  match a.fds p fd with
  | none => ((-1, []), a)
  | some _ => ((0, []), a.setFd p fd none)

/-- An abstract call by process `c.1`. -/
def call (a : AbsFs P) (c : P × FileCall) : (ℤ × List UInt8) × AbsFs P :=
  match c.2 with
  | .sysOpen path => a.openFile c.1 (cstr path.1)
  | .sysRead fd len => a.read c.1 fd.toNat len.toNat
  | .sysWrite fd buf len => a.write c.1 fd.toNat buf len.toNat
  | .sysClose fd => a.close c.1 fd.toNat

end AbsFs

variable {P : Type}

/-- The abstract file system that a kernel state represents. -/
def absFs (s : FileState P) : AbsFs P where
  files name := (slotOf s.files name).map fun i => (s.files i).content
  fds p fd :=
    if 3 ≤ fd ∧ fd < maxFds ∧ (s.fdTable p fd).inUse then
      some (cstr (s.files (s.fdTable p fd).fileIdx.toNat).name, (s.fdTable p fd).offset)
    else none

/-! ## The invariant -/

/-- An entry that holds a used slot, at a position inside the file. -/
def FdEntry.Holds (e : FdEntry) (files : Ramfs) (i : ℕ) : Prop :=
  e.fileIdx = i ∧ i < ramfsMaxFiles ∧ (files i).used ∧ e.offset ≤ (files i).size

/-- ramfs is mounted and well formed, the standard descriptors hold no file, and every other
descriptor in use holds one. -/
structure FileInv (s : FileState P) : Prop where
  /-- The ramfs is mounted. -/
  mounted : s.mountedFs = some ramfsOps
  /-- The files are sound. -/
  ramfs : RamfsInv s.files
  /-- Standard descriptors hold no file. -/
  stdio : ∀ p fd, fd < 3 → (s.fdTable p fd).inUse → (s.fdTable p fd).fileIdx < 0
  /-- Every other open descriptor holds a file, with an offset inside it. -/
  opened : ∀ p fd, 3 ≤ fd → (s.fdTable p fd).inUse → ∃ i, (s.fdTable p fd).Holds s.files i

/-- Descriptor tables as the kernel sets them up for a new process: at most the three standard
descriptors are in use, and they hold no file. -/
def FreshTables (tables : P → ℕ → FdEntry) : Prop :=
  ∀ p fd, (tables p fd).inUse → fd < 3 ∧ (tables p fd).fileIdx < 0

/-- Fresh descriptors over sound files satisfy the invariant. -/
theorem fileInv_of_fresh {files : Ramfs} (hi : RamfsInv files) {tables : P → ℕ → FdEntry}
    (hfresh : FreshTables tables) (keyboard : ℕ → UInt8) (console : List UInt8) :
    FileInv ⟨some ramfsOps, files, tables, keyboard, console⟩ where
  mounted := rfl
  ramfs := hi
  stdio p fd _ huse := (hfresh p fd huse).2
  opened p fd h3 huse := absurd (hfresh p fd huse).1 (Nat.not_lt.mpr h3)

/-- With distinct names, a used slot is the one that is found under its name. -/
theorem slotOf_cstr_name {files : Ramfs} (hd : DistinctNames files) {i : ℕ}
    (hi : i < ramfsMaxFiles) (hused : (files i).used) :
    slotOf files (cstr (files i).name) = some i := by
  cases hslot : slotOf files (cstr (files i).name) with
  | none => exact absurd rfl (slotOf_eq_none_iff.mp hslot i hi hused)
  | some j =>
    obtain ⟨hj, hjused, hname⟩ := slotOf_eq_some hslot
    rw [hd j hj i hi hjused hused hname]

/-- Growing a file keeps the invariant: positions stay inside. -/
theorem FileInv.splice {s : FileState P} (hi : FileInv s) {i offset n : ℕ} (hlt : i < ramfsMaxFiles)
    (hused : (s.files i).used) (hn : offset + n ≤ ramfsMaxFileSize) (buf : ℕ → UInt8) :
    FileInv { s with files := Function.update s.files i ((s.files i).splice offset n buf) } where
  mounted := hi.mounted
  ramfs := hi.ramfs.update (max_le (hi.ramfs.size_le i hlt) hn) (hi.ramfs.terminated i hlt)
  stdio := hi.stdio
  opened q k h3 huse := by
    obtain ⟨j, hidx, hj, hju, hoff⟩ := hi.opened q k h3 huse
    refine ⟨j, hidx, hj, ?_⟩
    dsimp only
    by_cases hji : j = i
    · subst hji
      rw [Function.update_self]
      exact ⟨hused, le_max_of_le_left hoff⟩
    · rw [Function.update_of_ne hji]
      exact ⟨hju, hoff⟩

/-- Writing to a slot changes the file of that name only. -/
theorem absFs_splice {s : FileState P} (hd : DistinctNames s.files) {i offset : ℕ}
    (hlt : i < ramfsMaxFiles) (hused : (s.files i).used) (hoff : offset ≤ (s.files i).size)
    (n : ℕ) (buf : ℕ → UInt8) :
    absFs { s with files := Function.update s.files i ((s.files i).splice offset n buf) } =
      { absFs s with
        files := Function.update (absFs s).files (cstr (s.files i).name)
          (some ((s.files i).content.take offset ++ (List.range n).map buf ++
            (s.files i).content.drop (offset + n))) } := by
  rw [← RamfsFile.content_splice _ hoff]
  generalize hf : (s.files i).splice offset n buf = f
  have hname : f.name = (s.files i).name := hf ▸ rfl
  have hfused : f.used = (s.files i).used := hf ▸ rfl
  rw [absFs, absFs, AbsFs.mk.injEq]
  constructor
  · -- The files: a name is found in the slot it was in, and only this slot has new contents.
    funext n
    dsimp only
    rw [slotOf_update hname hfused]
    by_cases hn : n = cstr (s.files i).name
    · rw [hn, slotOf_cstr_name hd hlt hused, Function.update_self, Option.map_some,
        Function.update_self]
    · rw [Function.update_of_ne hn]
      cases hslot : slotOf s.files n with
      | none => rfl
      | some j =>
        have hj : j ≠ i := fun h => hn (h ▸ (slotOf_eq_some hslot).2.2.symm)
        rw [Option.map_some, Option.map_some, Function.update_of_ne hj]
  · -- The descriptors: they are seen by the names of their slots, which stay.
    funext q k
    have hsame : ∀ j, (Function.update s.files i f j).name = (s.files j).name := by
      intro j
      by_cases hj : j = i
      · rw [hj, Function.update_self, hname]
      · rw [Function.update_of_ne hj]
    simp only [hsame]

/-- An open descriptor is seen as the name of its file and its offset. -/
theorem absFs_fds_of_holds {fd : ℕ} (s : FileState P) (p : P) (h3 : 3 ≤ fd) (hlt : fd < maxFds)
    (huse : (s.fdTable p fd).inUse) {i : ℕ} (hidx : (s.fdTable p fd).fileIdx = i) :
    (absFs s).fds p fd = some (cstr (s.files i).name, (s.fdTable p fd).offset) := by
  simp [absFs, h3, hlt, huse, hidx]

/-- A closed descriptor is not seen. -/
theorem absFs_fds_of_closed {fd : ℕ} (s : FileState P) (p : P)
    (h : maxFds ≤ fd ∨ (s.fdTable p fd).inUse = false) : (absFs s).fds p fd = none := by
  unfold absFs
  dsimp only
  rw [if_neg]
  rintro ⟨-, hlt, huse⟩
  rcases h with h | h
  · omega
  · rw [h] at huse
    cases huse

/-- A regular descriptor fails the test that all calls make, or holds a file. -/
theorem FileInv.closed_or_holds {s : FileState P} {fd : ℕ} (hi : FileInv s) (p : P)
    (h3 : 3 ≤ fd) :
    (maxFds ≤ fd ∨ (s.fdTable p fd).inUse = false) ∨
      (fd < maxFds ∧ (s.fdTable p fd).inUse ∧ ∃ i, (s.fdTable p fd).Holds s.files i) := by
  by_cases hc : maxFds ≤ fd ∨ (s.fdTable p fd).inUse = false
  · exact .inl hc
  · obtain ⟨hlt, huse⟩ := not_or.mp hc
    rw [Bool.not_eq_false] at huse
    exact .inr ⟨not_le.mp hlt, huse, hi.opened p fd h3 huse⟩

/-- The search for a closed descriptor sees the same. -/
theorem lowestClosed_absFs (s : FileState P) (p : P) : (absFs s).lowestClosed p =
    (List.range' 3 (maxFds - 3)).find? fun i => !(s.fdTable p i).inUse := by
  refine List.find?_congr fun k hk => ?_
  have h3 := (List.mem_range'_1.mp hk).1
  have hlt : k < maxFds := by
    have := (List.mem_range'_1.mp hk).2
    simp only [maxFds] at this ⊢
    omega
  cases huse : (s.fdTable p k).inUse <;> simp [absFs, h3, hlt, huse]

/-! ## Descriptor tables -/

section Tables

variable [DecidableEq P] {s : FileState P} {p : P} {fd len : ℕ}

theorem fdTable_setFd (s : FileState P) (p q : P) (fd k : ℕ) (e : FdEntry) :
    (s.setFd p fd e).fdTable q k = if q = p ∧ k = fd then e else s.fdTable q k := by
  by_cases hq : q = p
  · subst hq
    by_cases hk : k = fd
    · simp [FileState.setFd, hk]
    · simp [FileState.setFd, hk]
  · simp [FileState.setFd, hq]

theorem setFd_self (s : FileState P) (p : P) (fd : ℕ) : s.setFd p fd (s.fdTable p fd) = s := by
  simp [FileState.setFd]

/-- Writing a closed entry, or one that holds a file, keeps the invariant. -/
theorem FileInv.setFd (hi : FileInv s) (h3 : 3 ≤ fd) {e : FdEntry}
    (hopen : e.inUse → ∃ i, e.Holds s.files i) : FileInv (s.setFd p fd e) where
  mounted := hi.mounted
  ramfs := hi.ramfs
  stdio q k hk := by
    rw [fdTable_setFd, if_neg (by omega)]
    exact hi.stdio q k hk
  opened q k hk := by
    rw [fdTable_setFd]
    split
    next => exact hopen
    next => exact hi.opened q k hk

/-- Setting a descriptor is seen as setting the abstract one. -/
theorem absFs_setFd (s : FileState P) (p : P) (h3 : 3 ≤ fd) (hlt : fd < maxFds) (e : FdEntry) :
    absFs (s.setFd p fd e) = (absFs s).setFd p fd
      (if e.inUse then some (cstr (s.files e.fileIdx.toNat).name, e.offset) else none) := by
  rw [absFs, absFs, AbsFs.setFd, AbsFs.mk.injEq]
  refine ⟨rfl, ?_⟩
  funext q k
  rw [fdTable_setFd]
  by_cases hq : q = p
  · subst hq
    by_cases hk : k = fd
    · simp [hk, h3, hlt, FileState.setFd]
    · simp [hk, FileState.setFd]
  · simp [hq, FileState.setFd]

end Tables

/-! ## The four calls -/

section Calls

variable [DecidableEq P] {s : FileState P} {p : P} {fd len i : ℕ} {path : List UInt8}

/-- `sys_read` on an open descriptor. -/
theorem sysRead_eq (hi : FileInv s) (h3 : 3 ≤ fd) (hlt : fd < maxFds)
    (huse : (s.fdTable p fd).inUse) (hholds : (s.fdTable p fd).Holds s.files i) :
    sysRead s (some p) fd len =
      let e := s.fdTable p fd
      let bytes := ((s.files i).content.drop e.offset).take len
      some (((bytes.length : ℤ), bytes),
        s.setFd p fd { e with offset := e.offset + bytes.length }) := by
  obtain ⟨hidx, hslot, hused, hoff⟩ := hholds
  have hsize := hi.ramfs.size_le i hslot
  have hmax : ramfsMaxFileSize = 32768 := rfl
  have hnot : ¬(maxFds ≤ fd ∨ (s.fdTable p fd).inUse = false) := by
    simp [huse, hlt]
  have hvfs : vfsRead s.mountedFs s.files i (s.fdTable p fd).offset len = _ :=
    (by rw [hi.mounted]; rfl : _ = ramfsRead s.files i _ len).trans
      (ramfsRead_eq hslot hused hsize hoff)
  have hneg : ¬((i : ℤ) < 0) := by omega
  simp only [sysRead, if_neg (show ¬fd = 0 by omega), if_neg hnot, hidx, if_neg hneg, hvfs,
    Option.bind_eq_bind, Option.bind_some]
  -- The position stays inside the file, so that the sum does not wrap.
  generalize hb : ((s.files i).content.drop (s.fdTable p fd).offset).take len = bytes
  have hlen : (s.fdTable p fd).offset + bytes.length ≤ (s.files i).size := by
    have := congrArg List.length hb
    simp only [List.length_take, List.length_drop, RamfsFile.length_content] at this
    omega
  by_cases hpos : 0 < (bytes.length : ℤ)
  · rw [if_pos hpos, Int.toNat_natCast, add32_eq (by omega), ← hidx]
    rfl
  · -- The source writes the position only after a read of at least one byte.
    have h0 : bytes.length = 0 := by omega
    rw [if_neg hpos, h0, Nat.add_zero, ← hidx, setFd_self]
    rfl

/-- `sys_write` on an open descriptor, when the end of the request does not wrap. -/
theorem sysWrite_eq (hi : FileInv s) (h3 : 3 ≤ fd) (hlt : fd < maxFds)
    (huse : (s.fdTable p fd).inUse) (hholds : (s.fdTable p fd).Holds s.files i)
    (hlen : (s.fdTable p fd).offset + len < 2 ^ 32) (buf : ℕ → UInt8) :
    sysWrite s (some p) fd buf len =
      let e := s.fdTable p fd
      let n := min len (ramfsMaxFileSize - e.offset)
      some ((n : ℤ), { s with
        files := Function.update s.files i ((s.files i).splice e.offset n buf) }.setFd p fd
          { e with offset := e.offset + n }) := by
  obtain ⟨hidx, hslot, hused, hoff⟩ := hholds
  have hsize := hi.ramfs.size_le i hslot
  have hmax : ramfsMaxFileSize = 32768 := rfl
  have hnot : ¬(maxFds ≤ fd ∨ (s.fdTable p fd).inUse = false) := by
    simp [huse, hlt]
  have hvfs : vfsWrite s.mountedFs s.files i buf (s.fdTable p fd).offset len = _ :=
    (by rw [hi.mounted]; rfl : _ = ramfsWrite s.files i buf _ len).trans
      (ramfsWrite_eq hslot hused (hoff.trans hsize) hlen buf)
  have hneg : ¬((i : ℤ) < 0) := by omega
  simp only [sysWrite, if_neg (show ¬(fd = 1 ∨ fd = 2) by omega), if_neg hnot, hidx,
    if_neg hneg, hvfs, Option.bind_eq_bind, Option.bind_some]
  generalize hn : min len (ramfsMaxFileSize - (s.fdTable p fd).offset) = n
  by_cases hpos : 0 < (n : ℤ)
  · rw [if_pos hpos, Int.toNat_natCast, add32_eq (by omega), ← hidx]
    rfl
  · -- A full file, or no bytes to write: the descriptor is as it was.
    have h0 : n = 0 := by omega
    rw [if_neg hpos, h0, Nat.add_zero, ← hidx]
    congr 2
    exact (setFd_self _ p fd).symm

/-! ## Refinement -/

/-- The end of a write to a descriptor that holds a file does not wrap around. -/
def WriteFits (s : FileState P) (c : P × FileCall) : Prop :=
  match c.2 with
  | .sysWrite fd _ len => 3 ≤ fd.toNat → fd.toNat < maxFds → (s.fdTable c.1 fd.toNat).inUse →
    (s.fdTable c.1 fd.toNat).offset + len.toNat < 2 ^ 32
  | _ => True

instance (s : FileState P) : DecidablePred (WriteFits s)
  | (_, .sysWrite ..) => inferInstanceAs (Decidable (_ → _ → _ → _))
  | (_, .sysOpen _) | (_, .sysRead ..) | (_, .sysClose _) => isTrue trivial

/-- A call on a regular descriptor, from 3 on. -/
def FileCall.Regular : FileCall → Prop
  | .sysOpen _ => True
  | .sysRead fd _ | .sysWrite fd _ _ | .sysClose fd => 3 ≤ fd.toNat

instance : DecidablePred FileCall.Regular
  | .sysOpen _ => isTrue trivial
  | .sysRead fd _ | .sysWrite fd _ _ | .sysClose fd => inferInstanceAs (Decidable (3 ≤ fd.toNat))

omit [DecidableEq P] in
/-- The mounted ramfs looks up the string of a path, without one leading slash. -/
theorem FileInv.vfsOpen_eq (hi : FileInv s) (hpath : 0 ∈ path) :
    vfsOpen s.mountedFs s.files path =
      some (idxOrNeg (slotOf s.files (dropSlash (cstr path)))) := by
  rw [hi.mounted]
  exact ramfsOpen_eq hi.ramfs hpath

/-- `sys_open` returns, keeps the invariant and does what the abstract open does. -/
theorem sysOpen_spec (hi : FileInv s) (p : P) (path : UserPath) :
    ∃ r s', sysOpen s (some p) path.1 = some (r, s') ∧ FileInv s' ∧ s'.files = s.files ∧
      (absFs s).openFile p (cstr path.1) = ((r, []), absFs s') := by
  simp only [sysOpen, AbsFs.openFile, lowestClosed_absFs]
  cases hfd : (List.range' 3 (maxFds - 3)).find? fun i => !(s.fdTable p i).inUse with
  -- The table is full, and the path is not looked at.
  | none => exact ⟨-1, s, rfl, hi, rfl, rfl⟩
  | some fd =>
    obtain ⟨h3, hlt⟩ := List.mem_range'_1.mp (List.mem_of_find?_eq_some hfd)
    have hmax : maxFds = 32 := rfl
    dsimp only
    rw [hi.vfsOpen_eq path.2, Option.bind_eq_bind, Option.bind_some]
    cases hslot : slotOf s.files (dropSlash (cstr path.1)) with
    -- There is no such file, and the descriptor stays closed.
    | none => exact ⟨-1, s, rfl, hi, rfl, by simp [absFs, hslot]⟩
    | some i =>
      obtain ⟨hilt, hused, hname⟩ := slotOf_eq_some hslot
      have hneg : ¬((i : ℤ) < 0) := by omega
      refine ⟨fd, s.setFd p fd ⟨i, 0, true⟩, by rw [idxOrNeg, if_neg hneg]; rfl,
        hi.setFd h3 fun _ => ⟨i, rfl, hilt, hused, Nat.zero_le _⟩, rfl, ?_⟩
      rw [absFs_setFd s p h3 (by omega)]
      simp [absFs, hslot, hname]

/-- `sys_read` on a regular descriptor. -/
theorem sysRead_spec (hi : FileInv s) (p : P) (h3 : 3 ≤ fd) (len : ℕ) :
    ∃ r s', sysRead s (some p) fd len = some (r, s') ∧ FileInv s' ∧ s'.files = s.files ∧
      (DistinctNames s.files → (absFs s).read p fd len = (r, absFs s')) := by
  rcases hi.closed_or_holds p h3 with hc | ⟨hlt, huse, i, hidx, hslot, hused, hoff⟩
  · refine ⟨(-1, []), s, ?_, hi, rfl, fun _ => ?_⟩
    · simp only [sysRead, if_neg (show ¬fd = 0 by omega), if_pos hc]
    · rw [AbsFs.read, absFs_fds_of_closed s p hc]
  · refine ⟨_, _, sysRead_eq hi h3 hlt huse ⟨hidx, hslot, hused, hoff⟩, ?_, rfl, fun hd => ?_⟩
    · refine hi.setFd h3 fun _ => ⟨i, hidx, hslot, hused, ?_⟩
      simp only [List.length_take, List.length_drop, RamfsFile.length_content]
      omega
    · rw [AbsFs.read, absFs_fds_of_holds s p h3 hlt huse hidx, absFs_setFd s p h3 hlt]
      simp [absFs, slotOf_cstr_name hd hslot hused, huse, hidx]

/-- `sys_write` on a regular descriptor, when the end of the request does not wrap. -/
theorem sysWrite_spec (hi : FileInv s) (p : P) (h3 : 3 ≤ fd)
    (hfits : fd < maxFds → (s.fdTable p fd).inUse → (s.fdTable p fd).offset + len < 2 ^ 32)
    (buf : ℕ → UInt8) :
    ∃ r s', sysWrite s (some p) fd buf len = some (r, s') ∧ FileInv s' ∧
      (DistinctNames s.files → DistinctNames s'.files ∧
        (absFs s).write p fd buf len = ((r, []), absFs s')) := by
  rcases hi.closed_or_holds p h3 with hc | ⟨hlt, huse, i, hidx, hslot, hused, hoff⟩
  · refine ⟨-1, s, ?_, hi, fun hd => ⟨hd, ?_⟩⟩
    · simp only [sysWrite, if_neg (show ¬(fd = 1 ∨ fd = 2) by omega), if_pos hc]
    · rw [AbsFs.write, absFs_fds_of_closed s p hc]
  · have hsize := hi.ramfs.size_le i hslot
    refine ⟨_, _, sysWrite_eq hi h3 hlt huse ⟨hidx, hslot, hused, hoff⟩ (hfits hlt huse) buf,
      ?_, fun hd => ⟨hd.update rfl rfl, ?_⟩⟩
    · -- The new position is the end of what was written, inside the grown file.
      refine (hi.splice hslot hused (by omega) buf).setFd h3 fun _ => ⟨i, hidx, hslot, ?_⟩
      dsimp only
      rw [Function.update_self]
      exact ⟨hused, le_max_right _ _⟩
    · rw [AbsFs.write, absFs_fds_of_holds s p h3 hlt huse hidx, absFs_setFd _ p h3 hlt,
        absFs_splice hd hslot hused hoff]
      simp [absFs, slotOf_cstr_name hd hslot hused, huse, hidx, RamfsFile.splice]

/-- `sys_close` on a regular descriptor. -/
theorem sysClose_spec (hi : FileInv s) (p : P) (h3 : 3 ≤ fd) :
    ∃ r s', sysClose s (some p) fd = (r, s') ∧ FileInv s' ∧ s'.files = s.files ∧
      (absFs s).close p fd = ((r, []), absFs s') := by
  rcases hi.closed_or_holds p h3 with hc | ⟨hlt, huse, i, hidx, -⟩
  · refine ⟨-1, s, ?_, hi, rfl, ?_⟩
    · unfold sysClose
      dsimp only
      rcases hc with hc | hc
      · rw [if_pos (.inr hc)]
      · rw [if_pos hc, ite_self]
    · rw [AbsFs.close, absFs_fds_of_closed s p hc]
  · refine ⟨0, s.setFd p fd ⟨-1, 0, false⟩, ?_, hi.setFd h3 (by simp), rfl, ?_⟩
    · simp [sysClose, hlt, huse, h3]
    · rw [AbsFs.close, absFs_fds_of_holds s p h3 hlt huse hidx, absFs_setFd s p h3 hlt]
      rfl

/-- One call on a regular descriptor returns, and agrees with the abstract call. -/
theorem fileCall_refines {c : P × FileCall} (hi : FileInv s) (hd : DistinctNames s.files)
    (hreg : c.2.Regular) (hfits : WriteFits s c) :
    ∃ r s', fileCall s c = some (r, s') ∧ (absFs s).call c = (r, absFs s') ∧ FileInv s' ∧
      DistinctNames s'.files := by
  obtain ⟨p, c⟩ := c
  cases c with
  | sysOpen path =>
    obtain ⟨r, s', hcall, hi', hfiles, habs⟩ := sysOpen_spec hi p path
    exact ⟨(r, []), s', by simp only [fileCall, hcall, Option.map_some], habs, hi', hfiles ▸ hd⟩
  | sysRead fd len =>
    obtain ⟨r, s', hcall, hi', hfiles, habs⟩ := sysRead_spec hi p hreg len.toNat
    exact ⟨r, s', hcall, habs hd, hi', hfiles ▸ hd⟩
  | sysWrite fd buf len =>
    obtain ⟨r, s', hcall, hi', hrest⟩ := sysWrite_spec hi p hreg (hfits hreg) buf
    obtain ⟨hd', habs⟩ := hrest hd
    exact ⟨(r, []), s', by simp only [fileCall, hcall, Option.map_some], habs, hi', hd'⟩
  | sysClose fd =>
    obtain ⟨r, s', hcall, hi', hfiles, habs⟩ := sysClose_spec hi p hreg
    exact ⟨(r, []), s', by simp only [fileCall, hcall], habs, hi', hfiles ▸ hd⟩

end Calls

/-- The file calls refine the abstract file system. Take any ramfs that `ramfs_init` and calls
that fill it can produce, with distinct names, and any processes with fresh descriptor tables.
Then every run of calls on regular descriptors whose writes do not wrap returns, with the
results and the final state of the abstract file system, in which no file exceeds 32 KB. -/
theorem fileCalls_refine [DecidableEq P] {files₀ files : Ramfs} {ops : List RamfsOp}
    (hboot : Run RamfsStep (ramfsInit files₀).2 ops files) (hd : DistinctNames files)
    {tables : P → ℕ → FdEntry} (hfresh : FreshTables tables) (keyboard : ℕ → UInt8)
    (console : List UInt8) {calls : List (P × FileCall)}
    (hok : AlongRun fileCall (fun s c => c.2.Regular ∧ WriteFits s c)
      ⟨(ramfsInit files₀).1, files, tables, keyboard, console⟩ calls) :
    ∃ out s', feed fileCall ⟨(ramfsInit files₀).1, files, tables, keyboard, console⟩ calls =
        some (out, s') ∧
      feed (fun a c => some (a.call c))
        (absFs ⟨(ramfsInit files₀).1, files, tables, keyboard, console⟩) calls =
        some (out, absFs s') ∧
      ∀ name content, (absFs s').files name = some content →
        content.length ≤ ramfsMaxFileSize := by
  have hi := fileInv_of_fresh (ramfsInv_of_run hboot) hfresh keyboard console
  -- The simulation relation: the abstract state is the one that the kernel state represents.
  obtain ⟨out, s', a', hrun, habs, hi', -, rfl⟩ := feed_refines
    (g := fun a c => some (a.call c)) (fun s a => FileInv s ∧ DistinctNames s.files ∧ a = absFs s)
    (fun s a c ⟨hi, hd, ha⟩ ⟨hreg, hfits⟩ => by
      obtain ⟨r, s', hcall, habs, hi', hd'⟩ := fileCall_refines hi hd hreg hfits
      exact ⟨r, s', absFs s', hcall, by rw [ha, habs], hi', hd', rfl⟩)
    calls _ _ ⟨hi, hd, rfl⟩ hok
  refine ⟨out, s', hrun, habs, fun name content hfile => ?_⟩
  obtain ⟨i, hslot, rfl⟩ := Option.map_eq_some_iff.mp hfile
  rw [RamfsFile.length_content]
  exact hi'.ramfs.size_le i (slotOf_eq_some hslot).1

/-- Cleared storage. -/
def emptyFiles : Ramfs := fun _ => ⟨List.replicate vfsMaxFilename 0, fun _ => 0, 0, false⟩

/-- A ramfs with one file `a` that holds `hi`. -/
def hiFiles : Option Ramfs := do
  let (_, files) ← vfsCreate (some ramfsOps) (ramfsInit emptyFiles).2 [97, 0]
  let (_, files) ← vfsWrite (some ramfsOps) files 0 (fun i => if i = 0 then 104 else 105) 0 2
  return files

theorem hiFiles_reachable : ∃ files ops, hiFiles = some files ∧
    Run RamfsStep (ramfsInit emptyFiles).2 ops files := by
  obtain ⟨files, hfiles⟩ := Option.isSome_iff_exists.mp (show hiFiles.isSome by decide +kernel)
  have h := hfiles
  unfold hiFiles at h
  obtain ⟨⟨r₁, files₁⟩, hcreate, h⟩ := Option.bind_eq_some_iff.mp h
  obtain ⟨⟨r₂, files₂⟩, hwrite, h⟩ := Option.bind_eq_some_iff.mp h
  obtain rfl : files₂ = files := Option.some.inj h
  have hrun₁ : Run RamfsStep (ramfsInit emptyFiles).2 ([] ++ [.vfsCreate [97, 0]]) files₁ :=
    .snoc (.nil _) ⟨r₁, hcreate⟩
  have hrun₂ : RamfsStep files₁ (.vfsWrite 0 (fun i => if i = 0 then 104 else 105) 0 2) files₂ :=
    ⟨r₂, hwrite⟩
  exact ⟨files₂, _, hfiles, hrun₁.snoc hrun₂⟩

/-- The path `a`. -/
def pathA : UserPath := ⟨[97, 0], by decide⟩

/-- Two processes open the file, with and without the slash. One of them reads a byte and appends to
it, and the other one reads all of it. -/
def writerAndReader : List (Bool × FileCall) :=
  [(false, .sysOpen ⟨[47, 97, 0], by decide⟩), (true, .sysOpen pathA), (true, .sysRead 3 1),
    (true, .sysWrite 3 (fun i => if i = 0 then 111 else 33) 2), (false, .sysRead 3 9),
    (true, .sysClose 3)]

/-- The reader gets what the writer has left. -/
theorem fileCalls_refine_writerAndReader :
    ∃ files s', hiFiles = some files ∧
      feed fileCall ⟨(ramfsInit emptyFiles).1, files, fun _ _ => ⟨-1, 0, false⟩, fun _ => 0, []⟩
        writerAndReader =
          some ([(3, []), (3, []), (1, [104]), (2, []), (3, [104, 111, 33]), (0, [])], s') := by
  obtain ⟨files, ops, hfiles, hboot⟩ := hiFiles_reachable
  have hdistinct : ∀ f ∈ hiFiles, ∀ i < ramfsMaxFiles, ∀ j < ramfsMaxFiles, (f i).used →
      (f j).used → cstr (f i).name = cstr (f j).name → i = j := by decide +kernel
  have hout : ∀ f ∈ hiFiles, (feed fileCall
      ⟨(ramfsInit emptyFiles).1, f, fun _ _ => ⟨-1, 0, false⟩, fun _ => 0, []⟩
      writerAndReader).map Prod.fst =
        some [(3, []), (3, []), (1, [104]), (2, []), (3, [104, 111, 33]), (0, [])] := by
    decide +kernel
  have hok : ∀ f ∈ hiFiles, AlongRun fileCall (fun s c => c.2.Regular ∧ WriteFits s c)
      ⟨(ramfsInit emptyFiles).1, f, fun _ _ => ⟨-1, 0, false⟩, fun _ => 0, []⟩
      writerAndReader := by decide +kernel
  obtain ⟨out, s', hrun, -, -⟩ := fileCalls_refine hboot (hdistinct files hfiles)
    (by simp [FreshTables]) (fun _ => 0) [] (hok files hfiles)
  have hfst := hout files hfiles
  rw [hrun] at hfst
  exact ⟨files, s', hfiles, by rw [hrun, ← Option.some.inj hfst]⟩

end Lightstreak
