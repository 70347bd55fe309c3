import Mathlib.Data.Set.Insert
import Lightstreak.Syscall.KernelRuns

/-!
# Processes that use different files

The descriptor tables of two processes are apart, but the files are shared. A process `p` whose
descriptors hold files of a set `F` only, and a run in which no other process writes to a file of
`F`: then `p` cannot tell that there are other processes.

* `SameFor p F s t`: two states that are the same for the process `p`;
* `sameFor_fileCall`: a call of `p` is answered alike in both, and leads to two such states;
* `sameFor_fileCall_other`: a call of another process leads to a state that is the same for `p`;
* `isolation_of_fileCalls`: in every interleaving, the calls of `p` return what they return when
  `p` is alone.
-/

namespace Lightstreak

open SysLib

variable {P : Type} [DecidableEq P]

/-- The states are the same for the process `p`: they have files of the same names, and those in the
slots `F`, which the descriptors of `p` are confined to, are the same. -/
structure SameFor (p : P) (F : Set ℕ) (s t : FileState P) : Prop where
  /-- The invariant holds in one state. -/
  inv : FileInv s
  /-- The invariant holds in the other. -/
  inv' : FileInv t
  /-- The names are the same. -/
  name : ∀ i, (t.files i).name = (s.files i).name
  /-- The same slots are in use. -/
  used : ∀ i, (t.files i).used = (s.files i).used
  /-- The files of `F` are the same. -/
  files : ∀ i ∈ F, t.files i = s.files i
  /-- The descriptors of `p` are the same. -/
  fdTable : t.fdTable p = s.fdTable p
  /-- The files that `p` has open are in `F`. -/
  own : ∀ fd i, 3 ≤ fd → (s.fdTable p fd).inUse → (s.fdTable p fd).fileIdx = (i : ℕ) → i ∈ F

/-- The call keeps the process `p` to the files in the slots `F`, and others from writing to
them. -/
def Separate (p : P) (F : Set ℕ) (s : FileState P) (c : P × FileCall) : Prop :=
  match c.2 with
  | .sysOpen path => c.1 = p → ∀ i ∈ slotOf s.files (dropSlash (cstr path.1)), i ∈ F
  | .sysWrite fd _ _ => c.1 ≠ p → ∀ i : ℕ, (s.fdTable c.1 fd.toNat).inUse →
    (s.fdTable c.1 fd.toNat).fileIdx = i → i ∉ F
  | _ => True

omit [DecidableEq P] in
/-- For a write, only the slot that the descriptor holds matters. -/
theorem separate_sysWrite_iff (p q : P) (F : Set ℕ) (s : FileState P) (fd : UInt32)
    (buf : ℕ → UInt8) (len : UInt32) : Separate p F s (q, .sysWrite fd buf len) ↔
      (q ≠ p → (s.fdTable q fd.toNat).inUse → 0 ≤ (s.fdTable q fd.toNat).fileIdx →
        (s.fdTable q fd.toNat).fileIdx.toNat ∉ F) := by
  constructor
  · intro h hq huse hpos
    exact h hq _ huse (Int.toNat_of_nonneg hpos).symm
  · intro h hq i huse hidx
    have hi := h hq huse (hidx ▸ Int.natCast_nonneg i)
    rwa [hidx, Int.toNat_natCast] at hi

instance (p : P) (F : Set ℕ) [DecidablePred (· ∈ F)] (s : FileState P) :
    DecidablePred (Separate p F s)
  | (q, .sysOpen path) => inferInstanceAs
    (Decidable (q = p → ∀ i ∈ slotOf s.files (dropSlash (cstr path.1)), i ∈ F))
  | (q, .sysWrite fd buf len) => decidable_of_iff _ (separate_sysWrite_iff p q F s fd buf len).symm
  | (_, .sysRead ..) | (_, .sysClose _) => isTrue trivial

variable {p q : P} {F : Set ℕ} {s t : FileState P} {c : FileCall}

omit [DecidableEq P] in
/-- The search looks at the names and the `used` flags only. -/
theorem SameFor.slotOf (h : SameFor p F s t) (name : List UInt8) :
    slotOf t.files name = slotOf s.files name := by
  unfold Lightstreak.slotOf
  congr 1
  funext i
  rw [h.name, h.used]

/-- Both states get the same entry for a descriptor of `p`. -/
theorem SameFor.setFd (h : SameFor p F s t) {fd : ℕ} (h3 : 3 ≤ fd) {e : FdEntry}
    (hopen : e.inUse → ∃ i ∈ F, e.Holds s.files i) :
    SameFor p F (s.setFd p fd e) (t.setFd p fd e) where
  inv := h.inv.setFd h3 fun huse => (hopen huse).imp fun _ hi => hi.2
  inv' := by
    refine h.inv'.setFd h3 fun huse => ?_
    obtain ⟨i, hiF, hidx, hlt, hused, hoff⟩ := hopen huse
    -- The bound on the offset carries over because the file is in `F`.
    exact ⟨i, hidx, hlt, (h.used i).trans hused, by rw [h.files i hiF]; exact hoff⟩
  name := h.name
  used := h.used
  files := h.files
  fdTable := by simp [FileState.setFd, h.fdTable]
  own fd' i h3' := by
    rw [fdTable_setFd]
    split
    next =>
      intro huse hidx
      obtain ⟨j, hjF, hj, -⟩ := hopen huse
      obtain rfl : i = j := Int.ofNat.inj (hidx.symm.trans hj)
      exact hjF
    next => exact h.own fd' i h3'

/-! ## The calls of the process -/

/-- Opening a file of `F` gives the same result in both states. -/
theorem SameFor.openFile (h : SameFor p F s t) (path : UserPath)
    (hsep : ∀ i ∈ Lightstreak.slotOf s.files (dropSlash (cstr path.1)), i ∈ F) :
    ∃ r s' t', sysOpen s (some p) path.1 = some (r, s') ∧
      sysOpen t (some p) path.1 = some (r, t') ∧ SameFor p F s' t' := by
  simp only [sysOpen, h.fdTable]
  cases hfd : (List.range' 3 (maxFds - 3)).find? fun i => !(s.fdTable p i).inUse with
  | none => exact ⟨-1, s, t, rfl, rfl, h⟩
  | some fd =>
    obtain ⟨h3, -⟩ := List.mem_range'_1.mp (List.mem_of_find?_eq_some hfd)
    dsimp only
    -- The names are the same in both states, so the search finds the same slot.
    rw [h.inv.vfsOpen_eq path.2, h.inv'.vfsOpen_eq path.2, h.slotOf]
    cases hslot : Lightstreak.slotOf s.files (dropSlash (cstr path.1)) with
    | none => exact ⟨-1, s, t, rfl, rfl, h⟩
    | some i =>
      obtain ⟨hlt, hused, -⟩ := slotOf_eq_some hslot
      have hneg : ¬((i : ℤ) < 0) := by omega
      refine ⟨fd, s.setFd p fd ⟨i, 0, true⟩, t.setFd p fd ⟨i, 0, true⟩, ?_, ?_,
        h.setFd h3 fun _ => ⟨i, hsep i hslot, rfl, hlt, hused, Nat.zero_le _⟩⟩ <;>
      · simp only [Option.bind_eq_bind, Option.bind_some, idxOrNeg, if_neg hneg]
        rfl

omit [DecidableEq P] in
/-- A descriptor of `p` is closed in both states, or holds the same file of `F`. -/
theorem SameFor.closed_or_holds (h : SameFor p F s t) {fd : ℕ} (h3 : 3 ≤ fd) :
    (maxFds ≤ fd ∨ (s.fdTable p fd).inUse = false) ∨
      (fd < maxFds ∧ (s.fdTable p fd).inUse ∧ ∃ i ∈ F, (s.fdTable p fd).Holds s.files i ∧
        (t.fdTable p fd).Holds t.files i ∧ t.files i = s.files i) := by
  refine (h.inv.closed_or_holds p h3).imp id ?_
  rintro ⟨hlt, huse, i, hidx, hslot, hused, hoff⟩
  have hiF : i ∈ F := h.own fd i h3 huse hidx
  refine ⟨hlt, huse, i, hiF, ⟨hidx, hslot, hused, hoff⟩, ?_, h.files i hiF⟩
  rw [h.fdTable, FdEntry.Holds, h.files i hiF]
  exact ⟨hidx, hslot, hused, hoff⟩

/-- A read gives the same result in both states. -/
theorem SameFor.read (h : SameFor p F s t) {fd : ℕ} (h3 : 3 ≤ fd) (len : ℕ) :
    ∃ r s' t', sysRead s (some p) fd len = some (r, s') ∧
      sysRead t (some p) fd len = some (r, t') ∧ SameFor p F s' t' := by
  rcases h.closed_or_holds h3 with hc | ⟨hlt, huse, i, hiF, hs, ht, hsame⟩
  · refine ⟨(-1, []), s, t, ?_, ?_, h⟩
    · simp only [sysRead, if_neg (show ¬fd = 0 by omega), if_pos hc]
    · simp only [sysRead, if_neg (show ¬fd = 0 by omega), h.fdTable, if_pos hc]
  · have huse' : (t.fdTable p fd).inUse := by rw [h.fdTable]; exact huse
    have ht' : sysRead t (some p) fd len = _ := sysRead_eq h.inv' h3 hlt huse' ht
    rw [h.fdTable, hsame] at ht'
    refine ⟨_, _, _, sysRead_eq h.inv h3 hlt huse hs, ht', h.setFd h3 fun _ => ⟨i, hiF, ?_⟩⟩
    -- The new position is still inside the file.
    obtain ⟨hidx, hslot, hused, hoff⟩ := hs
    refine ⟨hidx, hslot, hused, ?_⟩
    simp only [List.length_take, List.length_drop, RamfsFile.length_content]
    omega

omit [DecidableEq P] in
/-- Both states get the same bytes in a file of `F`. -/
theorem SameFor.splice (h : SameFor p F s t) {i offset n : ℕ} (hiF : i ∈ F)
    (hlt : i < ramfsMaxFiles) (hused : (s.files i).used) (hn : offset + n ≤ ramfsMaxFileSize)
    (buf : ℕ → UInt8) :
    SameFor p F { s with files := Function.update s.files i ((s.files i).splice offset n buf) }
      { t with files := Function.update t.files i ((s.files i).splice offset n buf) } where
  inv := h.inv.splice hlt hused hn buf
  inv' := by
    have hused' : (t.files i).used := (h.used i).trans hused
    have hinv := h.inv'.splice hlt hused' hn buf
    -- The file that is written is the same one in both states.
    rwa [h.files i hiF] at hinv
  name j := by
    rcases eq_or_ne j i with rfl | hj
    · simp
    · simpa [hj] using h.name j
  used j := by
    rcases eq_or_ne j i with rfl | hj
    · simp
    · simpa [hj] using h.used j
  files j hj := by
    rcases eq_or_ne j i with rfl | hne
    · simp
    · simpa [hne] using h.files j hj
  fdTable := h.fdTable
  own := h.own

/-- A write gives the same result in both states. -/
theorem SameFor.write (h : SameFor p F s t) {fd len : ℕ} (h3 : 3 ≤ fd)
    (hfits : fd < maxFds → (s.fdTable p fd).inUse → (s.fdTable p fd).offset + len < 2 ^ 32)
    (buf : ℕ → UInt8) :
    ∃ r s' t', sysWrite s (some p) fd buf len = some (r, s') ∧
      sysWrite t (some p) fd buf len = some (r, t') ∧ SameFor p F s' t' := by
  have hfd : ¬(fd = 1 ∨ fd = 2) := by omega
  -- A closed descriptor is refused in both states, an open one holds the same file of `F`.
  rcases h.closed_or_holds h3 with hc | ⟨hlt, huse, i, hiF, hs, ht, hsame⟩
  · refine ⟨-1, s, t, ?_, ?_, h⟩
    · simp only [sysWrite, if_neg hfd, if_pos hc]
    · simp only [sysWrite, if_neg hfd, h.fdTable, if_pos hc]
  · have huse' : (t.fdTable p fd).inUse := by rw [h.fdTable]; exact huse
    have hlen := hfits hlt huse
    have ht' := sysWrite_eq h.inv' h3 hlt huse' ht (by rw [h.fdTable]; exact hlen) buf
    rw [h.fdTable, hsame] at ht'
    obtain ⟨hidx, hslot, hused, hoff⟩ := hs
    have hsize := h.inv.ramfs.size_le i hslot
    refine ⟨_, _, _, sysWrite_eq h.inv h3 hlt huse ⟨hidx, hslot, hused, hoff⟩ hlen buf, ht',
      (h.splice hiF hslot hused (by omega) buf).setFd h3 fun _ => ⟨i, hiF, hidx, hslot, ?_⟩⟩
    dsimp only
    rw [Function.update_self]
    exact ⟨hused, le_max_right _ _⟩

/-- A close gives the same result in both states. -/
theorem SameFor.close (h : SameFor p F s t) (fd : ℕ) :
    ∃ r s' t', sysClose s (some p) fd = (r, s') ∧ sysClose t (some p) fd = (r, t') ∧
      SameFor p F s' t' := by
  simp only [sysClose, h.fdTable]
  split_ifs with hfd
  · exact ⟨_, s, t, rfl, rfl, h⟩
  · exact ⟨_, s, t, rfl, rfl, h⟩
  · obtain ⟨h3, -⟩ := not_or.mp hfd
    exact ⟨_, _, _, rfl, rfl, h.setFd (not_lt.mp h3) (by simp)⟩

/-- A call of `p` returns the same in both states. -/
theorem sameFor_fileCall (h : SameFor p F s t) (hreg : c.Regular) (hfits : WriteFits s (p, c))
    (hsep : Separate p F s (p, c)) :
    ∃ r s' t', fileCall s (p, c) = some (r, s') ∧ fileCall t (p, c) = some (r, t') ∧
      SameFor p F s' t' := by
  cases c with
  | sysOpen path =>
    obtain ⟨r, s', t', hs, ht, h'⟩ := h.openFile path (hsep rfl)
    exact ⟨(r, []), s', t', by simp only [fileCall, hs, Option.map_some],
      by simp only [fileCall, ht, Option.map_some], h'⟩
  | sysRead fd len => exact h.read hreg len.toNat
  | sysWrite fd buf len =>
    obtain ⟨r, s', t', hs, ht, h'⟩ := h.write hreg (hfits hreg) buf
    exact ⟨(r, []), s', t', by simp only [fileCall, hs, Option.map_some],
      by simp only [fileCall, ht, Option.map_some], h'⟩
  | sysClose fd =>
    obtain ⟨r, s', t', hs, ht, h'⟩ := h.close fd.toNat
    exact ⟨(r, []), s', t', by simp only [fileCall, hs], by simp only [fileCall, ht], h'⟩

/-! ## The calls of other processes -/

/-- A call of another process leaves the files of `F` alone. -/
theorem files_fileCall_other {s' : FileState P} {r : ℤ × List UInt8} (hi : FileInv s)
    (hq : q ≠ p) (hreg : c.Regular) (hfits : WriteFits s (q, c)) (hsep : Separate p F s (q, c))
    (hcall : fileCall s (q, c) = some (r, s')) {i : ℕ} (hiF : i ∈ F) :
    s'.files i = s.files i := by
  cases c with
  | sysOpen path =>
    obtain ⟨r₁, s₁, hopen, -, hfiles, -⟩ := sysOpen_spec hi q path
    simp only [fileCall, hopen, Option.map_some] at hcall
    obtain ⟨-, rfl⟩ := Prod.mk.inj (Option.some.inj hcall)
    rw [hfiles]
  | sysRead fd len =>
    obtain ⟨r₁, s₁, hread, -, hfiles, -⟩ := sysRead_spec hi q hreg len.toNat
    obtain ⟨-, rfl⟩ := Prod.mk.inj (Option.some.inj (hread.symm.trans hcall))
    rw [hfiles]
  | sysWrite fd buf len =>
    rcases hi.closed_or_holds q hreg with hc | ⟨hlt, huse, j, hholds⟩
    · have hfd : ¬(fd.toNat = 1 ∨ fd.toNat = 2) := by
        have : 3 ≤ fd.toNat := hreg
        omega
      simp only [fileCall, sysWrite, if_neg hfd, if_pos hc, Option.map_some] at hcall
      obtain ⟨-, rfl⟩ := Prod.mk.inj (Option.some.inj hcall)
      rfl
    · -- The slot that is written is none of `F`.
      have hij : i ≠ j := fun heq => hsep hq j huse hholds.1 (heq ▸ hiF)
      have hwrite := sysWrite_eq hi hreg hlt huse hholds (hfits hreg hlt huse) buf
      simp only [fileCall, hwrite, Option.map_some] at hcall
      obtain ⟨-, rfl⟩ := Prod.mk.inj (Option.some.inj hcall)
      exact Function.update_of_ne hij _ _
  | sysClose fd =>
    obtain ⟨r₁, s₁, hclose, -, hfiles, -⟩ := sysClose_spec hi q hreg
    simp only [fileCall, hclose] at hcall
    obtain ⟨-, rfl⟩ := Prod.mk.inj (Option.some.inj hcall)
    rw [hfiles]

/-- What another process does with other files is not seen. -/
theorem sameFor_fileCall_other (h : SameFor p F s t) (hq : q ≠ p) (hreg : c.Regular)
    (hfits : WriteFits s (q, c)) (hsep : Separate p F s (q, c)) :
    ∃ r s', fileCall s (q, c) = some (r, s') ∧ SameFor p F s' t := by
  obtain ⟨r, s', hcall, hi'⟩ := fileCall_returns h.inv hfits
  have hframe := fileCall_frame h.inv.mounted hcall
  have htable : s'.fdTable p = s.fdTable p := hframe.fdTable p (Ne.symm hq)
  refine ⟨r, s', hcall, hi', h.inv', fun i => ?_, fun i => ?_, fun i hiF => ?_, ?_,
    fun fd i h3 => ?_⟩
  · rw [h.name, hframe.name]
  · rw [h.used, hframe.used]
  · rw [h.files i hiF, files_fileCall_other h.inv hq hreg hfits hsep hcall hiF]
  · rw [h.fdTable, htable]
  · rw [htable]
    exact h.own fd i h3

/-! ## Runs -/

/-- Processes that use different files do not notice each other. Take any filesystem that the kernel
can fill, fresh descriptor tables, and any run of file calls in which the process `p` opens files in
the slots `F` only and no other process writes to them. The calls of `p` then return what they
return when `p` is alone, and leave it the same descriptors and the same files. -/
theorem isolation_of_fileCalls {files₀ files : Ramfs} {ops : List RamfsOp}
    (hboot : Run RamfsStep (ramfsInit files₀).2 ops files) {tables : P → ℕ → FdEntry}
    (hfresh : FreshTables tables) (keyboard : ℕ → UInt8) (console : List UInt8) (p : P) (F : Set ℕ)
    {calls : List (P × FileCall)}
    (hok : AlongRun fileCall (fun s c => c.2.Regular ∧ WriteFits s c ∧ Separate p F s c)
      ⟨(ramfsInit files₀).1, files, tables, keyboard, console⟩ calls) :
    ∃ out s' out' t', feed fileCall ⟨(ramfsInit files₀).1, files, tables, keyboard, console⟩
        calls = some (out, s') ∧
      feed fileCall ⟨(ramfsInit files₀).1, files, tables, keyboard, console⟩
        (calls.filter fun c => c.1 = p) = some (out', t') ∧
      ((calls.zip out).filter fun x => x.1.1 = p).map Prod.snd = out' ∧
      t'.fdTable p = s'.fdTable p ∧ ∀ i ∈ F, t'.files i = s'.files i := by
  have hi := fileInv_of_fresh (ramfsInv_of_run hboot) hfresh keyboard console
  -- Both runs start in the same state, where `p` has no file open yet.
  have hstart : SameFor p F ⟨(ramfsInit files₀).1, files, tables, keyboard, console⟩
      ⟨(ramfsInit files₀).1, files, tables, keyboard, console⟩ :=
    ⟨hi, hi, fun _ => rfl, fun _ => rfl, fun _ _ => rfl, rfl,
      fun fd i h3 huse => absurd (hfresh p fd huse).1 (Nat.not_lt.mpr h3)⟩
  obtain ⟨out, s', out', t', hfeed, hfeed', houts, h'⟩ := feed_filter (g := fileCall)
    (fun c : P × FileCall => decide (c.1 = p)) (SameFor p F)
    (fun s t c h hok hvis => by
      obtain ⟨q, c⟩ := c
      obtain rfl : q = p := of_decide_eq_true hvis
      exact sameFor_fileCall h hok.1 hok.2.1 hok.2.2)
    (fun s t c h hok hhid => sameFor_fileCall_other h (of_decide_eq_false hhid) hok.1 hok.2.1
      hok.2.2)
    calls _ _ hstart hok
  exact ⟨out, s', out', t', hfeed, hfeed', houts, h'.fdTable, h'.files⟩

/-- `hiFiles` with another file `b`. -/
def twoFiles : Option Ramfs :=
  hiFiles.bind fun files => (vfsCreate (some ramfsOps) files [98, 0]).map Prod.snd

theorem twoFiles_reachable : ∃ files ops, twoFiles = some files ∧
    Run RamfsStep (ramfsInit emptyFiles).2 ops files := by
  obtain ⟨files, ops, hfiles, hboot⟩ := hiFiles_reachable
  obtain ⟨files', htwo⟩ := Option.isSome_iff_exists.mp (show twoFiles.isSome by decide +kernel)
  have h := htwo
  rw [twoFiles, hfiles, Option.bind_some] at h
  obtain ⟨⟨r, files₂⟩, hcreate, rfl⟩ := Option.map_eq_some_iff.mp h
  have hstep : RamfsStep files (.vfsCreate [98, 0]) files₂ := ⟨r, hcreate⟩
  exact ⟨_, _, htwo, hboot.snoc hstep⟩

/-- One process appends to the file `a` and the other one to `b`, which it then reads. -/
def separateCalls : List (Bool × FileCall) :=
  [(false, .sysOpen pathA), (true, .sysOpen ⟨[98, 0], by decide⟩), (false, .sysRead 3 9),
    (true, .sysWrite 3 (fun _ => 33) 5), (false, .sysWrite 3 (fun _ => 63) 1), (true, .sysClose 3),
    (true, .sysOpen ⟨[98, 0], by decide⟩), (true, .sysRead 3 9), (false, .sysRead 3 9)]

/-- Of two processes that write to different files, the first one does not notice the other. -/
theorem isolation_of_fileCalls_separateCalls :
    ∃ files out s' out' t', twoFiles = some files ∧
      feed fileCall ⟨(ramfsInit emptyFiles).1, files, fun _ _ => ⟨-1, 0, false⟩, fun _ => 0, []⟩
        separateCalls = some (out, s') ∧
      feed fileCall ⟨(ramfsInit emptyFiles).1, files, fun _ _ => ⟨-1, 0, false⟩, fun _ => 0, []⟩
        (separateCalls.filter fun c => c.1 = false) = some (out', t') ∧
      ((separateCalls.zip out).filter fun x => x.1.1 = false).map Prod.snd = out' ∧
      t'.fdTable false = s'.fdTable false ∧ t'.files 0 = s'.files 0 := by
  obtain ⟨files, ops, hfiles, hboot⟩ := twoFiles_reachable
  -- The first process keeps to slot 0.
  have hok : ∀ f ∈ twoFiles, AlongRun fileCall (fun s c => c.2.Regular ∧ WriteFits s c ∧
      Separate false {0} s c)
      ⟨(ramfsInit emptyFiles).1, f, fun _ _ => ⟨-1, 0, false⟩, fun _ => 0, []⟩
      separateCalls := by decide +kernel
  obtain ⟨out, s', out', t', hfeed, hfeed', houts, hfds, hsame⟩ := isolation_of_fileCalls hboot
    (by simp [FreshTables]) (fun _ => 0) [] false {0} (hok files hfiles)
  exact ⟨files, out, s', out', t', hfiles, hfeed, hfeed', houts, hfds, hsame 0 rfl⟩

end Lightstreak
