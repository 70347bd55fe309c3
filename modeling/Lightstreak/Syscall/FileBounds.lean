import Lightstreak.Syscall.FileRefinement

/-!
# When file copies stay inside the file's buffer

The model makes a copy that leaves a slot's 32 KB buffer fail, so a run of file calls stays in
bounds exactly when it does not fail. Reads always do. The clamp of `ramfs_write` is computed
with a 32-bit sum, which a large length wraps below the limit:

* `fileCall_returns`: a call whose write does not wrap returns and keeps the invariant, whatever
  its descriptor and length;
* `fileCall_eq_none`: a write that wraps leaves the buffer;
* `fileCalls_inBounds_iff`: a run stays in bounds exactly when none of its writes wraps;
* `fileCalls_outOfBounds`: two writes that leave it.
-/

namespace Lightstreak

open SysLib

variable {P : Type} {s : FileState P} {fd : ℕ}

/-- A standard descriptor never reaches the filesystem. -/
theorem FileInv.stdio_not_reached (hi : FileInv s) (p : P) (hlt : fd < 3) {α : Type}
    (x y : α) : (if maxFds ≤ fd ∨ (s.fdTable p fd).inUse = false then x
      else if (s.fdTable p fd).fileIdx < 0 then x else y) = x := by
  split
  next => rfl
  next hc =>
    rw [if_pos]
    refine hi.stdio p fd hlt ?_
    by_contra huse
    exact hc (.inr (Bool.not_eq_true _ ▸ huse))

variable [DecidableEq P]

/-- Screen output and keyboard input touch neither descriptors nor files. -/
theorem sysWrite_stdio (hi : FileInv s) (p : P) (hlt : fd < 3) (buf : ℕ → UInt8) (len : ℕ) :
    ∃ r s', sysWrite s (some p) fd buf len = some (r, s') ∧ FileInv s' := by
  unfold sysWrite
  split
  next => exact ⟨_, _, rfl, ⟨hi.mounted, hi.ramfs, hi.stdio, hi.opened⟩⟩
  next =>
    dsimp only
    rw [hi.stdio_not_reached p hlt]
    exact ⟨-1, s, rfl, hi⟩

/-- A read from a standard descriptor returns and keeps the invariant. -/
theorem sysRead_stdio (hi : FileInv s) (p : P) (hlt : fd < 3) (len : ℕ) :
    ∃ r s', sysRead s (some p) fd len = some (r, s') ∧ FileInv s' := by
  unfold sysRead
  split
  next => exact ⟨_, _, rfl, ⟨hi.mounted, hi.ramfs, hi.stdio, hi.opened⟩⟩
  next =>
    dsimp only
    rw [hi.stdio_not_reached p hlt]
    exact ⟨(-1, []), s, rfl, hi⟩

/-- Every call whose write does not wrap returns. -/
theorem fileCall_returns (hi : FileInv s) {c : P × FileCall} (hfits : WriteFits s c) :
    ∃ r s', fileCall s c = some (r, s') ∧ FileInv s' := by
  obtain ⟨p, c⟩ := c
  cases c with
  | sysOpen path =>
    obtain ⟨r, s', hcall, hi', -⟩ := sysOpen_spec hi p path
    exact ⟨(r, []), s', by simp only [fileCall, hcall, Option.map_some], hi'⟩
  | sysRead fd len =>
    -- The first three descriptors are no files.
    rcases Nat.lt_or_ge fd.toNat 3 with hlt | h3
    · exact sysRead_stdio hi p hlt len.toNat
    · obtain ⟨r, s', hcall, hi', -⟩ := sysRead_spec hi p h3 len.toNat
      exact ⟨r, s', hcall, hi'⟩
  | sysWrite fd buf len =>
    rcases Nat.lt_or_ge fd.toNat 3 with hlt | h3
    · obtain ⟨r, s', hcall, hi'⟩ := sysWrite_stdio hi p hlt buf len.toNat
      exact ⟨(r, []), s', by simp only [fileCall, hcall, Option.map_some], hi'⟩
    · obtain ⟨r, s', hcall, hi', -⟩ := sysWrite_spec hi p h3 (hfits h3) buf
      exact ⟨(r, []), s', by simp only [fileCall, hcall, Option.map_some], hi'⟩
  | sysClose fd =>
    rcases Nat.lt_or_ge fd.toNat 3 with hlt | h3
    · exact ⟨(-1, []), s, by simp [fileCall, sysClose, hlt], hi⟩
    · obtain ⟨r, s', hcall, hi', -⟩ := sysClose_spec hi p h3
      exact ⟨(r, []), s', by simp only [fileCall, hcall], hi'⟩

/-- A write whose end wraps copies bytes to indices outside the buffer. -/
theorem fileCall_eq_none (hi : FileInv s) {c : P × FileCall} (hwrap : ¬WriteFits s c) :
    fileCall s c = none := by
  obtain ⟨p, c⟩ := c
  cases c with
  | sysOpen path => exact absurd trivial hwrap
  | sysRead fd len => exact absurd trivial hwrap
  | sysClose fd => exact absurd trivial hwrap
  | sysWrite fd buf len =>
    simp only [WriteFits, Classical.not_imp, not_lt] at hwrap
    obtain ⟨h3, hlt, huse, hwrap⟩ := hwrap
    obtain ⟨i, hidx, hslot, hused, hoff⟩ := hi.opened p fd.toNat h3 huse
    -- The call reaches `ramfs_write`, whose copy leaves the buffer.
    have hnot : ¬(maxFds ≤ fd.toNat ∨ (s.fdTable p fd.toNat).inUse = false) := by
      simp [huse, hlt]
    have hvfs : vfsWrite s.mountedFs s.files i buf (s.fdTable p fd.toNat).offset len.toNat =
        none := by
      rw [hi.mounted]
      have hin := hoff.trans (hi.ramfs.size_le i hslot)
      have hmax : ramfsMaxFileSize = 32768 := rfl
      exact (ramfsWrite_eq_none_iff hslot hused (by omega) len.toNat_lt buf).mpr
        fun hfits => by omega
    have hneg : ¬((i : ℤ) < 0) := by omega
    simp [fileCall, sysWrite, if_neg (show ¬(fd.toNat = 1 ∨ fd.toNat = 2) by omega),
      if_neg hnot, hidx, hneg, hvfs]

/-- From `ramfs_init` with any files and fresh descriptor tables, a run of file calls with
arbitrary arguments copies inside the buffers only, with all sizes at most 32 KB in every state
it reaches, exactly when the end of every write to a file stays below `2 ^ 32`. -/
theorem fileCalls_inBounds_iff {files₀ files : Ramfs} {ops : List RamfsOp}
    (hboot : Run RamfsStep (ramfsInit files₀).2 ops files) {tables : P → ℕ → FdEntry}
    (hfresh : FreshTables tables) (keyboard : ℕ → UInt8) (console : List UInt8)
    (calls : List (P × FileCall)) :
    (∀ n, ∃ out s',
      feed fileCall ⟨(ramfsInit files₀).1, files, tables, keyboard, console⟩ (calls.take n) =
        some (out, s') ∧ ∀ i < ramfsMaxFiles, (s'.files i).size ≤ ramfsMaxFileSize) ↔
      AlongRun fileCall WriteFits ⟨(ramfsInit files₀).1, files, tables, keyboard, console⟩
        calls := by
  have hi := fileInv_of_fresh (ramfsInv_of_run hboot) hfresh keyboard console
  exact (alongRun_iff_feed_take FileInv
    (fun s => ∀ i < ramfsMaxFiles, (s.files i).size ≤ ramfsMaxFileSize)
    (fun s hs => hs.ramfs.size_le) (fun s c hs hfits => fileCall_returns hs hfits)
    (fun s c hs hwrap => fileCall_eq_none hs hwrap) calls _ hi).symm

/-- The writer and the reader of `hiFiles` stay in bounds. -/
theorem fileCalls_inBounds_iff_writerAndReader :
    ∃ files, hiFiles = some files ∧ ∀ n, ∃ out s',
      feed fileCall ⟨(ramfsInit emptyFiles).1, files, fun _ _ => ⟨-1, 0, false⟩, fun _ => 0, []⟩
        (writerAndReader.take n) = some (out, s') ∧
        ∀ i < ramfsMaxFiles, (s'.files i).size ≤ ramfsMaxFileSize := by
  obtain ⟨files, ops, hfiles, hboot⟩ := hiFiles_reachable
  have hfits : ∀ f ∈ hiFiles, AlongRun fileCall WriteFits
      ⟨(ramfsInit emptyFiles).1, f, fun _ _ => ⟨-1, 0, false⟩, fun _ => 0, []⟩
      writerAndReader := by decide +kernel
  exact ⟨files, hfiles, (fileCalls_inBounds_iff hboot (by simp [FreshTables]) (fun _ => 0) []
    writerAndReader).mpr (hfits files hfiles)⟩

/-- Open the file, write one byte, then ask to write `0xFFFFFFFF` bytes: the end of the second
request is `1 + 0xFFFFFFFF`, which wraps to 0 and passes the check. -/
def wrappingWrite : Unit × FileCall := ((), .sysWrite 3 (fun _ => 0) 0xFFFFFFFF)

/-- The calls before `wrappingWrite`. -/
def oneByteWritten : List (Unit × FileCall) :=
  [((), .sysOpen pathA), ((), .sysWrite 3 (fun _ => 0) 1)]

/-- After one byte was written, a write whose end wraps around runs out of the file. -/
theorem fileCalls_outOfBounds :
    ∃ files, hiFiles = some files ∧ feed fileCall
      ⟨(ramfsInit emptyFiles).1, files, fun _ _ => ⟨-1, 0, false⟩, fun _ => 0, []⟩
      (oneByteWritten ++ [wrappingWrite]) = none := by
  obtain ⟨files, ops, hfiles, hboot⟩ := hiFiles_reachable
  have hi := fileInv_of_fresh (ramfsInv_of_run hboot)
    (show FreshTables fun (_ : Unit) _ => ⟨-1, 0, false⟩ by simp [FreshTables]) (fun _ => 0) []
  -- After the first two calls descriptor 3 is at position 1.
  have hfd : ∀ f ∈ hiFiles, (feed fileCall
      ⟨(ramfsInit emptyFiles).1, f, fun _ _ => ⟨-1, 0, false⟩, fun _ => 0, []⟩
      oneByteWritten).map (fun q => q.2.fdTable () 3) = some ⟨0, 1, true⟩ := by decide +kernel
  obtain ⟨q, hq, hentry⟩ := Option.map_eq_some_iff.mp (hfd files hfiles)
  -- The invariant holds there, so that the third call is judged by the position alone.
  have hinv : FileInv q.2 := feed_invariant FileInv (fun s c r hs hr => by
    by_cases hfits : WriteFits s c
    · obtain ⟨r', s', hcall, hs'⟩ := fileCall_returns hs hfits
      obtain rfl := Option.some.inj (hcall.symm.trans hr)
      exact hs'
    · rw [fileCall_eq_none hs hfits] at hr
      cases hr) hi hq
  have hwrap : ¬WriteFits q.2 wrappingWrite := by
    simp only [WriteFits, wrappingWrite]
    intro h
    have hend := h (by decide) (by decide)
    simp only [show (3 : UInt32).toNat = 3 from rfl, hentry] at hend
    exact absurd (hend trivial) (by decide)
  refine ⟨files, hfiles, ?_⟩
  rw [feed_append, hq, Option.bind_some, feed, fileCall_eq_none hinv hwrap]
  rfl

end Lightstreak
