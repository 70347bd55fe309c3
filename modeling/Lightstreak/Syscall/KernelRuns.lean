import Lightstreak.Fs.Readdir
import Lightstreak.Syscall.Dispatch
import Lightstreak.Syscall.FileBounds

/-!
# The running kernel

`KernelInv` joins the invariants of the parts that system calls and timer interrupts work on: the
descriptor tables and the filesystem, the ring of processes with the current one in it, and the
timer. What a program can put into its registers is arbitrary; `KernelEvent.Admissible` leaves out
paths without a terminator, and writes to a file whose end wraps around.

* `fileCall_frame`: what a file call of one process leaves alone;
* `KernelInv.syscallHandler`: every admissible system call returns and keeps the invariant;
* `kernel_never_fails`: every run of the kernel, until it halts.
-/

namespace Lightstreak

open SysLib

variable {P : Type} [DecidableEq P]

/-! ## The frame of the file calls -/

/-- A call of the process `p` touches no other process's descriptors, and creates and renames no
file. -/
structure FileFrame (p : P) (s s' : FileState P) : Prop where
  /-- The same file system is mounted. -/
  mounted : s'.mountedFs = s.mountedFs
  /-- The descriptors of other processes are as before. -/
  fdTable : ∀ q ≠ p, s'.fdTable q = s.fdTable q
  /-- The names are as before. -/
  name : ∀ i, (s'.files i).name = (s.files i).name
  /-- The same slots are in use. -/
  used : ∀ i, (s'.files i).used = (s.files i).used

section Frame

variable {s s' : FileState P} {p : P}

omit [DecidableEq P] in
theorem FileFrame.refl (p : P) (s : FileState P) : FileFrame p s s :=
  ⟨rfl, fun _ _ => rfl, fun _ => rfl, fun _ => rfl⟩

theorem FileFrame.setFd (h : FileFrame p s s') (fd : ℕ) (e : FdEntry) :
    FileFrame p s (s'.setFd p fd e) where
  mounted := h.mounted
  fdTable q hq := (Function.update_of_ne hq _ _).trans (h.fdTable q hq)
  name := h.name
  used := h.used

/-- `sys_open` changes descriptors of the caller only. -/
theorem frame_sysOpen {path : List UInt8} {r : ℤ} (h : sysOpen s (some p) path = some (r, s')) :
    FileFrame p s s' := by
  simp only [sysOpen] at h
  split at h
  · obtain ⟨-, rfl⟩ := Prod.mk.inj (Option.some.inj h)
    exact .refl p _
  · obtain ⟨fileIdx, -, h⟩ := Option.bind_eq_some_iff.mp h
    split at h
    · obtain ⟨-, rfl⟩ := Prod.mk.inj (Option.some.inj h)
      exact .refl p _
    · obtain ⟨-, rfl⟩ := Prod.mk.inj (Option.some.inj h)
      exact (FileFrame.refl p s).setFd _ _

/-- `sys_close` changes descriptors of the caller only. -/
theorem frame_sysClose {fd : ℕ} : FileFrame p s (sysClose s (some p) fd).2 := by
  simp only [sysClose]
  split_ifs
  · exact .refl p s
  · exact .refl p s
  · exact (FileFrame.refl p s).setFd _ _

/-- `sys_read` changes descriptors of the caller only. -/
theorem frame_sysRead {fd len : ℕ} {r : ℤ × List UInt8}
    (h : sysRead s (some p) fd len = some (r, s')) : FileFrame p s s' := by
  simp only [sysRead] at h
  split_ifs at h
  · -- The keyboard loses the characters that were read.
    obtain ⟨-, rfl⟩ := Prod.mk.inj (Option.some.inj h)
    exact ⟨rfl, fun _ _ => rfl, fun _ => rfl, fun _ => rfl⟩
  · obtain ⟨-, rfl⟩ := Prod.mk.inj (Option.some.inj h)
    exact .refl p _
  · obtain ⟨-, rfl⟩ := Prod.mk.inj (Option.some.inj h)
    exact .refl p _
  · obtain ⟨⟨count, bytes⟩, -, h⟩ := Option.bind_eq_some_iff.mp h
    dsimp only at h
    split at h
    · obtain ⟨-, rfl⟩ := Prod.mk.inj (Option.some.inj h)
      exact (FileFrame.refl p s).setFd _ _
    · obtain ⟨-, rfl⟩ := Prod.mk.inj (Option.some.inj h)
      exact .refl p _

omit [DecidableEq P] in
/-- A write creates and renames no file. -/
theorem ramfsWrite_keeps {files files' : Ramfs} {r fileIdx : ℤ} {buf : ℕ → UInt8}
    {offset len : ℕ} (h : ramfsWrite files fileIdx buf offset len = some (r, files')) (i : ℕ) :
    (files' i).name = (files i).name ∧ (files' i).used = (files i).used := by
  rcases ramfsWrite_cases h with rfl | ⟨j, -, data, size, -, -, rfl⟩
  · exact ⟨rfl, rfl⟩
  · rcases eq_or_ne i j with rfl | hij
    · rw [Function.update_self]
      exact ⟨rfl, rfl⟩
    · rw [Function.update_of_ne hij]
      exact ⟨rfl, rfl⟩

/-- `sys_write` changes descriptors of the caller, and contents of files. -/
theorem frame_sysWrite {fd len : ℕ} {buf : ℕ → UInt8} {r : ℤ}
    (hm : s.mountedFs = some ramfsOps) (h : sysWrite s (some p) fd buf len = some (r, s')) :
    FileFrame p s s' := by
  simp only [sysWrite] at h
  split_ifs at h
  · obtain ⟨-, rfl⟩ := Prod.mk.inj (Option.some.inj h)
    exact ⟨rfl, fun _ _ => rfl, fun _ => rfl, fun _ => rfl⟩
  · obtain ⟨-, rfl⟩ := Prod.mk.inj (Option.some.inj h)
    exact .refl p _
  · obtain ⟨-, rfl⟩ := Prod.mk.inj (Option.some.inj h)
    exact .refl p _
  -- A write to a file changes its contents, and afterwards the offset of the descriptor.
  · obtain ⟨⟨written, files⟩, hwrite, h⟩ := Option.bind_eq_some_iff.mp h
    rw [hm] at hwrite
    have hframe : FileFrame p s { s with files := files } :=
      ⟨rfl, fun _ _ => rfl, fun i => (ramfsWrite_keeps hwrite i).1,
        fun i => (ramfsWrite_keeps hwrite i).2⟩
    dsimp only at h
    split at h
    · obtain ⟨-, rfl⟩ := Prod.mk.inj (Option.some.inj h)
      exact hframe.setFd _ _
    · obtain ⟨-, rfl⟩ := Prod.mk.inj (Option.some.inj h)
      exact hframe

/-- The frame of all file calls. -/
theorem fileCall_frame {c : FileCall} {r : ℤ × List UInt8} (hm : s.mountedFs = some ramfsOps)
    (h : fileCall s (p, c) = some (r, s')) : FileFrame p s s' := by
  cases c with
  | sysOpen path =>
    obtain ⟨⟨r', s₁⟩, hopen, heq⟩ := Option.map_eq_some_iff.mp h
    obtain ⟨-, rfl⟩ := Prod.mk.inj heq
    exact frame_sysOpen hopen
  | sysRead fd len => exact frame_sysRead h
  | sysWrite fd buf len =>
    obtain ⟨⟨r', s₁⟩, hwrite, heq⟩ := Option.map_eq_some_iff.mp h
    obtain ⟨-, rfl⟩ := Prod.mk.inj heq
    exact frame_sysWrite hm hwrite
  | sysClose fd =>
    obtain ⟨-, rfl⟩ := Prod.mk.inj (Option.some.inj h)
    exact frame_sysClose

omit [DecidableEq P] in
/-- Calls that keep names keep them sound. -/
theorem FileFrame.namesInv (h : FileFrame p s s') (hi : NamesInv s.files) (hi' : FileInv s') :
    NamesInv s'.files where
  toRamfsInv := hi'.ramfs
  short i hlt hused := by
    rw [h.name]
    exact hi.short i hlt ((h.used i).symm.trans hused)

end Frame

/-! ## The invariant -/

/-- The invariant of a running kernel with the ring `q` of processes, of which `c` is current. -/
structure KernelInv (k : KernelState P) (q : List P) (c : P) : Prop where
  /-- Files and descriptors are sound. -/
  files : FileInv k.files
  /-- The names are sound. -/
  names : NamesInv k.files.files
  /-- The scheduler is sound, with `c` as the current process. -/
  sched : SchedRun.Inv ⟨k.sched, q.toFinset, false, k.halted⟩ q c
  /-- The timer is programmed. -/
  hz : 0 < k.pit.ticksPerSecond

/-- The file call that the registers ask for, if there is one: a path has to be terminated. -/
def SyscallArgs.fileCall? (a : SyscallArgs) : Option FileCall :=
  match a.eax.toNat with
  | 2 => some (.sysWrite a.ebx a.buf a.edx)
  | 3 => some (.sysRead a.ebx a.edx)
  | 4 => if h : 0 ∈ a.path then some (.sysOpen ⟨a.path, h⟩) else none
  | 5 => some (.sysClose a.ebx)
  | _ => none

/-- A path that is passed is terminated, and the end of a write to a file does not wrap around. -/
def KernelEvent.Admissible (k : KernelState P) : KernelEvent → Prop
  | .timerIrq => True
  | .syscall a => (a.eax.toNat = 4 → 0 ∈ a.path) ∧
    ∀ p fc, k.sched.current = some p → a.fileCall? = some fc → WriteFits k.files (p, fc)

omit [DecidableEq P] in
/-- The conditions concern the current process and its call only. -/
theorem admissible_syscall_iff (k : KernelState P) (a : SyscallArgs) :
    KernelEvent.Admissible k (.syscall a) ↔ (a.eax.toNat = 4 → 0 ∈ a.path) ∧
      ∀ p ∈ k.sched.current, ∀ fc ∈ a.fileCall?, WriteFits k.files (p, fc) :=
  and_congr_right fun _ => ⟨fun h p hp fc hfc => h p fc hp hfc, fun h p fc hp hfc => h p hp fc hfc⟩

instance (k : KernelState P) : DecidablePred (KernelEvent.Admissible k)
  | .timerIrq => isTrue trivial
  | .syscall a => decidable_of_iff _ (admissible_syscall_iff k a).symm

/-- What an event in which `c` is current leaves alone. -/
structure KernelFrame (c : P) (k k' : KernelState P) : Prop where
  /-- The file calls are those of the current process. -/
  files : FileFrame c k.files k'.files
  /-- The frame allocator is as before. -/
  pmm : k'.pmm = k.pmm
  /-- The timer is as before. -/
  pit : k'.pit = k.pit

variable {k k' : KernelState P} {q : List P} {c : P} {fuel : ℕ} {a : SyscallArgs}

/-- The dispatcher hands a file call to the function of its number. -/
theorem syscallHandler_of_fileCall (fuel : ℕ) {fc : FileCall} {r : ℤ × List UInt8}
    {s' : FileState P} (hcur : k.sched.current = some c) (hfc : a.fileCall? = some fc)
    (h : fileCall k.files (c, fc) = some (r, s')) :
    ∃ data, syscallHandler fuel k a = some ((ofInt32 r.1, data), { k with files := s' }) := by
  unfold SyscallArgs.fileCall? at hfc
  -- The four file calls: write, read, open with a terminated path, and close.
  split at hfc
  next hnum =>
    obtain rfl := Option.some.inj hfc
    obtain ⟨⟨r', s₁⟩, hwrite, heq⟩ := Option.map_eq_some_iff.mp h
    obtain ⟨rfl, rfl⟩ := Prod.mk.inj heq
    exact ⟨.nothing, by simp only [syscallHandler, hnum, hcur, hwrite]; rfl⟩
  next hnum =>
    obtain rfl := Option.some.inj hfc
    have hread : sysRead k.files (some c) a.ebx.toNat a.edx.toNat = some (r, s') := h
    exact ⟨.bytes r.2, by simp only [syscallHandler, hnum, hcur, hread]; rfl⟩
  next hnum =>
    split at hfc
    next hpath =>
      obtain rfl := Option.some.inj hfc
      obtain ⟨⟨r', s₁⟩, hopen, heq⟩ := Option.map_eq_some_iff.mp h
      obtain ⟨rfl, rfl⟩ := Prod.mk.inj heq
      exact ⟨.nothing, by simp only [syscallHandler, hnum, hcur, hopen]; rfl⟩
    next => cases hfc
  next hnum =>
    obtain rfl := Option.some.inj hfc
    obtain ⟨rfl, rfl⟩ := Prod.mk.inj (Option.some.inj h)
    exact ⟨.nothing, by simp only [syscallHandler, hnum, hcur]⟩
  next => cases hfc

omit [DecidableEq P] in
theorem KernelFrame.refl (c : P) (k : KernelState P) : KernelFrame c k k :=
  ⟨.refl c k.files, rfl, rfl⟩

/-- A file call. -/
theorem KernelInv.fileCall {fc : FileCall} (hi : KernelInv k q c) (fuel : ℕ)
    (hfc : a.fileCall? = some fc) (hfits : WriteFits k.files (c, fc)) :
    ∃ out k', syscallHandler fuel k a = some (out, k') ∧ KernelInv k' q c ∧ KernelFrame c k k' ∧
      k'.sched = k.sched ∧ k'.halted = k.halted := by
  obtain ⟨r, s', hcall, hi'⟩ := fileCall_returns hi.files hfits
  have hframe := fileCall_frame hi.files.mounted hcall
  obtain ⟨data, hsys⟩ := syscallHandler_of_fileCall fuel hi.sched.current hfc hcall
  exact ⟨_, _, hsys, ⟨hi', hframe.namesInv hi.names hi', hi.sched, hi.hz⟩, ⟨hframe, rfl, rfl⟩,
    rfl, rfl⟩

/-- `SYS_EXIT`. -/
theorem KernelInv.exit (hi : KernelInv k q c) (fuel : ℕ) (hlive : k.halted = false)
    (hnum : a.eax.toNat = 1) :
    ∃ out k' c', syscallHandler fuel k a = some (out, k') ∧ KernelInv k' q c' ∧
      KernelFrame c k k' := by
  obtain ⟨m', c', hexec, hinv, -, -⟩ := hi.sched.exit hlive (toInt32 a.ebx.toNat)
  obtain ⟨⟨s, halted⟩, hexit, heq⟩ := Option.bind_eq_some_iff.mp hexec
  obtain rfl := Option.some.inj heq
  refine ⟨(a.eax.toNat, .nothing), { k with sched := s, halted := halted }, c', ?_,
    ⟨hi.files, hi.names, ?_, hi.hz⟩, ⟨.refl c _, rfl, rfl⟩⟩
  · simp only [syscallHandler, hnum, hexit]
    rfl
  · exact ⟨hinv.queue, hinv.mem, hinv.current, hinv.current_mem, hinv.current_state, hinv.running,
      fun h => by cases h⟩

/-- `SYS_READDIR` lists the slots of the mounted ramfs that are in use. -/
theorem KernelInv.sysReaddir_eq (hi : KernelInv k q c) (max : ℤ) :
    sysReaddir k.files max =
      let entries := ((usedSlots k.files.files).take max.toNat).map fun i =>
        (k.files.files i).dirent
      some ((entries.length : ℤ), entries) := by
  rw [sysReaddir, hi.files.mounted]
  exact ramfsReaddir_eq hi.names max

/-- `SYS_PS` returns on every ring, for every pointer and every `max`. -/
theorem exists_sysPs (hi : KernelInv k q c) (hfuel : q.length ≤ fuel) (isNull : Bool) (max : ℤ) :
    ∃ r, sysPs fuel k.sched isNull max = some r := by
  by_cases hbad : isNull = true ∨ max ≤ 0
  · exact ⟨_, if_pos hbad⟩
  · obtain ⟨hnull, hmax⟩ := not_or.mp hbad
    obtain rfl : isNull = false := Bool.not_eq_true _ ▸ hnull
    obtain ⟨listed, -, -, -, hps⟩ := sysPs_isQueue hi.sched.queue hi.sched.current
      hi.sched.current_mem (not_le.mp hmax) hfuel
    exact ⟨_, hps⟩

/-- The calls other than the file calls and `SYS_EXIT` only read the state. -/
theorem syscallHandler_readOnly (hi : KernelInv k q c) (hfuel : q.length ≤ fuel)
    (hfc : a.fileCall? = none) (hpath : a.eax.toNat = 4 → 0 ∈ a.path)
    (hexit : a.eax.toNat ≠ 1) : ∃ out, syscallHandler fuel k a = some (out, k) := by
  unfold syscallHandler
  -- The cases in the order of the `switch`: the four file calls and the exit are excluded.
  split
  next hnum => simp [SyscallArgs.fileCall?, hnum] at hfc
  next hnum => simp [SyscallArgs.fileCall?, hnum] at hfc
  next hnum => simp [SyscallArgs.fileCall?, hnum, hpath hnum] at hfc
  next hnum => simp [SyscallArgs.fileCall?, hnum] at hfc
  next hnum => exact absurd hnum hexit
  next => exact ⟨_, rfl⟩
  next =>
    rw [hi.sysReaddir_eq]
    exact ⟨_, rfl⟩
  next =>
    rw [sysUptime_eq hi.hz rfl]
    exact ⟨_, rfl⟩
  next =>
    split
    next => exact ⟨_, rfl⟩
    next => exact ⟨_, rfl⟩
  next =>
    obtain ⟨r, hps⟩ := exists_sysPs hi hfuel (a.ebx = 0) (toInt32 a.ecx.toNat)
    rw [hps]
    exact ⟨_, rfl⟩
  next => exact ⟨_, rfl⟩

/-- Every admissible system call returns, whatever its number, and keeps the invariant. -/
theorem KernelInv.syscallHandler (hi : KernelInv k q c) (hlive : k.halted = false)
    (hfuel : q.length ≤ fuel) (hok : KernelEvent.Admissible k (.syscall a)) :
    ∃ out k' c', syscallHandler fuel k a = some (out, k') ∧ KernelInv k' q c' ∧
      KernelFrame c k k' := by
  cases hfc : a.fileCall? with
  | some fc =>
    obtain ⟨out, k', hsys, hi', hframe, -⟩ :=
      hi.fileCall fuel hfc (hok.2 c fc hi.sched.current hfc)
    exact ⟨out, k', c, hsys, hi', hframe⟩
  | none =>
    by_cases hexit : a.eax.toNat = 1
    · exact hi.exit fuel hlive hexit
    · obtain ⟨out, hsys⟩ := syscallHandler_readOnly hi hfuel hfc hok.1 hexit
      exact ⟨out, k, c, hsys, hi, .refl c k⟩

/-! ## Runs -/

/-- Counting a tick keeps the invariant. -/
theorem KernelInv.timerTick (hi : KernelInv k q c) :
    KernelInv { k with sched := timerTick k.sched } q c :=
  ⟨hi.files, hi.names, ⟨hi.sched.queue.timerTick, hi.sched.mem, hi.sched.current,
    hi.sched.current_mem, hi.sched.current_state, hi.sched.running, hi.sched.esp0⟩, hi.hz⟩

/-- Every admissible event returns, keeps the invariant, and changes only what is the caller's. -/
theorem KernelInv.exec {e : KernelEvent} (hi : KernelInv k q c) (hlive : k.halted = false)
    (hfuel : q.length ≤ fuel) (hok : e.Admissible k) :
    ∃ out k' c', k.exec fuel e = some (out, k') ∧ KernelInv k' q c' ∧ KernelFrame c k k' := by
  unfold KernelState.exec
  rw [if_neg (by simp [hlive])]
  cases e with
  | timerIrq => exact ⟨_, _, c, rfl, hi.timerTick, ⟨.refl c _, rfl, rfl⟩⟩
  | syscall a => exact hi.syscallHandler hlive hfuel hok

/-- The kernel with two processes and an empty filesystem. -/
def readyKernel : KernelState ℕ :=
  { bootedKernel with
    files := ⟨some ramfsOps, (ramfsInit emptyFiles).2, fun _ _ => ⟨-1, 0, false⟩, fun _ => 0, []⟩ }

theorem kernelInv_readyKernel : KernelInv readyKernel [0, 1] 0 where
  files := fileInv_of_fresh (ramfsInv_ramfsInit emptyFiles) (by simp [FreshTables]) _ _
  names := namesInv_ramfsInit emptyFiles
  sched := by
    have hboot : (SchedRun.boot idleOnly 0).Inv [0] 0 :=
      SchedRun.inv_boot (show emptyQueue.sched.runQueue = none from rfl) rfl
    obtain ⟨hinv, -⟩ := hboot.add (p := 1) (by decide) 8192
    exact ⟨hinv.queue, by simp, hinv.current, hinv.current_mem, hinv.current_state, hinv.running,
      fun h => by cases h⟩
  hz := show 0 < 100 by decide

end Lightstreak
