import Lightstreak.User.CommandOutput

/-!
# The commands print what they are to print

* `does_cmdCat`: `cat` opens, copies and closes a file of any size in chunks of 512 bytes;
* `parseCommand_eq`: which command a line runs;
* `does_runCommand`: every command line but `exit` is answered with its `output`, and nothing else
  changes;
* `wp_runCommand_exit`: `exit` does not return.
-/

namespace Lightstreak.User

open SysLib

variable {P : Type} [DecidableEq P] {k k₀ k₁ : KernelState P} {q : List P} {c : P}
  {out pre : List UInt8} (env : Env)

/-! ## System calls that only read -/

omit [DecidableEq P] in
/-- Printing keeps the file calls sound. -/
theorem Prints.fileInv (h : Prints k₀ k out) (hi : FileInv k₀.files) : FileInv k.files where
  mounted := h.mounted.trans hi.mounted
  ramfs := h.files ▸ hi.ramfs
  stdio p fd hfd huse := by
    rw [h.inUse] at huse
    rw [h.opened p fd huse]
    exact hi.stdio p fd hfd huse
  opened p fd h3 huse := by
    rw [h.inUse] at huse
    rw [h.opened p fd huse, h.files]
    exact hi.opened p fd h3 huse

/-- Printing keeps the kernel sound. -/
theorem Prints.kernelInv (h : Prints k₀ k out) (hi : KernelInv k₀ q c) : KernelInv k q c where
  files := h.fileInv hi.files
  names := h.files ▸ hi.names
  sched := by
    rw [h.sched, h.halted]
    exact hi.sched
  hz := by
    rw [h.pit]
    exact hi.hz

/-- What is printed does not change what the commands show. -/
theorem Prints.view (h : Prints k₀ k out) (q : List P) (c : P) : view k q c = view k₀ q c := by
  simp only [User.view, h.files, h.inUse, h.sched, h.pit, h.pmm]

/-- A system call that leaves the kernel as it is. -/
theorem does_int80 {a : SyscallArgs} {r : ℕ × UserData}
    (hsys : ∀ k pre, Prints k₀ k pre → syscallHandler env.fuel k a = some (r, k)) :
    Does k₀ (int80 env a) r [] := fun k pre h =>
  wp_int80 env (hsys k pre h) ⟨rfl, by rwa [List.append_nil]⟩

theorem ofInt32_natCast {n : ℕ} (hn : n < 2 ^ 32) : ofInt32 (n : ℤ) = n := by
  unfold ofInt32
  omega

theorem toInt32_ofInt32 {n : ℕ} (hn : n < 2 ^ 31) : toInt32 (ofInt32 (n : ℤ)) = n := by
  rw [ofInt32_natCast (hn.trans (by decide)), toInt32_of_lt hn]

/-- The entries that the shell asks for. -/
def dirents (k : KernelState P) : List Dirent :=
  ((usedSlots k.files.files).take 32).map fun i => (k.files.files i).dirent

/-- `sys_readdir` fills in the entries. -/
theorem does_sysReaddir (hi : KernelInv k₀ q c) :
    Does k₀ (sysReaddir env 32) (((dirents k₀).length : ℤ), dirents k₀) [] := by
  have hcall : Does k₀ (int80 env ⟨7, env.addr, toReg 32, 0, [], env.stack⟩)
      (ofInt32 ((dirents k₀).length : ℤ), .dirents (dirents k₀)) [] := by
    refine does_int80 env fun k pre h => ?_
    have hmax : toInt32 (toReg 32).toNat = 32 := by decide
    have hdir : Lightstreak.sysReaddir k.files 32 =
        some (((dirents k₀).length : ℤ), dirents k₀) := by
      rw [(h.kernelInv hi).sysReaddir_eq, h.files]
      rfl
    simp only [syscallHandler, UInt32.reduceToNat, hmax, hdir]
    rfl
  -- Only 32 entries are asked for.
  have hlen : (dirents k₀).length < 2 ^ 31 := by
    rw [dirents, List.length_map]
    exact (List.length_take_le _ _).trans_lt (by decide)
  rw [← toInt32_ofInt32 hlen]
  exact hcall.get (does_pure k₀ _)

/-- The processes that the shell asks for. -/
def psEntries (k : KernelState P) (q : List P) (c : P) : List PsEntry :=
  ((Ring.startAt c q).take 32).map (psEntry k.sched)

/-- `sys_ps` fills in the processes. -/
theorem does_sysPs (hi : KernelInv k₀ q c) (hfuel : q.length ≤ env.fuel) :
    Does k₀ (sysPs env 32) (((psEntries k₀ q c).length : ℤ), psEntries k₀ q c) [] := by
  have hps : Lightstreak.sysPs env.fuel k₀.sched false 32 =
      some (((psEntries k₀ q c).length : ℤ), psEntries k₀ q c) := by
    obtain ⟨listed, hpre, -, hlen, hps⟩ := sysPs_isQueue hi.sched.queue hi.sched.current
      hi.sched.current_mem (show (0 : ℤ) < 32 by decide) hfuel
    -- What is listed is the part of the ring with as many processes.
    have htake : listed = (Ring.startAt c q).take 32 := by
      have hring : (Ring.startAt c q).length = q.length := (Ring.startAt_perm c q).length_eq
      rw [List.prefix_iff_eq_take.mp hpre, List.take_eq_take_iff, hring]
      omega
    rw [hps, psEntries, ← htake, List.length_map]
  have hcall : Does k₀ (int80 env ⟨10, env.addr, toReg 32, 0, [], env.stack⟩)
      (ofInt32 ((psEntries k₀ q c).length : ℤ), .psEntries (psEntries k₀ q c)) [] := by
    refine does_int80 env fun k pre h => ?_
    have hmax : toInt32 (toReg 32).toNat = 32 := by decide
    simp only [syscallHandler, UInt32.reduceToNat, hmax, h.sched, env.addr_ne, decide_false, hps]
    rfl
  have hlen : (psEntries k₀ q c).length < 2 ^ 31 := by
    rw [psEntries, List.length_map]
    exact (List.length_take_le _ _).trans_lt (by decide)
  rw [← toInt32_ofInt32 hlen]
  exact hcall.get (does_pure k₀ _)

/-- `sys_uptime` returns the seconds. -/
theorem does_sysUptime (hi : KernelInv k₀ q c) :
    Does k₀ (sysUptime env) (k₀.sched.tickCount / k₀.pit.ticksPerSecond) [] := by
  have hcall : Does k₀ (int80 env ⟨8, 0, 0, 0, [], env.stack⟩)
      (k₀.sched.tickCount / k₀.pit.ticksPerSecond, .nothing) [] := by
    refine does_int80 env fun k pre h => ?_
    have hup : Lightstreak.sysUptime k = some (k₀.sched.tickCount / k₀.pit.ticksPerSecond) := by
      rw [sysUptime_eq (h.kernelInv hi).hz rfl, h.sched, h.pit]
    exact syscallHandler_uptime rfl hup
  exact hcall.get (does_pure k₀ _)

/-- `sys_meminfo` fills in the numbers of frames. -/
theorem does_sysMeminfo (k₀ : KernelState P) :
    Does k₀ (sysMeminfo env) (0, some ⟨pmmGetTotalPages k₀.pmm, pmmGetFreePages k₀.pmm,
      pmmGetUsedPages k₀.pmm⟩) [] := by
  have hcall : Does k₀ (int80 env ⟨9, env.addr, 0, 0, [], env.stack⟩)
      (0, .meminfo ⟨pmmGetTotalPages k₀.pmm, pmmGetFreePages k₀.pmm, pmmGetUsedPages k₀.pmm⟩)
      [] := by
    refine does_int80 env fun k pre h => ?_
    simp only [syscallHandler, UInt32.reduceToNat, env.addr_ne, if_false, h.pmm]
    rfl
  exact hcall.get (does_pure k₀ _)

/-! ## Commands without files -/

/-- What the commands need of the kernel, and of the number of turns that loops may take. -/
structure Ready (env : Env) (k : KernelState P) (q : List P) (c : P) : Prop
    extends KernelInv k q c where
  /-- Pids are words. -/
  pid_lt : ∀ p ∈ q, (k.sched.procs p).pid < 2 ^ 32
  /-- The counter is a word. -/
  ticks_lt : k.sched.tickCount < 2 ^ 32
  /-- The scan of the queue has fuel for all processes. -/
  queue_le : q.length ≤ env.fuel
  /-- A file has at most 64 chunks of 512 bytes. -/
  chunks_lt : 64 < env.fuel

/-- `help` prints its text. -/
theorem does_cmdHelp (k₀ : KernelState P) : Does k₀ (cmdHelp env) ⟨⟩ helpText.flatten := by
  have htext : ∀ s ∈ helpText, IsText s := by
    unfold helpText
    decide
  have h : Does k₀ (cmdHelp env) ⟨⟩ (helpText.flatMap id) :=
    does_forM fun s hs => does_print env (htext s hs) [] k₀
  rwa [List.flatMap_id] at h

omit [DecidableEq P] in
/-- A loop over an array of which the first entries are stored. -/
theorem does_forM_entries {γ : Type} {entries : List γ} {f : γ → ShellM P PUnit}
    {piece : γ → List UInt8} (hf : ∀ e ∈ entries, Does k₀ (f e) ⟨⟩ (piece e)) :
    Does k₀ ((List.range entries.length).forM fun i => do let e ← liftM entries[i]?; f e) ⟨⟩
      (entries.flatMap piece) := by
  have hpieces : ∀ l : List γ, l.flatMap piece =
      (List.range l.length).flatMap fun i => (l[i]?.map piece).getD [] := by
    intro l
    induction l with
    | nil => rfl
    | cons e l ih =>
      rw [List.flatMap_cons, ih, List.length_cons, List.range_succ_eq_map, List.flatMap_cons,
        List.flatMap_map]
      rfl
  rw [hpieces]
  refine does_forM fun i hi => ?_
  rw [List.getElem?_eq_getElem (List.mem_range.mp hi)]
  exact (does_lift rfl k₀).get (hf _ (List.getElem_mem _))

/-- `uptime` prints the seconds. -/
theorem does_cmdUptime (hr : Ready env k₀ q c) :
    Does k₀ (cmdUptime env) ⟨⟩ (uptimeOutput (view k₀ q c)) := by
  have hlt : k₀.sched.tickCount / k₀.pit.ticksPerSecond < 2 ^ 32 :=
    (Nat.div_le_self _ _).trans_lt hr.ticks_lt
  exact (does_sysUptime env hr.toKernelInv).get ((does_lit env (by decide) k₀).bind
    ((does_printNum env hlt k₀).bind (does_lit env (by decide) k₀)))

/-- `meminfo` prints the numbers of frames. -/
theorem does_cmdMeminfo (k₀ : KernelState P) (q : List P) (c : P) :
    Does k₀ (cmdMeminfo env) ⟨⟩ (meminfoOutput (view k₀ q c)) := by
  have hkb : ∀ n, pagesKb n < 2 ^ 32 := fun n => Nat.mod_lt _ (by decide)
  have hline : ∀ {label : String} (pages : ℕ) {rest : ShellM P Unit} {out : List UInt8},
      IsText (ascii label) → Does k₀ rest ⟨⟩ out →
        Does k₀ (do
          print env (lit label)
          printNum env (pagesKb pages)
          print env (lit " KB\n")
          rest) ⟨⟩ (memLine label pages ++ out) := by
    intro label pages rest out hlabel hrest
    rw [memLine, List.append_assoc, List.append_assoc]
    exact (does_lit env hlabel k₀).bind ((does_printNum env (hkb pages) k₀).bind
      ((does_lit env (by decide) k₀).bind hrest))
  refine (does_sysMeminfo env k₀).get ?_
  dsimp only
  rw [if_neg (by decide)]
  refine (does_lift rfl k₀).get ((does_lit env (by decide) k₀).bind ?_)
  refine hline _ (by decide) (hline _ (by decide) ?_)
  exact (does_lit env (by decide) k₀).bind ((does_printNum env (hkb _) k₀).bind
    (does_lit env (by decide) k₀))

/-- `echo` prints its arguments. -/
theorem does_cmdEcho {args : List UInt8} (hargs : IsText args) (rest : List UInt8)
    (k₀ : KernelState P) : Does k₀ (cmdEcho env (args ++ 0 :: rest)) ⟨⟩ (args ++ ascii "\n") := by
  have hnl : Does k₀ (print env (lit "\n")) ⟨⟩ (ascii "\n") := does_lit env (by decide) k₀
  cases args with
  | nil => exact (does_lift rfl k₀).get hnl
  | cons b args =>
    refine (does_lift rfl k₀).get ?_
    have hb : b ≠ 0 := fun h => hargs.1 (h ▸ List.mem_cons_self)
    rw [if_pos hb]
    exact (does_print env hargs rest k₀).bind hnl

/-- `ls` prints a line for an entry. -/
theorem does_lsEntry (hi : KernelInv k₀ q c) {e : Dirent} (he : e ∈ dirents k₀) :
    Does k₀ (lsEntry env e) ⟨⟩ (lsLine (cstr e.name) e.size) := by
  obtain ⟨i, hslot, rfl⟩ := List.mem_map.mp he
  obtain ⟨hlt, hused⟩ := mem_usedSlots.mp (List.mem_of_mem_take hslot)
  have hname : IsText (cstr (k₀.files.files i).name) :=
    ⟨zero_notMem_cstr _, (hi.names.short i hlt hused).trans (by decide)⟩
  have hsize : (k₀.files.files i).size < 2 ^ 32 :=
    (hi.names.size_le i hlt).trans_lt (by decide)
  rw [RamfsFile.cstr_name_dirent, lsLine]
  exact (does_lit env (by decide) k₀).bind ((does_print env hname [] k₀).bind
    ((does_lit env (by decide) k₀).bind ((does_printNum env hsize k₀).bind
      (does_lit env (by decide) k₀))))

/-- The lines of `ls` are those of the files in view. -/
theorem flatMap_dirents (k : KernelState P) (q : List P) (c : P) :
    (dirents k).flatMap (fun e => lsLine (cstr e.name) e.size) =
      ((view k q c).dir.take 32).flatMap fun f => lsLine f.1 f.2.length := by
  simp only [dirents, view, ← List.map_take, List.flatMap_map, RamfsFile.cstr_name_dirent,
    RamfsFile.length_content]
  rfl

/-- `ls` prints the files. -/
theorem does_cmdLs (hr : Ready env k₀ q c) :
    Does k₀ (cmdLs env) ⟨⟩ (lsOutput (view k₀ q c)) := by
  refine (does_sysReaddir env hr.toKernelInv).get ?_
  dsimp only
  rw [if_neg (by omega), Int.toNat_natCast]
  have hloop := does_forM_entries (f := lsEntry env) fun e he => does_lsEntry env hr.toKernelInv he
  -- `ls` tests the number of entries, which is zero only if there is no file.
  have hcount : ((dirents k₀).length : ℤ) = 0 ↔ (view k₀ q c).dir = [] := by
    rw [dirents, view, List.map_eq_nil_iff, ← List.length_eq_zero_iff, List.length_map,
      List.length_take]
    omega
  rw [lsOutput, ← flatMap_dirents k₀ q c]
  by_cases hnone : (view k₀ q c).dir = []
  · rw [if_pos (hcount.mpr hnone), if_pos hnone]
    have hempty : dirents k₀ = [] := List.length_eq_zero_iff.mp (by exact_mod_cast hcount.mpr hnone)
    rw [hempty] at hloop ⊢
    exact hloop.get (does_lit env (by decide) k₀)
  · rw [if_neg (mt hcount.mp hnone), if_neg hnone]
    have h := hloop.bind (does_pure k₀ PUnit.unit)
    rwa [List.append_nil] at h

/-- `ps` prints a line for a process. -/
theorem does_psEntryLine {e : PsEntry} (hpid : e.pid < 2 ^ 32) (k₀ : KernelState P) :
    Does k₀ (psEntryLine env e) ⟨⟩ (psLine e) := by
  have hstate : IsText (stateName e.state) := by
    unfold stateName
    split <;> decide
  exact (does_lit env (by decide) k₀).bind ((does_printNum env hpid k₀).bind
    ((does_lit env (by decide) k₀).bind ((does_print env hstate [] k₀).bind
      (does_lit env (by decide) k₀))))

/-- `ps` prints the processes. -/
theorem does_cmdPs (hr : Ready env k₀ q c) :
    Does k₀ (cmdPs env) ⟨⟩ (psOutput (view k₀ q c)) := by
  refine (does_sysPs env hr.toKernelInv hr.queue_le).get ?_
  dsimp only
  rw [if_neg (by omega), Int.toNat_natCast, psOutput, view, ← List.map_take]
  refine (does_lit env (by decide) k₀).bind (does_forM_entries fun e he => ?_)
  obtain ⟨p, hp, rfl⟩ := List.mem_map.mp he
  have hmem : p ∈ q := (Ring.startAt_perm c q).mem_iff.mp (List.mem_of_mem_take hp)
  exact does_psEntryLine env (hr.pid_lt p hmem) k₀

/-- `memset` inside an array. -/
theorem memset_spec {size n : ℕ} (hn : n ≤ size) (buf : ℕ → UInt8) (b : UInt8) :
    ∃ line, memset size buf b n = some line ∧ bufText n line = List.replicate n b := by
  induction n with
  | zero => exact ⟨buf, rfl, rfl⟩
  | succ n ih =>
    obtain ⟨line, hset, htext⟩ := ih (by omega)
    refine ⟨Function.update line n b, ?_, ?_⟩
    · have hlast : setByte size line n b = some (Function.update line n b) := if_pos (by omega)
      rw [memset, List.range_succ, List.foldlM_append, ← memset, hset, Option.bind_eq_bind,
        Option.bind_some, List.foldlM_cons, hlast]
      rfl
    · rw [bufText_succ, htext, List.replicate_succ']

/-- `clear` prints spaces. -/
theorem does_cmdClear (k₀ : KernelState P) : Does k₀ (cmdClear env) ⟨⟩ clearOutput := by
  obtain ⟨line, hset, htext⟩ := memset_spec (show 80 ≤ 81 by decide) env.stack 0x20
  have hterm : setByte 81 line 80 0 = some (Function.update line 80 0) := if_pos (by decide)
  have hrow : bufText 80 (Function.update line 80 0) = List.replicate 80 0x20 := by
    rw [bufText_update, htext]
  have hrows : (List.range 25).flatMap (fun _ => List.replicate 80 (0x20 : UInt8)) =
      List.replicate 2000 0x20 :=
    List.eq_replicate_iff.mpr ⟨by simp, by simp⟩
  refine (does_lift hset k₀).get ((does_lift hterm k₀).get ?_)
  rw [hrow, clearOutput, ← hrows]
  exact (does_forM fun _ _ => does_write env (by simp) k₀).bind
    (does_lit env (by decide) k₀)

/-! ## `cat` -/

theorem toNat_toReg {fd : ℕ} (hfd : fd < maxFds) : (toReg fd).toNat = fd := by
  have hlt : fd < 2 ^ 32 := hfd.trans (by decide)
  rw [toReg, ofInt32_natCast hlt]
  exact UInt32.toNat_ofNat_of_lt hlt

/-- The files are found under the names that are listed. -/
theorem file_view (k : KernelState P) (q : List P) (c : P) (name : List UInt8) :
    (view k q c).file name =
      (slotOf k.files.files name).map fun i => (k.files.files i).content := by
  simp [View.file, view, usedSlots, slotOf, List.find?_map, List.find?_filter, Function.comp_def]

/-- The descriptor that `sys_open` takes. -/
def lowestFree (k : KernelState P) (c : P) : Option ℕ :=
  (List.range' 3 (maxFds - 3)).find? fun i => !(k.files.fdTable c i).inUse

/-- `sys_open` takes the lowest free descriptor for the slot of the name. -/
theorem sysOpen_eq (hi : KernelInv k q c) {path : List UInt8} (hpath : 0 ∈ path) :
    Lightstreak.sysOpen k.files (some c) path =
      match lowestFree k c, slotOf k.files.files (dropSlash (cstr path)) with
      | some fd, some i => some ((fd : ℤ), k.files.setFd c fd ⟨i, 0, true⟩)
      | _, _ => some (-1, k.files) := by
  rw [Lightstreak.sysOpen, hi.files.vfsOpen_eq hpath, ← lowestFree]
  cases lowestFree k c with
  | none => rfl
  | some fd =>
    cases slotOf k.files.files (dropSlash (cstr path)) with
    | none => rfl
    | some i =>
      have hneg : ¬idxOrNeg (some i) < 0 := Int.not_lt.mpr (Int.natCast_nonneg i)
      simp only [Option.bind_eq_bind, Option.bind_some, if_neg hneg]
      rfl

/-- `sys_open`, with the result of the kernel function. -/
theorem wp_sysOpen {path : List UInt8} (hcur : k.sched.current = some c) {r : ℤ}
    (hr : toInt32 (ofInt32 r) = r) {s : FileState P}
    (hopen : Lightstreak.sysOpen k.files (some c) path = some (r, s)) {Q : ℤ → KernelState P → Prop}
    (hQ : Q r { k with files := s }) : wp (sysOpen env path) Q k := by
  have hsys : syscallHandler env.fuel k ⟨4, env.addr, 0, 0, path, env.stack⟩ =
      some ((ofInt32 r, .nothing), { k with files := s }) := by
    simp only [syscallHandler, UInt32.reduceToNat, hcur, hopen]
    rfl
  refine wp_bind.mpr (wp_int80 env hsys (wp_pure.mpr ?_))
  rwa [hr]

/-- The state in which the shell has opened slot `i`, is at `off` and has printed `out` since. -/
def openedAt (k : KernelState P) (c : P) (fd i off : ℕ) (out : List UInt8) : KernelState P :=
  { k with files := { k.files.setFd c fd ⟨i, off, true⟩ with console := k.files.console ++ out } }

section Opened

variable {fd i off : ℕ}

theorem openedAt_fdTable (k : KernelState P) (c : P) (fd i off : ℕ) (out : List UInt8) :
    (openedAt k c fd i off out).files.fdTable c fd = ⟨i, off, true⟩ := by
  simp [openedAt, FileState.setFd]

/-- While a file is read the invariant holds. -/
theorem FileInv.openedAt (hi : FileInv k.files) (h3 : 3 ≤ fd) (hlt : i < ramfsMaxFiles)
    (hused : (k.files.files i).used) (hoff : off ≤ (k.files.files i).size) (out : List UInt8) :
    FileInv (openedAt k c fd i off out).files :=
  let h := hi.setFd h3 fun _ => ⟨i, rfl, hlt, hused, hoff⟩
  ⟨h.mounted, h.ramfs, h.stdio, h.opened⟩

theorem setFd_openedAt (k : KernelState P) (c : P) (fd i off off' : ℕ) (out : List UInt8) :
    (openedAt k c fd i off out).files.setFd c fd ⟨i, off', true⟩ =
      (openedAt k c fd i off' out).files := by
  simp [openedAt, FileState.setFd]

/-- `sys_read` of a chunk. -/
theorem wp_sysRead (hi : KernelInv k q c) (h3 : 3 ≤ fd) (hfd : fd < maxFds)
    (hlt : i < ramfsMaxFiles) (hused : (k.files.files i).used) (hoff : off ≤ (k.files.files i).size)
    {bytes : List UInt8} (hbytes : ((k.files.files i).content.drop off).take 512 = bytes)
    {Q : ℤ × List UInt8 → KernelState P → Prop}
    (hQ : Q ((bytes.length : ℤ), bytes) (openedAt k c fd i (off + bytes.length) out)) :
    wp (sysRead env fd 512) Q (openedAt k c fd i off out) := by
  have he := openedAt_fdTable k c fd i off out
  have huse : ((openedAt k c fd i off out).files.fdTable c fd).inUse := by rw [he]
  have hholds : ((openedAt k c fd i off out).files.fdTable c fd).Holds k.files.files i := by
    rw [he]
    exact ⟨rfl, hlt, hused, hoff⟩
  have hread : Lightstreak.sysRead (openedAt k c fd i off out).files (some c) fd 512 =
      some (((bytes.length : ℤ), bytes),
        (openedAt k c fd i (off + bytes.length) out).files) := by
    rw [sysRead_eq (FileInv.openedAt hi.files h3 hlt hused hoff out) h3 hfd huse hholds, he,
      ← setFd_openedAt k c fd i off (off + bytes.length), ← hbytes]
    rfl
  have hsys : syscallHandler env.fuel (openedAt k c fd i off out)
      ⟨3, toReg fd, env.addr, 512, [], env.stack⟩ = some ((ofInt32 (bytes.length : ℤ),
        .bytes bytes), openedAt k c fd i (off + bytes.length) out) := by
    have hcur : (openedAt k c fd i off out).sched.current = some c := hi.sched.current
    simp only [syscallHandler, UInt32.reduceToNat, hcur, toNat_toReg hfd, hread]
    rfl
  -- The length is small, so that the `int` the wrapper returns is the length.
  have hlen : bytes.length < 2 ^ 31 := by
    rw [← hbytes]
    exact (List.length_take_le _ _).trans_lt (by decide)
  refine wp_bind.mpr (wp_int80 env hsys (wp_pure.mpr ?_))
  rwa [toInt32_ofInt32 hlen]

/-- One turn reads a chunk and prints it. -/
theorem wp_catTurn (hi : KernelInv k q c) (h3 : 3 ≤ fd) (hfd : fd < maxFds)
    (hlt : i < ramfsMaxFiles) (hused : (k.files.files i).used) (hoff : off ≤ (k.files.files i).size)
    {bytes : List UInt8} (hbytes : ((k.files.files i).content.drop off).take 512 = bytes) :
    wp (catTurn env fd) (fun more k' => more = decide (0 < bytes.length) ∧
      k' = openedAt k c fd i (off + bytes.length) (out ++ bytes)) (openedAt k c fd i off out) := by
  refine wp_bind.mpr (wp_sysRead env hi h3 hfd hlt hused hoff hbytes ?_)
  dsimp only
  by_cases hpos : 0 < bytes.length
  · have hlen : bytes.length < 2 ^ 32 := by
      rw [← hbytes]
      exact (List.length_take_le _ _).trans_lt (by decide)
    rw [if_pos (Int.natCast_pos.mpr hpos), Int.toNat_natCast, List.take_length, decide_eq_true hpos]
    refine wp_bind.mpr (wp_sysWrite env hlen (wp_pure.mpr ⟨rfl, ?_⟩))
    simp [openedAt, printed, FileState.setFd, List.append_assoc]
  · obtain rfl : bytes = [] := List.length_eq_zero_iff.mp (by omega)
    exact wp_pure.mpr ⟨rfl, by rw [List.append_nil]⟩

/-- The loop prints the whole file. -/
theorem wp_catLoop (hi : KernelInv k q c) (h3 : 3 ≤ fd) (hfd : fd < maxFds)
    (hlt : i < ramfsMaxFiles) (hused : (k.files.files i).used) (hfuel : 64 < env.fuel) :
    wp (repeatWhile (catTurn env fd) env.fuel) (fun _ k' =>
      ∃ off, k' = openedAt k c fd i off (k.files.files i).content) (openedAt k c fd i 0 []) := by
  have hsize : (k.files.files i).size ≤ 512 * 64 := hi.names.size_le i hlt
  have hcontent := (k.files.files i).length_content
  -- What was printed is the file up to the position, and each turn but the last moves it by 512.
  refine wp_repeatWhile (fun n t => ∃ off ≤ (k.files.files i).size,
      (k.files.files i).size - off ≤ 512 * n ∧
        t = openedAt k c fd i off ((k.files.files i).content.take off)) ?_ hfuel
    ⟨0, Nat.zero_le _, by omega, by rw [List.take_zero]⟩
  rintro n _ ⟨off, hoff, hleft, rfl⟩
  generalize hbytes : ((k.files.files i).content.drop off).take 512 = bytes
  have hlen : bytes.length = min 512 ((k.files.files i).size - off) := by
    rw [← hbytes, List.length_take, List.length_drop, hcontent]
  refine (wp_catTurn env hi h3 hfd hlt hused hoff hbytes).mono ?_
  rintro more k' ⟨rfl, rfl⟩
  have htake : (k.files.files i).content.take off ++ bytes =
      (k.files.files i).content.take (off + bytes.length) := by
    rw [List.take_add, ← List.prefix_iff_eq_take.mp (hbytes ▸ List.take_prefix 512 _)]
  by_cases hpos : 0 < bytes.length
  · rw [if_pos (decide_eq_true hpos)]
    exact ⟨n - 1, by omega, off + bytes.length, by omega, by omega, by rw [htake]⟩
  · rw [if_neg (by rwa [decide_eq_true_iff])]
    refine ⟨off + bytes.length, ?_⟩
    rw [htake, List.take_of_length_le (by omega)]

/-- `sys_close` gives the descriptor back. -/
theorem wp_sysClose (hi : KernelInv k q c) (h3 : 3 ≤ fd) (hfd : fd < maxFds)
    (hfree : (k.files.fdTable c fd).inUse = false) :
    wp (sysClose env fd) (fun _ k' => Prints k k' out) (openedAt k c fd i off out) := by
  have hclose : Lightstreak.sysClose (openedAt k c fd i off out).files (some c) fd =
      (0, (openedAt k c fd i off out).files.setFd c fd ⟨-1, 0, false⟩) := by
    simp [Lightstreak.sysClose, openedAt_fdTable, h3, hfd]
  have hsys : syscallHandler env.fuel (openedAt k c fd i off out)
      ⟨5, toReg fd, 0, 0, [], env.stack⟩ = some ((ofInt32 0, .nothing),
        { k with files :=
            (openedAt k c fd i off out).files.setFd c fd ⟨-1, 0, false⟩ }) := by
    have hcur : (openedAt k c fd i off out).sched.current = some c := hi.sched.current
    simp only [syscallHandler, UInt32.reduceToNat, hcur, toNat_toReg hfd, hclose]
    rfl
  -- Closing brings the table back to what it was before the file was opened, except in the closed
  -- entry.
  have htable : ∀ p fd',
      ((openedAt k c fd i off out).files.setFd c fd ⟨-1, 0, false⟩).fdTable p fd' =
        if p = c ∧ fd' = fd then ⟨-1, 0, false⟩ else k.files.fdTable p fd' := by
    intro p fd'
    rw [fdTable_setFd]
    split
    next => rfl
    next hne => exact (fdTable_setFd k.files c p fd fd' _).trans (if_neg hne)
  refine wp_bind.mpr (wp_int80 env hsys (wp_pure.mpr ?_))
  refine ⟨⟨rfl, rfl, rfl, rfl, fun p fd' => ?_, fun p fd' huse => ?_, rfl, rfl⟩, rfl, rfl⟩
  · rw [htable]
    split
    next h => rw [h.1, h.2, hfree]
    next => rfl
  · rw [htable, if_neg]
    rintro ⟨rfl, rfl⟩
    rw [hfree] at huse
    cases huse

end Opened

/-- A name is either not found, or there are a descriptor and a slot for it. -/
theorem catOutput_cases (hi : KernelInv k q c) {name : List UInt8} (hne : name ≠ [])
    (hzero : 0 ∉ name) (rest : List UInt8) :
    (Lightstreak.sysOpen k.files (some c) (name ++ 0 :: rest) = some (-1, k.files) ∧
      catOutput (view k q c) name = ascii "cat: file not found: " ++ (name ++ ascii "\n")) ∨
    ∃ fd i, lowestFree k c = some fd ∧ i < ramfsMaxFiles ∧ (k.files.files i).used ∧
      Lightstreak.sysOpen k.files (some c) (name ++ 0 :: rest) =
        some ((fd : ℤ), k.files.setFd c fd ⟨i, 0, true⟩) ∧
      catOutput (view k q c) name = (k.files.files i).content := by
  have hopen := sysOpen_eq hi (show 0 ∈ name ++ 0 :: rest by simp)
  have hcan : (view k q c).canOpen = (lowestFree k c).isSome := rfl
  rw [cstr_append_zero hzero rest] at hopen
  rw [catOutput, if_neg hne, file_view, hcan]
  cases hfd : lowestFree k c with
  | none =>
    rw [hfd] at hopen
    exact .inl ⟨hopen, rfl⟩
  | some fd =>
    rw [hfd] at hopen
    cases hslot : slotOf k.files.files (dropSlash name) with
    | none =>
      rw [hslot] at hopen
      exact .inl ⟨hopen, rfl⟩
    | some i =>
      rw [hslot] at hopen
      obtain ⟨hlt, hused, -⟩ := slotOf_eq_some hslot
      exact .inr ⟨fd, i, rfl, hlt, hused, hopen, rfl⟩

/-- `cat` prints a file, or says that there is none. -/
theorem does_cmdCat (hr : Ready env k₀ q c) {name : List UInt8} (hname : IsText name)
    (rest : List UInt8) :
    Does k₀ (cmdCat env (name ++ 0 :: rest)) ⟨⟩ (catOutput (view k₀ q c) name) := by
  cases name with
  | nil => exact (does_lift rfl k₀).get (does_lit env (by decide) k₀)
  | cons b name =>
    refine (does_lift rfl k₀).get ?_
    have hb : b ≠ 0 := fun h => hname.1 (h ▸ List.mem_cons_self)
    rw [if_neg hb]
    intro k pre h
    have hi := h.kernelInv hr.toKernelInv
    have hcur := hi.sched.current
    refine wp_bind.mpr ?_
    -- The file is not found or there is no descriptor, or it is opened at offset zero.
    rcases catOutput_cases hi (List.cons_ne_nil b name) hname.1 rest with
      ⟨hopen, hout⟩ | ⟨fd, i, hfd, hlt, hused, hopen, hout⟩
    · refine wp_sysOpen env hcur (by decide) hopen ?_
      rw [if_pos (by decide), ← h.view q c, hout]
      exact ((does_lit env (by decide) k₀).bind ((does_print env hname rest k₀).bind
        (does_lit env (by decide) k₀))) k pre h
    · obtain ⟨h3, hmax⟩ := List.mem_range'_1.mp (List.mem_of_find?_eq_some hfd)
      have hlt32 : fd < maxFds := hmax
      have hfree : (k.files.fdTable c fd).inUse = false := by
        simpa using List.find?_some hfd
      refine wp_sysOpen env hcur (toInt32_ofInt32 (hlt32.trans (by decide))) hopen ?_
      rw [if_neg (by omega), ← h.view q c, hout]
      have hstart : { k with files := k.files.setFd c fd ⟨i, 0, true⟩ } =
          openedAt k c fd i 0 [] := by
        simp [openedAt, FileState.setFd]
      rw [hstart]
      -- The loop ends with some offset, which the close forgets.
      refine wp_bind.mpr ((wp_catLoop env hi h3 hlt32 hlt hused hr.chunks_lt).mono ?_)
      rintro _ _ ⟨off, rfl⟩
      refine wp_bind.mpr ((wp_sysClose env hi h3 hlt32 hfree).mono fun _ k' hclosed => ?_)
      exact wp_pure.mpr ⟨rfl, h.trans hclosed⟩

/-! ## Command lines -/

/-- Comparing the command line with a word. -/
theorem strcmp_lit {line : List UInt8} (hline : 0 ∉ line) (rest : List UInt8) {w : String}
    (hw : 0 ∉ ascii w) {t v : Command} {e : Option Command} (he : e = some v) :
    (do if (← strcmp (line ++ 0 :: rest) (lit w)) = 0 then return t else e) =
      some (if line = ascii w then t else v) := by
  rw [lit, strcmp_eq hline hw, Option.bind_eq_bind, Option.bind_some, he]
  simp only [byteDiff_eq_zero_iff hline hw]
  split <;> rfl

/-- Comparing the start of the command line with a word. -/
theorem strncmp_lit {line : List UInt8} (hline : 0 ∉ line) (rest : List UInt8) {w : String}
    (hw : 0 ∉ ascii w) {n : ℕ} (hn : (ascii w).length = n) {t v : Command} {e : Option Command}
    (he : e = some v) :
    (do if (← strncmp (line ++ 0 :: rest) (lit w) n) = 0 then return t else e) =
      some (if ascii w <+: line then t else v) := by
  have hcut : 0 ∉ line.take n := fun h => hline (List.mem_of_mem_take h)
  have hprefix : line.take n = ascii w ↔ ascii w <+: line := by
    rw [List.prefix_iff_eq_take, hn, eq_comm]
  rw [lit, strncmp_eq hline hw, Option.bind_eq_bind, Option.bind_some,
    List.take_of_length_le hn.le, he]
  simp only [byteDiff_eq_zero_iff hcut hw, hprefix]
  split <;> rfl

/-- The command of a line is that of its first word. -/
theorem parseCommand_eq {line : List UInt8} (hline : 0 ∉ line) (rest : List UInt8) :
    parseCommand (line ++ 0 :: rest) = some (commandOf line) := by
  unfold parseCommand commandOf
  refine strcmp_lit hline rest (by decide) ?_
  refine strcmp_lit hline rest (by decide) ?_
  refine strncmp_lit hline rest (by decide) (by decide) ?_
  refine strncmp_lit hline rest (by decide) (by decide) ?_
  iterate 6 refine strcmp_lit hline rest (by decide) ?_
  rfl

/-- The lines of the commands that look at them. -/
theorem commandOf_spec (line : List UInt8) :
    (commandOf line = .cat → ascii "cat " <+: line) ∧
      (commandOf line = .echo → ascii "echo " <+: line) ∧
      (commandOf line = .exit → line = ascii "exit") := by
  -- One test of the chain that leads to another command.
  have skip : ∀ {p : Prop} [Decidable p] {t e v : Command}, (if p then t else e) = v → t ≠ v →
      e = v := by
    intro p _ t e v h hne
    by_cases hp : p
    · rw [if_pos hp] at h
      exact absurd h hne
    · rwa [if_neg hp] at h
  unfold commandOf
  refine ⟨fun h => ?_, fun h => ?_, fun h => ?_⟩
  · by_contra hcat
    rw [if_neg hcat] at h
    iterate 9 replace h := skip h (by decide)
    cases h
  · by_contra hecho
    rw [if_neg hecho] at h
    iterate 9 replace h := skip h (by decide)
    cases h
  · by_contra hexit
    rw [if_neg hexit] at h
    iterate 9 replace h := skip h (by decide)
    cases h

/-- The bytes behind a word that the line starts with. -/
theorem drop_line {line w : List UInt8} {n : ℕ} (hw : w <+: line) (hn : w.length = n)
    (rest : List UInt8) : (line ++ 0 :: rest).drop n = line.drop n ++ 0 :: rest :=
  List.drop_append_of_le_length (hn ▸ hw.length_le)

/-- Every command but `exit` prints its output, and nothing else happens. -/
theorem does_execCommand (hr : Ready env k₀ q c) {line : List UInt8} (hline : IsText line)
    (rest : List UInt8) (hexit : commandOf line ≠ .exit) :
    Does k₀ (execCommand env (line ++ 0 :: rest) (commandOf line)) ⟨⟩
      (output (view k₀ q c) line) := by
  -- The arguments of `cat` and `echo` are a part of the line.
  have htext : ∀ n, IsText (line.drop n) := fun n =>
    ⟨fun h => hline.1 (List.mem_of_mem_drop h), Nat.lt_of_le_of_lt (by simp) hline.2⟩
  obtain ⟨hcat, hecho, -⟩ := commandOf_spec line
  unfold output
  cases hcmd : commandOf line with
  | help => exact does_cmdHelp env k₀
  | ls => exact does_cmdLs env hr
  | cat =>
    rw [execCommand, drop_line (hcat hcmd) (by decide)]
    exact does_cmdCat env hr (htext 4) rest
  | echo =>
    rw [execCommand, drop_line (hecho hcmd) (by decide)]
    exact does_cmdEcho env (htext 5) rest k₀
  | echoNothing => exact does_cmdEcho env (by decide) [] k₀
  | clear => exact does_cmdClear env k₀
  | uptime => exact does_cmdUptime env hr
  | meminfo => exact does_cmdMeminfo env k₀ q c
  | ps => exact does_cmdPs env hr
  | exit => exact absurd hcmd hexit
  | unknown =>
    exact (does_lit env (by decide) k₀).bind ((does_print env hline rest k₀).bind
      (does_lit env (by decide) k₀))

/-- Every command but `exit` prints what it should. -/
theorem does_runCommand (hr : Ready env k₀ q c) {line : List UInt8} (hline : IsText line)
    (rest : List UInt8) (hexit : commandOf line ≠ .exit) :
    Does k₀ (runCommand env (line ++ 0 :: rest)) true (output (view k₀ q c) line) := by
  refine (does_lift (parseCommand_eq hline.1 rest) k₀).get ?_
  rw [← List.append_nil (output _ _), ← decide_eq_true hexit]
  exact (does_execCommand env hr hline rest hexit).bind (does_pure k₀ _)

/-- `exit` takes leave, and the scheduler goes on with another process if there is one. -/
theorem wp_runCommand_exit (hi : KernelInv k q c) (hlive : k.halted = false) {line : List UInt8}
    (hline : IsText line) (rest : List UInt8) (hexit : commandOf line = .exit) :
    wp (runCommand env (line ++ 0 :: rest)) (fun more k' => more = false ∧
      Wrote k k' (output (view k q c) line) ∧ ∃ c', KernelInv k' q c') k := by
  refine wp_bind.mpr (wp_lift (parseCommand_eq hline.1 rest) ?_)
  rw [output, hexit]
  refine wp_bind.mpr (wp_bind.mpr ((does_lit env (by decide) k k [] (.refl k)).mono ?_))
  rintro _ k₁ ⟨-, hprints⟩
  obtain ⟨out, k', c', hsys, hi', -⟩ := (hprints.kernelInv hi).exit env.fuel
    (a := ⟨1, toReg 0, 0, 0, [], env.stack⟩) (hprints.halted.trans hlive) rfl
  obtain ⟨⟨s, halted⟩, -, heq⟩ := Option.bind_eq_some_iff.mp hsys
  obtain ⟨-, rfl⟩ := Prod.mk.inj (Option.some.inj heq)
  have hwrote := hprints.toWrote.trans (wrote_nil k₁ s halted)
  rw [List.append_nil] at hwrote
  exact wp_bind.mpr (wp_int80 env hsys (wp_pure.mpr (wp_pure.mpr ⟨rfl, hwrote, c', hi'⟩)))

end Lightstreak.User
