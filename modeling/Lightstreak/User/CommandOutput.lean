import Lightstreak.Syscall.KernelRuns
import Lightstreak.User.Commands

/-!
# What the commands print

A command of the shell only writes to the console. `Does k m v out` says so of a program `m` of the
shell: from every state that differs from `k` in what was printed since, it returns `v`, prints
`out` and changes nothing else. Programs are put together by the rules for `Does`.

`output` is what a command line is to be answered with, in terms of what the kernel shows of itself
(`View`); it names no system call.
-/

namespace Lightstreak.User

open SysLib

variable {P : Type} {k k₀ k₁ k₂ : KernelState P} {out out' pre : List UInt8} {α β : Type}

/-! ## Programs that only print -/

/-- From the one state to the other, `out` was printed, and otherwise only the scheduler has moved
on. A closed descriptor may hold other values, as it does after it was used. -/
structure Wrote (k k' : KernelState P) (out : List UInt8) : Prop where
  /-- The console has the new output at its end. -/
  console : k'.files.console = k.files.console ++ out
  /-- The files are as before. -/
  files : k'.files.files = k.files.files
  /-- The same file system is mounted. -/
  mounted : k'.files.mountedFs = k.files.mountedFs
  /-- No key was consumed. -/
  keyboard : k'.files.keyboard = k.files.keyboard
  /-- The same descriptors are open. -/
  inUse : ∀ p fd, (k'.files.fdTable p fd).inUse = (k.files.fdTable p fd).inUse
  /-- Open descriptors are as before. -/
  opened : ∀ p fd, (k.files.fdTable p fd).inUse → k'.files.fdTable p fd = k.files.fdTable p fd
  /-- The frame allocator is as before. -/
  pmm : k'.pmm = k.pmm
  /-- The timer is as before. -/
  pit : k'.pit = k.pit

/-- From the one state to the other, `out` was printed and nothing else has changed. -/
structure Prints (k k' : KernelState P) (out : List UInt8) : Prop extends Wrote k k' out where
  /-- The scheduler is as before. -/
  sched : k'.sched = k.sched
  /-- The machine has not halted in between. -/
  halted : k'.halted = k.halted

theorem Wrote.trans (h : Wrote k k₁ out) (h' : Wrote k₁ k₂ out') : Wrote k k₂ (out ++ out') where
  console := by rw [h'.console, h.console, List.append_assoc]
  files := h'.files.trans h.files
  mounted := h'.mounted.trans h.mounted
  keyboard := h'.keyboard.trans h.keyboard
  inUse p fd := (h'.inUse p fd).trans (h.inUse p fd)
  opened p fd huse := (h'.opened p fd ((h.inUse p fd).trans huse)).trans (h.opened p fd huse)
  pmm := h'.pmm.trans h.pmm
  pit := h'.pit.trans h.pit

theorem Prints.trans (h : Prints k k₁ out) (h' : Prints k₁ k₂ out') :
    Prints k k₂ (out ++ out') where
  toWrote := h.toWrote.trans h'.toWrote
  sched := h'.sched.trans h.sched
  halted := h'.halted.trans h.halted

theorem wrote_nil (k : KernelState P) (s : SchedState P) (halted : Bool) :
    Wrote k { k with sched := s, halted := halted } [] :=
  ⟨(List.append_nil _).symm, rfl, rfl, rfl, fun _ _ => rfl, fun _ _ _ => rfl, rfl, rfl⟩

theorem Prints.refl (k : KernelState P) : Prints k k [] := ⟨wrote_nil k k.sched k.halted, rfl, rfl⟩

/-- Printing. -/
theorem prints_console (k : KernelState P) (out : List UInt8) : Prints k (printed k out) out :=
  ⟨⟨rfl, rfl, rfl, rfl, fun _ _ => rfl, fun _ _ _ => rfl, rfl, rfl⟩, rfl, rfl⟩

/-- From every state in which only more was printed than in `k₀`, the program returns `v` and
prints `out`. -/
def Does (k₀ : KernelState P) (m : ShellM P α) (v : α) (out : List UInt8) : Prop :=
  ∀ k pre, Prints k₀ k pre → wp m (fun a k' => a = v ∧ Prints k₀ k' (pre ++ out)) k

theorem does_pure (k₀ : KernelState P) (v : α) : Does k₀ (pure v) v [] := fun k pre h =>
  wp_pure.mpr ⟨rfl, by rwa [List.append_nil]⟩

/-- A sequence prints one output after the other. -/
theorem Does.bind {m : ShellM P α} {f : α → ShellM P β} {v : α} {w : β} (hm : Does k₀ m v out)
    (hf : Does k₀ (f v) w out') : Does k₀ (m >>= f) w (out ++ out') := by
  intro k pre h
  refine wp_bind.mpr ((hm k pre h).mono ?_)
  rintro a k' ⟨rfl, h'⟩
  rw [← List.append_assoc]
  exact hf k' _ h'

/-- A program that prints nothing, and one that uses what it returns. -/
theorem Does.get {m : ShellM P α} {f : α → ShellM P β} {v : α} {w : β} (hm : Does k₀ m v [])
    (hf : Does k₀ (f v) w out) : Does k₀ (m >>= f) w out := hm.bind hf

/-- A computation that succeeds is done without output. -/
theorem does_lift {o : Option α} {v : α} (ho : o = some v) (k₀ : KernelState P) :
    Does k₀ (liftM o) v [] := fun k pre h => wp_lift ho ⟨rfl, by rwa [List.append_nil]⟩

/-- A loop over a list prints one piece for each element. -/
theorem does_forM {γ : Type*} {f : γ → ShellM P PUnit} {l : List γ} {piece : γ → List UInt8}
    (hf : ∀ a ∈ l, Does k₀ (f a) ⟨⟩ (piece a)) : Does k₀ (l.forM f) ⟨⟩ (l.flatMap piece) := by
  intro k pre h
  refine (wp_forM (fun done t => Prints k₀ t (pre ++ done.flatMap piece)) (by simpa using h)
    fun done a t hpre ht => ?_).mono fun _ t ht => ⟨rfl, ht⟩
  have ha : a ∈ l := hpre.subset (by simp)
  refine (hf a ha t _ ht).mono fun _ t' ht' => ?_
  simpa using ht'.2

/-! ## Printing -/

section Print

variable [DecidableEq P] (env : Env)

/-- A system call that returns and prints. -/
theorem wp_int80 {a : SyscallArgs} {r : ℕ × UserData} {Q : ℕ × UserData → KernelState P → Prop}
    (hsys : syscallHandler env.fuel k a = some (r, k₁)) (hQ : Q r k₁) : wp (int80 env a) Q k :=
  ⟨r, k₁, hsys, hQ⟩

/-- `sys_write` to the screen. -/
theorem wp_sysWrite {buf : List UInt8} (hlen : buf.length < 2 ^ 32) {Q : ℤ → KernelState P → Prop}
    (hQ : Q (toInt32 (ofInt32 (toInt32 buf.length))) (printed k buf)) :
    wp (sysWrite env 1 buf) Q k :=
  ⟨_, _, sysWrite_console env k hlen, hQ⟩

/-- A write to standard output prints its bytes. -/
theorem does_sysWrite {buf : List UInt8} (hlen : buf.length < 2 ^ 32) (k₀ : KernelState P) :
    Does k₀ (sysWrite env 1 buf) (toInt32 (ofInt32 (toInt32 buf.length))) buf := fun k _ h =>
  wp_sysWrite env hlen ⟨rfl, h.trans (prints_console k buf)⟩

/-- A text without terminator, short enough for `sys_write`. -/
def IsText (s : List UInt8) : Prop := 0 ∉ s ∧ s.length < 2 ^ 32

instance (s : List UInt8) : Decidable (IsText s) := inferInstanceAs (Decidable (_ ∧ _))

/-- The value that `sys_write` returns is not used. -/
theorem does_write {buf : List UInt8} (hlen : buf.length < 2 ^ 32) (k₀ : KernelState P) :
    Does k₀ (do let _ ← sysWrite env 1 buf) ⟨⟩ buf := by
  have h : Does k₀ (do let _ ← sysWrite env 1 buf) PUnit.unit (buf ++ []) :=
    (does_sysWrite env hlen k₀).bind (does_pure k₀ _)
  rwa [List.append_nil] at h

/-- Both ways to print compute what they write first. -/
theorem does_put {o : Option (List UInt8)} {s : List UInt8} (ho : o = some s)
    (hlen : s.length < 2 ^ 32) (k₀ : KernelState P) :
    Does k₀ (do let out ← liftM o; let _ ← sysWrite env 1 out) ⟨⟩ s :=
  (does_lift ho k₀).get (does_write env hlen k₀)

/-- `print` prints a string. -/
theorem does_print {s : List UInt8} (hs : IsText s) (rest : List UInt8) (k₀ : KernelState P) :
    Does k₀ (print env (s ++ 0 :: rest)) ⟨⟩ s := does_put env (print_eq hs.1 rest) hs.2 k₀

/-- `print` prints a literal. -/
theorem does_lit {s : String} (hs : IsText (ascii s)) (k₀ : KernelState P) :
    Does k₀ (print env (lit s)) ⟨⟩ (ascii s) := does_print env hs [] k₀

/-- `print_num` prints a number in decimal digits. -/
theorem does_printNum {n : ℕ} (hn : n < 2 ^ 32) (k₀ : KernelState P) :
    Does k₀ (printNum env n) ⟨⟩ (numeral 10 n) :=
  does_put env (printNum_eq hn) ((length_numeral_ten_le hn).trans_lt (by decide)) k₀

end Print

/-! ## What the commands show -/

/-- What the shell can see of the kernel. -/
structure View where
  /-- The names and the contents of the files, in the order of the slots. -/
  dir : List (List UInt8 × List UInt8)
  /-- The shell has a free descriptor. -/
  canOpen : Bool
  /-- The counter of ticks. -/
  ticks : ℕ
  /-- The ticks in a second. -/
  hz : ℕ
  /-- The numbers of frames. -/
  meminfo : Meminfo
  /-- The processes of the ring, from the shell on. -/
  procs : List PsEntry

/-- The contents of the first file of that name. -/
def View.file (v : View) (name : List UInt8) : Option (List UInt8) :=
  (v.dir.find? fun f => f.1 = name).map Prod.snd

/-- What `ls` prints for a file. -/
def lsLine (name : List UInt8) (size : ℕ) : List UInt8 :=
  ascii "  " ++ (name ++ (ascii "  (" ++ (numeral 10 size ++ ascii " bytes)\n")))

/-- What `ps` prints for a process. -/
def psLine (e : PsEntry) : List UInt8 :=
  ascii "  " ++ (numeral 10 e.pid ++ (ascii "   " ++ (stateName e.state ++ ascii "\n")))

/-- What `meminfo` prints for a number of pages. -/
def memLine (label : String) (pages : ℕ) : List UInt8 :=
  ascii label ++ (numeral 10 (pagesKb pages) ++ ascii " KB\n")

/-- The answer of `ls`: at most 32 files are listed. -/
def lsOutput (v : View) : List UInt8 :=
  if v.dir = [] then ascii "  (no files)\n" else
    (v.dir.take 32).flatMap fun f => lsLine f.1 f.2.length

/-- The answer of `cat` with that name. -/
def catOutput (v : View) (name : List UInt8) : List UInt8 :=
  if name = [] then ascii "cat: usage: cat <filename>\n"
  else
    match v.canOpen, v.file (dropSlash name) with
    | true, some content => content
    | _, _ => ascii "cat: file not found: " ++ (name ++ ascii "\n")

/-- The answer of `clear`: a screenful of spaces. -/
def clearOutput : List UInt8 := List.replicate 2000 0x20 ++ ascii "\r"

/-- The answer of `uptime`. -/
def uptimeOutput (v : View) : List UInt8 :=
  ascii "Uptime: " ++ (numeral 10 (v.ticks / v.hz) ++ ascii " seconds\n")

/-- The answer of `meminfo`. -/
def meminfoOutput (v : View) : List UInt8 :=
  ascii "Physical Memory:\n" ++ (memLine "  Total: " v.meminfo.totalPages ++
    (memLine "  Free:  " v.meminfo.freePages ++ memLine "  Used:  " v.meminfo.usedPages))

/-- The answer of `ps`: at most 32 processes are listed. -/
def psOutput (v : View) : List UInt8 :=
  ascii "PID  STATE\n" ++ (v.procs.take 32).flatMap psLine

/-- The answer to a line that is no command. -/
def unknownOutput (line : List UInt8) : List UInt8 :=
  ascii "Unknown command: " ++ (line ++ ascii "\nType 'help' for a list of commands.\n")

/-- The command that a line asks for. -/
def commandOf (line : List UInt8) : Command :=
  if line = ascii "help" then .help
  else if line = ascii "ls" then .ls
  else if ascii "cat " <+: line then .cat
  else if ascii "echo " <+: line then .echo
  else if line = ascii "echo" then .echoNothing
  else if line = ascii "clear" then .clear
  else if line = ascii "uptime" then .uptime
  else if line = ascii "meminfo" then .meminfo
  else if line = ascii "ps" then .ps
  else if line = ascii "exit" then .exit
  else .unknown

/-- The answer to a command line. -/
def output (v : View) (line : List UInt8) : List UInt8 :=
  match commandOf line with
  | .help => helpText.flatten
  | .ls => lsOutput v
  | .cat => catOutput v (line.drop 4)
  | .echo => line.drop 5 ++ ascii "\n"
  | .echoNothing => ascii "\n"
  | .clear => clearOutput
  | .uptime => uptimeOutput v
  | .meminfo => meminfoOutput v
  | .ps => psOutput v
  | .exit => ascii "Goodbye!\n"
  | .unknown => unknownOutput line

/-- What the kernel with the ring `q` shows to the current process `c`. -/
def view [DecidableEq P] (k : KernelState P) (q : List P) (c : P) : View where
  dir := (usedSlots k.files.files).map fun i =>
    (cstr (k.files.files i).name, (k.files.files i).content)
  canOpen := ((List.range' 3 (maxFds - 3)).find? fun i => !(k.files.fdTable c i).inUse).isSome
  ticks := k.sched.tickCount
  hz := k.pit.ticksPerSecond
  meminfo := ⟨pmmGetTotalPages k.pmm, pmmGetFreePages k.pmm, pmmGetUsedPages k.pmm⟩
  procs := (Ring.startAt c q).map (psEntry k.sched)

end Lightstreak.User
