import Lightstreak.Lib.Wp
import Lightstreak.Syscall.Dispatch
import Lightstreak.User.StringLib

/-!
# System calls of programs (`userspace/lib/syscall_wrappers.h`)

A program reaches the kernel through the wrappers only, each of which fills the registers and
executes `int 0x80`. It is modelled as a program over the state of the kernel, `ShellM`, that fails
when it reads outside an array, when a loop takes more than the given number of turns, or when the
kernel fails. `print` and `print_num` of the shell are here too.

* `sysWrite_console`, `print_console`: what is written to descriptor 1 goes to the console;
* `sysRead_typed`: a read from descriptor 0 waits for a character and returns it.
-/

namespace Lightstreak.User

open SysLib

/-! ## System calls -/

/-- What a program runs with. -/
structure Env where
  /-- The turns that a loop of the program or of the kernel may take. -/
  fuel : ℕ
  /-- The address of a local variable, which is not `NULL`. -/
  addr : UInt32
  /-- The buffer is not at `NULL`. -/
  addr_ne : addr ≠ 0
  /-- What a local array holds before it is written. -/
  stack : ℕ → UInt8

/-- Programs over the state of the kernel. -/
abbrev ShellM (P : Type) := StateT (KernelState P) Option

variable {P : Type} [DecidableEq P] (env : Env)

/-- `int $0x80` with these registers: `eax` afterwards, and what was stored for the program. -/
def int80 (a : SyscallArgs) : ShellM P (ℕ × UserData) := fun k => syscallHandler env.fuel k a

/-- An `int` in a register -/
def toReg (n : ℤ) : UInt32 := UInt32.ofNat (ofInt32 n)

/-- `sys_write(fd, buf, len)` of the `len` bytes in the list. Registers that a wrapper does not set
are zero here and in the following. -/
def sysWrite (fd : ℤ) (buf : List UInt8) : ShellM P ℤ := do
  let (eax, _) ← int80 env
    ⟨2, toReg fd, env.addr, UInt32.ofNat buf.length, [], fun i => buf.getD i 0⟩
  return toInt32 eax

/-- `sys_read(fd, buf, len)`, with the bytes that are stored in `buf`. -/
def sysRead (fd : ℤ) (len : UInt32) : ShellM P (ℤ × List UInt8) := do
  let (eax, data) ← int80 env ⟨3, toReg fd, env.addr, len, [], env.stack⟩
  match data with
  | .bytes buf => return (toInt32 eax, buf)
  | _ => return (toInt32 eax, [])

/-- `sys_open(path)` -/
def sysOpen (path : List UInt8) : ShellM P ℤ := do
  let (eax, _) ← int80 env ⟨4, env.addr, 0, 0, path, env.stack⟩
  return toInt32 eax

/-- `sys_close(fd)` -/
def sysClose (fd : ℤ) : ShellM P ℤ := do
  let (eax, _) ← int80 env ⟨5, toReg fd, 0, 0, [], env.stack⟩
  return toInt32 eax

/-- `sys_readdir(entries, max)`, with the entries that are stored. -/
def sysReaddir (max : ℤ) : ShellM P (ℤ × List Dirent) := do
  let (eax, data) ← int80 env ⟨7, env.addr, toReg max, 0, [], env.stack⟩
  match data with
  | .dirents entries => return (toInt32 eax, entries)
  | _ => return (toInt32 eax, [])

/-- `sys_uptime()` -/
def sysUptime : ShellM P ℕ := do
  let (eax, _) ← int80 env ⟨8, 0, 0, 0, [], env.stack⟩
  return eax

/-- `sys_meminfo(info)`, with the record if it is stored. -/
def sysMeminfo : ShellM P (ℤ × Option Meminfo) := do
  let (eax, data) ← int80 env ⟨9, env.addr, 0, 0, [], env.stack⟩
  match data with
  | .meminfo info => return (toInt32 eax, some info)
  | _ => return (toInt32 eax, none)

/-- `sys_ps(entries, max)`, with the entries that are stored. -/
def sysPs (max : ℤ) : ShellM P (ℤ × List PsEntry) := do
  let (eax, data) ← int80 env ⟨10, env.addr, toReg max, 0, [], env.stack⟩
  match data with
  | .psEntries entries => return (toInt32 eax, entries)
  | _ => return (toInt32 eax, [])

/-- `sys_exit(code)` -/
def sysExit (code : ℤ) : ShellM P Unit := do
  let _ ← int80 env ⟨1, toReg code, 0, 0, [], env.stack⟩

/-! ## Printing -/

/-- `print(s)` -/
def print (s : List UInt8) : ShellM P Unit := do
  let out ← Lightstreak.print s
  let _ ← sysWrite env 1 out

/-- `print_num(n)` -/
def printNum (n : ℕ) : ShellM P Unit := do
  let out ← Lightstreak.printNum env.stack n
  let _ ← sysWrite env 1 out

/-- A string literal, with its terminator. -/
def lit (s : String) : List UInt8 := ascii s ++ [0]

/-! ## The console and the keyboard -/

/-- The character `c` is typed: `keyboard_getchar` returns it next. -/
def typed (k : KernelState P) (c : UInt8) : KernelState P :=
  { k with files := { k.files with
      keyboard := fun i => if i = 0 then c else k.files.keyboard (i - 1) } }

/-- The state after `out` was written to the console. -/
def printed (k : KernelState P) (out : List UInt8) : KernelState P :=
  { k with files := { k.files with console := k.files.console ++ out } }

omit [DecidableEq P] in
theorem printed_nil (k : KernelState P) : printed k [] = k := by rw [printed, List.append_nil]

/-- `sys_write` to the screen. The value that it returns is the length as an `int`. -/
theorem sysWrite_console (k : KernelState P) {buf : List UInt8} (hlen : buf.length < 2 ^ 32) :
    sysWrite env 1 buf k =
      some (toInt32 (ofInt32 (toInt32 buf.length)), printed k buf) := by
  have hsize : (UInt32.ofNat buf.length).toNat = buf.length := UInt32.toNat_ofNat_of_lt hlen
  have hbytes : (List.range buf.length).map (fun i => buf.getD i 0) = buf := by
    apply List.ext_getElem
    · simp
    · intro i h₁ h₂
      simp [h₂]
  have hsys : syscallHandler env.fuel k
      ⟨2, toReg 1, env.addr, UInt32.ofNat buf.length, [], fun i => buf.getD i 0⟩ =
        some ((ofInt32 (toInt32 buf.length), .nothing), printed k buf) := by
    have hfd : (toReg 1).toNat = 1 ∨ (toReg 1).toNat = 2 := .inl (by decide)
    simp only [syscallHandler, UInt32.reduceToNat, Lightstreak.sysWrite, if_pos hfd, hsize, hbytes]
    rfl
  rw [sysWrite, bind_of_eq_some (show int80 env _ k = _ from hsys)]
  rfl

/-- Printing a terminated string. -/
theorem print_console (k : KernelState P) {s rest : List UInt8} (hs : 0 ∉ s)
    (hlen : s.length < 2 ^ 32) : print env (s ++ 0 :: rest) k = some ((), printed k s) := by
  have hbytes : (liftM (some s) : ShellM P (List UInt8)) k = some (s, k) := rfl
  rw [print, print_eq hs, bind_of_eq_some hbytes, bind_of_eq_some (sysWrite_console env k hlen)]
  rfl

/-- A read from the keyboard always returns one character, and the stream goes on after it. -/
theorem sysRead_typed (k : KernelState P) (c : UInt8) :
    sysRead env 0 1 (typed k c) = some ((1, [c]), k) := by
  have hkeyboard : (fun i => (typed k c).files.keyboard (1 + i)) = k.files.keyboard := by
    funext i
    simp [typed]
  have hfd : (toReg 0).toNat = 0 := by decide
  have hsys : syscallHandler env.fuel (typed k c) ⟨3, toReg 0, env.addr, 1, [], env.stack⟩ =
      some ((1, .bytes [c]), k) := by
    simp only [syscallHandler, UInt32.reduceToNat, Lightstreak.sysRead, if_pos hfd, hkeyboard]
    rfl
  rw [sysRead, bind_of_eq_some (show int80 env _ _ = _ from hsys)]
  rfl

end Lightstreak.User
