import Lightstreak.User.Shell

/-!
# The commands of the shell (`userspace/shell/shell.c`)

Each command is a program over the system calls (`Lightstreak.User.Syscalls`). `parseCommand` is the
chain of comparisons in `_start`, and `runCommand` what it leads to.
-/

namespace Lightstreak.User

open SysLib

variable {P : Type} [DecidableEq P] (env : Env)

/-! ## The commands -/

/-- The dash in the help text, as the compiler encodes it. -/
def emDash : List UInt8 := [0xE2, 0x80, 0x94]

/-- The lines of the help text. -/
def helpText : List (List UInt8) :=
  [ascii "AnubhavOS Shell Commands:\n",
    ascii "  help     " ++ emDash ++ ascii " show this help\n",
    ascii "  ls       " ++ emDash ++ ascii " list files in ramfs\n",
    ascii "  cat FILE " ++ emDash ++ ascii " display file contents\n",
    ascii "  echo ... " ++ emDash ++ ascii " print arguments\n",
    ascii "  clear    " ++ emDash ++ ascii " clear the screen\n",
    ascii "  uptime   " ++ emDash ++ ascii " seconds since boot\n",
    ascii "  meminfo  " ++ emDash ++ ascii " physical memory usage\n",
    ascii "  ps       " ++ emDash ++ ascii " list running processes\n"]

/-- `cmd_help()` -/
def cmdHelp : ShellM P Unit := helpText.forM fun s => print env (s ++ [0])

/-- What `cmd_ls` prints for an entry. -/
def lsEntry (e : Dirent) : ShellM P Unit := do
  print env (lit "  ")
  print env e.name
  print env (lit "  (")
  printNum env e.size
  print env (lit " bytes)\n")

/-- `cmd_ls()` -/
def cmdLs : ShellM P Unit := do
  let (count, entries) ← sysReaddir env 32
  if count < 0 then
    print env (lit "ls: readdir failed\n")
  else
    (List.range count.toNat).forM fun i => do
      let e ← entries[i]?
      lsEntry env e
    if count = 0 then
      print env (lit "  (no files)\n")

/-- One turn of the loop in `cmd_cat`, and whether there is another. -/
def catTurn (fd : ℤ) : ShellM P Bool := do
  let (n, buf) ← sysRead env fd 512
  if 0 < n then
    let _ ← sysWrite env 1 (buf.take n.toNat)
    return true
  return false

/-- `cmd_cat(filename)` -/
def cmdCat (filename : List UInt8) : ShellM P Unit := do
  let c ← filename.head?
  if c = 0 then
    print env (lit "cat: usage: cat <filename>\n")
  else
    let fd ← sysOpen env filename
    if fd < 0 then
      print env (lit "cat: file not found: ")
      print env filename
      print env (lit "\n")
    else
      -- Chunks are read and written until a read returns nothing.
      repeatWhile (catTurn env fd) env.fuel
      let _ ← sysClose env fd

/-- `cmd_echo(args)` -/
def cmdEcho (args : List UInt8) : ShellM P Unit := do
  let c ← args.head?
  if c ≠ 0 then
    print env args
  print env (lit "\n")

/-- `memset(buf, c, n)` of `userspace/lib/string.c`, on an array of the given size. -/
def memset (size : ℕ) (buf : ℕ → UInt8) (c : UInt8) (n : ℕ) : Option (ℕ → UInt8) :=
  (List.range n).foldlM (fun buf i => setByte size buf i c) buf

/-- `cmd_clear()` -/
def cmdClear : ShellM P Unit := do
  let line ← memset 81 env.stack 0x20 80
  let line ← setByte 81 line 80 0
  (List.range 25).forM fun _ => do
    let _ ← sysWrite env 1 (bufText 80 line)
  print env (lit "\r")

/-- `cmd_uptime()` -/
def cmdUptime : ShellM P Unit := do
  let secs ← sysUptime env
  print env (lit "Uptime: ")
  printNum env secs
  print env (lit " seconds\n")

/-- A number of pages in KB, a 32-bit product. -/
def pagesKb (pages : ℕ) : ℕ := pages * 4 % 2 ^ 32

/-- `cmd_meminfo()` -/
def cmdMeminfo : ShellM P Unit := do
  let (r, info) ← sysMeminfo env
  if r < 0 then
    print env (lit "meminfo: failed\n")
  else
    let info ← info
    print env (lit "Physical Memory:\n")
    print env (lit "  Total: ")
    printNum env (pagesKb info.totalPages)
    print env (lit " KB\n")
    print env (lit "  Free:  ")
    printNum env (pagesKb info.freePages)
    print env (lit " KB\n")
    print env (lit "  Used:  ")
    printNum env (pagesKb info.usedPages)
    print env (lit " KB\n")

/-- `state_name(state)` -/
def stateName : ℕ → List UInt8
  | 0 => ascii "READY"
  | 1 => ascii "RUNNING"
  | 2 => ascii "BLOCKED"
  | 3 => ascii "ZOMBIE"
  | _ => ascii "?"

/-- What `cmd_ps` prints for an entry. -/
def psEntryLine (e : PsEntry) : ShellM P Unit := do
  print env (lit "  ")
  printNum env e.pid
  print env (lit "   ")
  print env (stateName e.state ++ [0])
  print env (lit "\n")

/-- `cmd_ps()` -/
def cmdPs : ShellM P Unit := do
  let (count, entries) ← sysPs env 32
  if count < 0 then
    print env (lit "ps: failed\n")
  else
    print env (lit "PID  STATE\n")
    (List.range count.toNat).forM fun i => do
      let e ← entries[i]?
      psEntryLine env e

/-! ## The dispatcher in `_start` -/

/-- What a command line asks for. -/
inductive Command
  | help
  | ls
  | cat
  | echo
  | echoNothing
  | clear
  | uptime
  | meminfo
  | ps
  | exit
  | unknown
deriving DecidableEq, Repr

/-- The comparisons with the command line, in their order. -/
def parseCommand (cmd : List UInt8) : Option Command := do
  if (← strcmp cmd (lit "help")) = 0 then return .help
  if (← strcmp cmd (lit "ls")) = 0 then return .ls
  -- The blank belongs to the comparison: a bare `cat` is an unknown command.
  if (← strncmp cmd (lit "cat ") 4) = 0 then return .cat
  if (← strncmp cmd (lit "echo ") 5) = 0 then return .echo
  if (← strcmp cmd (lit "echo")) = 0 then return .echoNothing
  if (← strcmp cmd (lit "clear")) = 0 then return .clear
  if (← strcmp cmd (lit "uptime")) = 0 then return .uptime
  if (← strcmp cmd (lit "meminfo")) = 0 then return .meminfo
  if (← strcmp cmd (lit "ps")) = 0 then return .ps
  if (← strcmp cmd (lit "exit")) = 0 then return .exit
  return .unknown

/-- What is done for a command, where `cmd` are the bytes that can be read from the start of the
command line on. -/
def execCommand (cmd : List UInt8) : Command → ShellM P Unit
  | .help => cmdHelp env
  | .ls => cmdLs env
  | .cat => cmdCat env (cmd.drop 4)
  | .echo => cmdEcho env (cmd.drop 5)
  | .echoNothing => cmdEcho env (lit "")
  | .clear => cmdClear env
  | .uptime => cmdUptime env
  | .meminfo => cmdMeminfo env
  | .ps => cmdPs env
  | .exit => do
    print env (lit "Goodbye!\n")
    sysExit env 0
  | .unknown => do
    print env (lit "Unknown command: ")
    print env cmd
    print env (lit "\nType 'help' for a list of commands.\n")

/-- The body of the loop after a command line was read, and whether the shell then goes on:
`sys_exit` does not return. -/
def runCommand (cmd : List UInt8) : ShellM P Bool := do
  let command ← parseCommand cmd
  execCommand env cmd command
  return command ≠ .exit

end Lightstreak.User
