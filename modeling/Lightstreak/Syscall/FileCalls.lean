import Lightstreak.Fs.Ramfs

/-!
# The file system calls (`kernel/syscall/syscall.c`)

`sys_open`, `sys_read`, `sys_write` and `sys_close` over the per-process descriptor tables of
`process_t` and the mounted filesystem. A process is a value of an arbitrary type `P`, and the
calling process is passed in place of `scheduler_current()`.

Descriptors 1 and 2 go to the screen and descriptor 0 comes from the keyboard. The screen is
the list of characters handed to `vga_putchar`; the keyboard is the stream of characters that
`keyboard_getchar` will return, each of which it waits for. A user buffer is memory of its own:
`sys_write` may read any number of bytes from it, and what `sys_read` puts into it is returned.
-/

namespace Lightstreak

open SysLib

/-- `MAX_FDS` -/
def maxFds : ℕ := 32

/-- `fd_entry_t` -/
structure FdEntry where
  /-- The slot of the file, or -1 for a standard stream. -/
  fileIdx : ℤ
  /-- Where the next read or write begins. -/
  offset : ℕ
  /-- Whether the descriptor is open. -/
  inUse : Bool
deriving DecidableEq, Repr

/-- The state the file calls work on. -/
structure FileState (P : Type) where
  /-- The file system that is mounted. -/
  mountedFs : Option (FsOps Ramfs)
  /-- The files. -/
  files : Ramfs
  /-- The descriptors of each process. -/
  fdTable : P → ℕ → FdEntry
  /-- The characters that will be typed. -/
  keyboard : ℕ → UInt8
  /-- The characters that were printed. -/
  console : List UInt8

variable {P : Type} [DecidableEq P]

/-- Write one entry of a process's descriptor table. -/
def FileState.setFd (s : FileState P) (p : P) (fd : ℕ) (e : FdEntry) : FileState P :=
  { s with fdTable := Function.update s.fdTable p (Function.update (s.fdTable p) fd e) }

/-- `sys_write(fd, buf, len)` -/
def sysWrite (s : FileState P) (cur : Option P) (fd : ℕ) (buf : ℕ → UInt8) (len : ℕ) :
    Option (ℤ × FileState P) :=
  if fd = 1 ∨ fd = 2 then
    some (toInt32 len, { s with console := s.console ++ (List.range len).map buf })
  else
    match cur with
    | none => some (-1, s)
    | some p =>
      let e := s.fdTable p fd
      if maxFds ≤ fd ∨ e.inUse = false then some (-1, s)
      -- The standard descriptors have no file.
      else if e.fileIdx < 0 then some (-1, s)
      else do
        let (written, files) ← vfsWrite s.mountedFs s.files e.fileIdx buf e.offset len
        let s := { s with files := files }
        -- A write of nothing leaves the position as it is.
        if 0 < written then
          return (written, s.setFd p fd { e with offset := add32 e.offset written.toNat })
        return (written, s)

/-- `sys_read(fd, buf, len)`: the return value and the bytes put into the buffer. -/
def sysRead (s : FileState P) (cur : Option P) (fd len : ℕ) :
    Option ((ℤ × List UInt8) × FileState P) :=
  if fd = 0 then
    -- One `keyboard_getchar` for each byte.
    some ((toInt32 len, (List.range len).map s.keyboard),
      { s with keyboard := fun i => s.keyboard (len + i) })
  else
    match cur with
    | none => some ((-1, []), s)
    | some p =>
      let e := s.fdTable p fd
      if maxFds ≤ fd ∨ e.inUse = false then some ((-1, []), s)
      else if e.fileIdx < 0 then some ((-1, []), s)
      else do
        let (count, bytes) ← vfsRead s.mountedFs s.files e.fileIdx e.offset len
        -- The offset moves by what was read.
        if 0 < count then
          return ((count, bytes), s.setFd p fd { e with offset := add32 e.offset count.toNat })
        return ((count, bytes), s)

/-- `sys_open(path)` -/
def sysOpen (s : FileState P) (cur : Option P) (path : List UInt8) :
    Option (ℤ × FileState P) :=
  match cur with
  | none => some (-1, s)
  | some p =>
    -- Descriptors 0 to 2 are reserved.
    match (List.range' 3 (maxFds - 3)).find? fun i => !(s.fdTable p i).inUse with
    | none => some (-1, s)
    | some fd => do
      let fileIdx ← vfsOpen s.mountedFs s.files path
      if fileIdx < 0 then return (-1, s)
      return (fd, s.setFd p fd { fileIdx := fileIdx, offset := 0, inUse := true })

/-- `sys_close(fd)`. It ignores what `vfs_close` returns. -/
def sysClose (s : FileState P) (cur : Option P) (fd : ℕ) : ℤ × FileState P :=
  match cur with
  | none => (-1, s)
  | some p =>
    if fd < 3 ∨ maxFds ≤ fd then (-1, s)
    else if (s.fdTable p fd).inUse = false then (-1, s)
    else (0, s.setFd p fd { fileIdx := -1, offset := 0, inUse := false })

/-- The bytes readable at a path that a program passes: they hold its terminator. -/
abbrev UserPath := { l : List UInt8 // 0 ∈ l }

/-- A file call of a user program, with 32-bit arguments. -/
inductive FileCall
  | sysOpen (path : UserPath)
  | sysRead (fd len : UInt32)
  | sysWrite (fd : UInt32) (buf : ℕ → UInt8) (len : UInt32)
  | sysClose (fd : UInt32)

/-- A file call by process `c.1`, as `syscall_handler` dispatches it: the value returned in
`eax`, the bytes put into the caller's buffer, and the state afterwards. -/
def fileCall (s : FileState P) (c : P × FileCall) : Option ((ℤ × List UInt8) × FileState P) :=
  match c.2 with
  | .sysOpen path => (sysOpen s (some c.1) path.1).map fun r => ((r.1, []), r.2)
  | .sysRead fd len => sysRead s (some c.1) fd.toNat len.toNat
  | .sysWrite fd buf len =>
    (sysWrite s (some c.1) fd.toNat buf len.toNat).map fun r => ((r.1, []), r.2)
  | .sysClose fd =>
    some (((sysClose s (some c.1) fd.toNat).1, []), (sysClose s (some c.1) fd.toNat).2)

end Lightstreak
