import Lightstreak.Fs.Vfs
import Lightstreak.Lib.Bytes
import Mathlib.Logic.Function.Basic

/-!
# RAM filesystem (`kernel/fs/ramfs.c`)

A flat array of 64 slots, each with a name of 64 bytes and a buffer of 32 KB. Every byte that is
copied from or to a buffer is checked against the buffer's size: an access outside it is
undefined behaviour in C, and makes the operation `none` here. The same holds for a name that is
read past the bytes the caller can read.

`initramfs_load` unpacks a Multiboot module. It reads memory through `ReadMem`, so that a result
means that only readable addresses were read. What it prints is kept, because printing a name
reads it.
-/

namespace Lightstreak

open SysLib

/-- `RAMFS_MAX_FILES` -/
def ramfsMaxFiles : ℕ := 64

/-- `RAMFS_MAX_FILE_SIZE` -/
def ramfsMaxFileSize : ℕ := 32 * 1024

/-- `INITRAMFS_MAGIC`, "RAMF" -/
def initramfsMagic : ℕ := 0x52414D46

/-- `ramfs_file_t` -/
structure RamfsFile where
  /-- The field `name` of 64 bytes. -/
  name : List UInt8
  /-- The field `data` of 32 KB. -/
  data : ℕ → UInt8
  /-- The number of bytes in use. -/
  size : ℕ
  /-- Whether the slot holds a file. -/
  used : Bool

/-- The static array `files`, of which the entries below `RAMFS_MAX_FILES` exist. -/
abbrev Ramfs := ℕ → RamfsFile

/-! ## Helpers -/

/-- `str_eq(a, b)` on the bytes that may be read from `a` and from `b`. -/
def strEq : List UInt8 → List UInt8 → Option Bool
  | x :: a, y :: b =>
    if x ≠ 0 ∧ y ≠ 0 then
      if x ≠ y then some false else strEq a b
    else some (x == y)
  | _, _ => none

/-- `mem_copy(data + first, src, n)` into the buffer of a slot, byte after byte. -/
def memCopyIn (data : ℕ → UInt8) (first : ℕ) (src : ReadMem) : ℕ → Option (ℕ → UInt8)
  | 0 => some data
  | n + 1 => do
    let d ← memCopyIn data first src n
    let c ← src n
    if first + n < ramfsMaxFileSize then some (Function.update d (first + n) c) else none

/-- `mem_copy(buf, data + first, n)` out of the buffer of a slot: the bytes that arrive. -/
def memCopyOut (data : ℕ → UInt8) (first : ℕ) : ℕ → Option (List UInt8)
  | 0 => some []
  | n + 1 => do
    let bytes ← memCopyOut data first n
    if first + n < ramfsMaxFileSize then some (bytes ++ [data (first + n)]) else none

/-- The loop of `find_file` from slot `i` on, with `n` slots to go. -/
def findFileFrom (files : Ramfs) (name : List UInt8) : ℕ → ℕ → Option ℤ
  | _, 0 => some (-1)
  | i, n + 1 =>
    if (files i).used then do
      if ← strEq (files i).name name then some i else findFileFrom files name (i + 1) n
    else findFileFrom files name (i + 1) n

/-- `find_file(name)` -/
def findFile (files : Ramfs) (name : List UInt8) : Option ℤ :=
  findFileFrom files name 0 ramfsMaxFiles

/-- `find_free_slot()` -/
def findFreeSlot (files : Ramfs) : ℤ :=
  match (List.range ramfsMaxFiles).find? fun i => !(files i).used with
  | some i => i
  | none => -1

/-- The loop that copies a name, `for (i = 0; i < n && src[i]; i++) dst[i] = src[i]`, and the
terminating zero after it. The bytes of `dst` behind the terminator stay. -/
def copyName : ℕ → List UInt8 → List UInt8 → Option (List UInt8)
  | 0, dst, _ => some (0 :: dst.tail)
  | _ + 1, _, [] => none
  | n + 1, dst, c :: src =>
    if c = 0 then some (0 :: dst.tail) else (copyName n dst.tail src).map (c :: ·)

/-! ## The operations of `fs_ops_t` -/

/-- `ramfs_create(name)` -/
def ramfsCreate (files : Ramfs) (name : List UInt8) : Option (ℤ × Ramfs) := do
  -- The name exists already.
  if 0 ≤ (← findFile files name) then return (-1, files)
  let idx := findFreeSlot files
  if idx < 0 then return (-1, files)
  let f := files idx.toNat
  let name ← copyName (vfsMaxFilename - 1) f.name name
  return (idx, Function.update files idx.toNat { f with name := name, size := 0, used := true })

/-- `ramfs_open(path)`, which skips one leading slash. -/
def ramfsOpen (files : Ramfs) : List UInt8 → Option ℤ
  | [] => none
  | c :: path => findFile files (if c = '/'.toUInt8 then path else c :: path)

/-- `ramfs_read(file_idx, buf, offset, len)` -/
def ramfsRead (files : Ramfs) (fileIdx : ℤ) (offset len : ℕ) : Option (ℤ × List UInt8) :=
  if fileIdx < 0 ∨ (ramfsMaxFiles : ℤ) ≤ fileIdx then some (-1, [])
  else
    let f := files fileIdx.toNat
    if !f.used then some (-1, [])
    -- At the end of the file and behind it nothing is read, which is no error.
    else if f.size ≤ offset then some (0, [])
    else
      let available := sub32 f.size offset
      let len := if available < len then available else len
      (memCopyOut f.data offset len).map fun bytes => (toInt32 len, bytes)

/-- `ramfs_write(file_idx, buf, offset, len)` -/
def ramfsWrite (files : Ramfs) (fileIdx : ℤ) (buf : ℕ → UInt8) (offset len : ℕ) :
    Option (ℤ × Ramfs) :=
  if fileIdx < 0 ∨ (ramfsMaxFiles : ℤ) ≤ fileIdx then some (-1, files)
  else
    let f := files fileIdx.toNat
    if !f.used then some (-1, files)
    else
      -- The sum is a 32-bit one, here and below.
      let len := if ramfsMaxFileSize < add32 offset len then sub32 ramfsMaxFileSize offset else len
      (memCopyIn f.data offset (fun i => some (buf i)) len).map fun data =>
        let size := if f.size < add32 offset len then add32 offset len else f.size
        (toInt32 len, Function.update files fileIdx.toNat { f with data := data, size := size })

/-- `ramfs_close(file_idx)` -/
def ramfsClose (_ : Ramfs) (_ : ℤ) : ℤ := 0

/-- The loop of `ramfs_readdir` from slot `i` on, with `n` slots to go. -/
def readdirFrom (files : Ramfs) (max : ℤ) : ℕ → ℕ → ℤ → Option (List Dirent)
  | _, 0, _ => some []
  | i, n + 1, count =>
    -- The loop tests the count before every slot.
    if count < max then
      if (files i).used then do
        let name ← copyName (vfsMaxFilename - 1) [] (files i).name
        let rest ← readdirFrom files max (i + 1) n (count + 1)
        return ⟨name, (files i).size⟩ :: rest
      else readdirFrom files max (i + 1) n count
    else some []

/-- `ramfs_readdir(entries, max)` -/
def ramfsReaddir (files : Ramfs) (max : ℤ) : Option (ℤ × List Dirent) :=
  (readdirFrom files max 0 ramfsMaxFiles 0).map fun entries => (entries.length, entries)

/-- `ramfs_ops` -/
def ramfsOps : FsOps Ramfs where
  create := some ramfsCreate
  openFile := some ramfsOpen
  read := some ramfsRead
  write := some ramfsWrite
  close := some ramfsClose
  readdir := some ramfsReaddir

/-- `ramfs_init()`: the table it mounts and the cleared slots. -/
def ramfsInit (files : Ramfs) : Option (FsOps Ramfs) × Ramfs :=
  (some ramfsOps, fun i =>
    if i < ramfsMaxFiles then
      { files i with used := false, size := 0, name := (files i).name.set 0 0 }
    else files i)

/-! ## The initramfs loader -/

/-- The messages of `initramfs_load`, with the values that it prints in them. -/
inductive RamfsMsg
  /-- `[RAMFS] WARNING: bad initramfs magic 0x%x (expected 0x%x)` -/
  | badMagic (magic : ℕ)
  /-- `[RAMFS] Loading initramfs: %u files` -/
  | loading (fileCount : ℕ)
  /-- `  [RAMFS] Loaded: %s (%u bytes)` -/
  | loaded (name : List UInt8) (fsize : ℕ)
deriving DecidableEq, Repr

/-- The copy of a file's contents in `initramfs_load`, for a slot that was created. -/
def loadData (mem : ReadMem) (modStart offset fsize : ℕ) (idx : ℤ) (files : Ramfs) :
    Option Ramfs :=
  if 0 ≤ idx ∧ 0 < fsize then do
    let f := files idx.toNat
    let copyLen := if ramfsMaxFileSize < fsize then ramfsMaxFileSize else fsize
    let data ← memCopyIn f.data 0 (fun i => mem (add32 (add32 modStart offset) i)) copyLen
    return Function.update files idx.toNat { f with data := data, size := copyLen }
  else some files

/-- One turn of the loop of `initramfs_load`, for the entry at `entryPtr`. The name is compared
and copied from the bytes readable at `entryPtr`; no byte after the 64th is looked at, since the
names in `files` end before. Printing it reads up to its terminator, wherever that is. -/
def loadEntry (mem : ReadMem) (modStart entryPtr : ℕ) (files : Ramfs) :
    Option (Ramfs × RamfsMsg) := do
  let offset ← mem.load32 (add32 entryPtr 64)
  let fsize ← mem.load32 (add32 entryPtr 68)
  let (idx, files) ← ramfsCreate files (mem.bytes entryPtr vfsMaxFilename)
  let files ← loadData mem modStart offset fsize idx files
  let printed ← mem.readStr entryPtr (2 ^ 32)
  return (files, .loaded printed fsize)

/-- The loop of `initramfs_load` over `n` entries from `entryPtr` on. -/
def loadEntries (mem : ReadMem) (modStart : ℕ) :
    ℕ → ℕ → Ramfs → Option (Ramfs × List RamfsMsg)
  | 0, _, files => some (files, [])
  | n + 1, entryPtr, files => do
    let (files, msg) ← loadEntry mem modStart entryPtr files
    let (files, log) ← loadEntries mem modStart n (add32 entryPtr 72) files
    return (files, msg :: log)

/-- `initramfs_load(mod_start, mod_size)`; it ignores `mod_size`. -/
def initramfsLoad (mem : ReadMem) (modStart : ℕ) (files : Ramfs) :
    Option (Ramfs × List RamfsMsg) := do
  let magic ← mem.load32 modStart
  if magic ≠ initramfsMagic then return (files, [.badMagic magic])
  let fileCount ← mem.load32 (add32 modStart 4)
  let (files, log) ← loadEntries mem modStart fileCount (add32 modStart 8) files
  return (files, .loading fileCount :: log)

end Lightstreak
