import Mathlib.Data.Int.Notation
import Mathlib.Data.Nat.Notation

/-!
# Virtual filesystem switch (`kernel/fs/vfs.c`)

The file operations of the kernel go through a table of function pointers, `fs_ops_t`, that a
filesystem driver registers with `vfs_mount`. The model is generic in the driver's state `σ`.
A missing table (`mounted_fs == NULL`) or a missing entry makes the call return `-1`.

Names and paths are given by the bytes that may be read from the pointer on. An operation
returns `none` when it touches memory outside the arrays it was given.
-/

namespace Lightstreak

/-- `VFS_MAX_FILENAME` -/
def vfsMaxFilename : ℕ := 64

/-- `dirent_t`, with the bytes that `readdir` writes to `name`. -/
structure Dirent where
  /-- The name, a field of 64 bytes. -/
  name : List UInt8
  /-- The size of the file. -/
  size : ℕ
deriving DecidableEq, Repr

/-- `fs_ops_t`. A read returns the bytes it puts into the caller's buffer. -/
structure FsOps (σ : Type*) where
  /-- Creates a file with a name. -/
  create : Option (σ → List UInt8 → Option (ℤ × σ))
  /-- Looks up a name. -/
  openFile : Option (σ → List UInt8 → Option ℤ)
  /-- Reads bytes at an offset. -/
  read : Option (σ → ℤ → ℕ → ℕ → Option (ℤ × List UInt8))
  /-- Writes bytes at an offset. -/
  write : Option (σ → ℤ → (ℕ → UInt8) → ℕ → ℕ → Option (ℤ × σ))
  /-- Closes a file. -/
  close : Option (σ → ℤ → ℤ)
  /-- Lists the files. -/
  readdir : Option (σ → ℤ → Option (ℤ × List Dirent))

variable {σ φ ρ : Type*}

/-- What every `vfs_` function does: fail when nothing is mounted or the driver lacks the
operation, and call the driver otherwise. -/
def vfsDispatch (mountedFs : Option (FsOps σ)) (op : FsOps σ → Option φ) (fail : ρ)
    (call : φ → ρ) : ρ :=
  match mountedFs.bind op with
  | some f => call f
  | none => fail

/-- `vfs_create(name)` -/
def vfsCreate (mountedFs : Option (FsOps σ)) (s : σ) (name : List UInt8) : Option (ℤ × σ) :=
  vfsDispatch mountedFs (·.create) (some (-1, s)) fun f => f s name

/-- `vfs_open(path)` -/
def vfsOpen (mountedFs : Option (FsOps σ)) (s : σ) (path : List UInt8) : Option ℤ :=
  vfsDispatch mountedFs (·.openFile) (some (-1)) fun f => f s path

/-- `vfs_read(file_idx, buf, offset, len)` -/
def vfsRead (mountedFs : Option (FsOps σ)) (s : σ) (fileIdx : ℤ) (offset len : ℕ) :
    Option (ℤ × List UInt8) :=
  vfsDispatch mountedFs (·.read) (some (-1, [])) fun f => f s fileIdx offset len

/-- `vfs_write(file_idx, buf, offset, len)` -/
def vfsWrite (mountedFs : Option (FsOps σ)) (s : σ) (fileIdx : ℤ) (buf : ℕ → UInt8)
    (offset len : ℕ) : Option (ℤ × σ) :=
  vfsDispatch mountedFs (·.write) (some (-1, s)) fun f => f s fileIdx buf offset len

/-- `vfs_close(file_idx)` -/
def vfsClose (mountedFs : Option (FsOps σ)) (s : σ) (fileIdx : ℤ) : ℤ :=
  vfsDispatch mountedFs (·.close) (-1) fun f => f s fileIdx

/-- `vfs_readdir(entries, max)` -/
def vfsReaddir (mountedFs : Option (FsOps σ)) (s : σ) (max : ℤ) : Option (ℤ × List Dirent) :=
  vfsDispatch mountedFs (·.readdir) (some (-1, [])) fun f => f s max

end Lightstreak
