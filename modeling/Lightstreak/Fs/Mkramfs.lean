import Lightstreak.Lib.Bytes

/-!
# The image builder (`tools/mkramfs.c`)

`mkramfs` runs on the host and packs a directory into the image that `initramfs_load` unpacks. The
host's directory is the list of its entries in the order in which `readdir` returns them, each
with the bytes of its file if it is a regular file that can be read. The host is little-endian.
-/

namespace Lightstreak

open SysLib

/-- `MAGIC`, "RAMF" -/
def mkramfsMagic : ℕ := 0x52414D46

/-- `NAME_LEN` -/
def nameLen : ℕ := 64

/-- `MAX_FILES` -/
def maxFiles : ℕ := 64

/-- A directory entry. It has contents if `stat` says that it is a regular file, and `fopen` and
`malloc` succeed; the file is then read fully. -/
structure DirEnt where
  /-- The field `d_name`. -/
  dName : List UInt8
  /-- What was read, if it is a file that can be read. -/
  contents : Option (List UInt8)

/-- `file_entry_t` -/
structure FileEntry where
  /-- The field `name` of 64 bytes. -/
  name : List UInt8
  /-- Where the contents are in the image. -/
  offset : ℕ
  /-- The number of bytes. -/
  size : ℕ
  /-- The contents. -/
  data : List UInt8

/-- The name field: `memset` to zero, then `strncpy` of at most `NAME_LEN - 1` bytes. -/
def nameField (dName : List UInt8) : List UInt8 :=
  dName.take (nameLen - 1) ++ List.replicate (nameLen - (dName.take (nameLen - 1)).length) 0

/-- The loop over the directory, with `fileCount` files in the table. Names that start with a dot
are skipped, and so is what cannot be read. -/
def addFiles : ℕ → List DirEnt → List FileEntry
  | _, [] => []
  | fileCount, ent :: dir =>
    if fileCount < maxFiles then
      -- "Skip . and ..", as the source's comment has it.
      if ent.dName.head? = some '.'.toUInt8 then addFiles fileCount dir
      else
        match ent.contents with
        | none => addFiles fileCount dir
        | some data =>
          ⟨nameField ent.dName, 0, data.length % 2 ^ 32, data⟩ :: addFiles (fileCount + 1) dir
    else []

/-- The loop that calculates the offsets. -/
def setOffsets : ℕ → List FileEntry → List FileEntry
  | _, [] => []
  | dataOffset, f :: files =>
    { f with offset := dataOffset } :: setOffsets (add32 dataOffset f.size) files

/-- The 72 bytes of one entry of the table. -/
def entryBytes (f : FileEntry) : List UInt8 := f.name ++ le32 f.offset ++ le32 f.size

/-- The output file. -/
def writeImage (files : List FileEntry) : List UInt8 :=
  le32 mkramfsMagic ++ le32 files.length ++ files.flatMap entryBytes ++
    files.flatMap fun f => f.data.take f.size

/-- `main`: the image of a directory. -/
def mkramfs (dir : List DirEnt) : List UInt8 :=
  let files := addFiles 0 dir
  let headerSize := add32 8 (files.length * 72 % 2 ^ 32)
  writeImage (setOffsets headerSize files)

end Lightstreak
