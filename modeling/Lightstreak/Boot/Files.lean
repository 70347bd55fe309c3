import Lightstreak.Fs.Initramfs

/-!
# Booting the filesystem (`kmain`, Stages 7 and 8)

Before `kmain` loads the initramfs it tests the filesystem with a file of its own, `hello.txt`. The
test file stays, and a packed file of that name is not loaded:

* `loaded_vfsTest`: the filesystem after the test;
* `exists_bootFiles`: the files after the image of a directory was loaded on top of it;
* `bootFiles_installs_iff`: every packed file can be opened and read if and only if a packed
  `hello.txt` has the contents that the test writes.
-/

namespace Lightstreak

open SysLib

variable {σ : Type}

/-- The name of the test file. -/
def helloTxt : List UInt8 := ascii "hello.txt"

/-- What the test writes, `msg`. -/
def helloMsg : List UInt8 := ascii "Hello from AnubhavOS!\n"

/-- The test in Stage 7, with the text that it reads back and prints. -/
def vfsTest (mountedFs : Option (FsOps σ)) (s : σ) : Option (σ × Option (List UInt8)) := do
  let (_, s) ← vfsCreate mountedFs s (helloTxt ++ [0])
  let idx ← vfsOpen mountedFs s (helloTxt ++ [0])
  if idx < 0 then return (s, none)
  let (_, s) ← vfsWrite mountedFs s idx (fun i => helloMsg.getD i 0) 0 helloMsg.length
  let _ := vfsClose mountedFs s idx
  let idx ← vfsOpen mountedFs s (helloTxt ++ [0])
  if idx < 0 then return (s, none)
  let (n, buf) ← vfsRead mountedFs s idx 0 127
  let _ := vfsClose mountedFs s idx
  return (s, if 0 < n then some (cstr (buf ++ [0])) else none)

/-- `kmain` from `ramfs_init` to `initramfs_load`, for a module at `modStart`. -/
def bootFiles (mem : ReadMem) (modStart : ℕ) (files : Ramfs) :
    Option (Ramfs × Option (List UInt8) × List RamfsMsg) := do
  let (mountedFs, files) := ramfsInit files
  let (files, printed) ← vfsTest mountedFs files
  let (files, log) ← initramfsLoad mem modStart files
  return (files, printed, log)

/-- The file can be opened by its name, and its contents read. -/
def Installed (files : Ramfs) (f : HostFile) : Prop :=
  ∃ i : ℕ, (∀ rest, vfsOpen (some ramfsOps) files (f.name ++ 0 :: rest) = some (i : ℤ)) ∧
    ∀ offset len, vfsRead (some ramfsOps) files i offset len =
      some ((((f.data.drop offset).take len).length : ℤ), (f.data.drop offset).take len)

variable {files : Ramfs} {fs : List HostFile} {f g : HostFile} {dir : List DirEnt} {base : ℕ}

theorem HoldsFiles.installed (h : HoldsFiles files fs) (hf : f ∈ fs) : Installed files f := by
  obtain ⟨i, hi⟩ := List.mem_iff_getElem?.mp hf
  exact ⟨i, fun rest => h.openName i f rest hi, fun offset len => h.read i f offset len hi⟩

/-- Under one name there are only one file's contents. -/
theorem Installed.data_eq (hf : Installed files f) (hg : Installed files g)
    (hname : f.name = g.name) : f.data = g.data := by
  obtain ⟨i, hopen, hread⟩ := hf
  obtain ⟨j, hopen', hread'⟩ := hg
  have hij := (hopen []).symm.trans (hname ▸ hopen' [])
  obtain rfl : i = j := Int.ofNat.inj (Option.some.inj hij)
  -- Both are read fully.
  have heq := (hread 0 (max f.data.length g.data.length)).symm.trans
    (hread' 0 (max f.data.length g.data.length))
  rw [Option.some.injEq, Prod.mk.injEq, List.drop_zero, List.drop_zero,
    List.take_of_length_le (le_max_left _ _), List.take_of_length_le (le_max_right _ _)] at heq
  exact heq.2

/-! ## The test -/

/-- The test file. -/
def helloFile : HostFile := ⟨helloTxt, helloMsg⟩

/-- The name of the test file is within the limits. -/
theorem nameable_hello (data : List UInt8) : Nameable [⟨helloTxt, data⟩] := by
  refine ⟨show 1 ≤ maxFiles by decide, by simp, ?_, ?_, ?_, ?_⟩
  all_goals
    intro f hf
    obtain rfl := List.mem_singleton.mp hf
    dsimp only
    decide

/-- The test when all its calls succeed. -/
theorem vfsTest_eq {mountedFs : Option (FsOps σ)} {s s₁ s₂ : σ} {r r' n : ℤ} {i j : ℕ}
    {buf : List UInt8} (hcreate : vfsCreate mountedFs s (helloTxt ++ [0]) = some (r, s₁))
    (hopen : vfsOpen mountedFs s₁ (helloTxt ++ [0]) = some (i : ℤ))
    (hwrite : vfsWrite mountedFs s₁ i (fun k => helloMsg.getD k 0) 0 helloMsg.length =
      some (r', s₂))
    (hopen' : vfsOpen mountedFs s₂ (helloTxt ++ [0]) = some (j : ℤ))
    (hread : vfsRead mountedFs s₂ j 0 127 = some (n, buf)) (hn : 0 < n) :
    vfsTest mountedFs s = some (s₂, some (cstr (buf ++ [0]))) := by
  have hi : ¬((i : ℤ) < 0) := by omega
  have hj : ¬((j : ℤ) < 0) := by omega
  simp only [vfsTest, hcreate, hopen, hwrite, hopen', hread, Option.bind_eq_bind, Option.bind_some,
    if_neg hi, if_neg hj, if_pos hn, Option.pure_def]

/-- Writing to an empty file. -/
theorem RamfsFile.content_splice_empty {slot : RamfsFile} (hempty : slot.size = 0) (n : ℕ)
    (buf : ℕ → UInt8) : (slot.splice 0 n buf).content = (List.range n).map buf := by
  have hnil : slot.content = [] :=
    List.eq_nil_of_length_eq_zero (slot.length_content.trans hempty)
  rw [RamfsFile.content_splice _ (Nat.zero_le _), hnil]
  simp

/-- The filesystem after the test has the test file only. -/
theorem loaded_vfsTest (files : Ramfs) :
    ∃ files', vfsTest (ramfsInit files).1 (ramfsInit files).2 = some (files', some helloMsg) ∧
      Loaded files' [helloFile] := by
  have hl := loaded_ramfsInit files
  have hmounted : (ramfsInit files).1 = some ramfsOps := rfl
  rw [hmounted]
  generalize (ramfsInit files).2 = files₀ at hl
  have hlen : helloMsg.length = 22 := by decide
  -- The file is created, and found in the first slot.
  obtain ⟨tail, hcreate⟩ := hl.ramfsCreate (f := ⟨helloTxt, []⟩) [] (by decide) (by simp)
    ⟨by decide, by decide⟩ (by simp)
  have hslot : SlotHolds ⟨helloTxt ++ 0 :: tail, (files₀ 0).data, 0, true⟩ ⟨helloTxt, []⟩ :=
    ⟨rfl, ⟨tail, rfl⟩, rfl⟩
  have hl₁ := hl.snoc hslot (hl.inv.ramfsCreate hcreate)
  have hopen₁ := (hl₁.holdsFiles (nameable_hello [])).openName 0 _ [] rfl
  -- It is empty, and the text is written to it.
  have hwrite := ramfsWrite_eq (i := 0) (by decide) (hl₁.slot 0 _ rfl).used (Nat.zero_le _)
    (show 0 + helloMsg.length < 2 ^ 32 by rw [hlen]; decide) fun k => helloMsg.getD k 0
  have hinv₂ := hl₁.inv.ramfsWrite hwrite
  rw [show min helloMsg.length (ramfsMaxFileSize - 0) = 22 by decide] at hwrite hinv₂
  simp only [List.length_nil, Function.update_idem, Function.update_self] at hwrite hinv₂
  have hmsg : (List.range 22).map (fun k => helloMsg.getD k 0) = helloMsg := by decide
  have hl₂ := hl.snoc (f := helloFile)
    ⟨rfl, ⟨tail, rfl⟩, (RamfsFile.content_splice_empty rfl 22 _).trans hmsg⟩ hinv₂
  have hholds := hl₂.holdsFiles (nameable_hello helloMsg)
  have hopen₂ := hholds.openName 0 _ [] rfl
  have hread := hholds.read 0 _ 0 127 rfl
  have hback : cstr ((helloMsg.drop 0).take 127 ++ [0]) = helloMsg := by decide
  refine ⟨_, ?_, hl₂⟩
  rw [← hback]
  exact vfsTest_eq hcreate hopen₁ hwrite hopen₂ hread (by decide)

/-! ## The whole sequence -/

/-- The filesystem after the image of a directory was loaded: the test file, and the packed files
that have other names. -/
theorem exists_bootFiles (files : Ramfs) (hpack : Packable (packedFiles dir))
    (hlen : (packedFiles dir).length ≤ 63) (hfits : base + (mkramfs dir).length ≤ 2 ^ 32) :
    ∃ files' log, bootFiles (ReadMem.ofList base (mkramfs dir)) base files =
        some (files', some helloMsg, log) ∧
      HoldsFiles files' (helloFile :: (packedFiles dir).filter fun f => f.name ≠ helloTxt) := by
  rw [hpack.mkramfs_eq] at hfits ⊢
  generalize packedFiles dir = fs at *
  obtain ⟨files₁, htest, hl₁⟩ := loaded_vfsTest files
  have hdone : ∀ g ∈ [helloFile], 0 ∉ g.name := (nameable_hello helloMsg).no_nul
  obtain ⟨files₂, log, hload, hl₂⟩ :=
    hl₁.initramfsLoad hdone hpack.toNameable.shortName hpack.length_imageOf_lt hfits
  have hroom : [helloFile].length + fs.length ≤ ramfsMaxFiles := by
    rw [List.length_singleton]
    exact Nat.add_le_of_le_sub' (by decide) hlen
  have hother := hpack.filter fun f => f.name ≠ helloTxt
  rw [foldl_install_eq hpack.nodup hroom, List.singleton_append] at hl₂
  have hnames : (fun f : HostFile => decide (f.name ∉ [helloFile].map HostFile.name)) =
      fun f => decide (f.name ≠ helloTxt) := by
    funext f
    simp [helloFile]
  rw [hnames, hother.map_cut] at hl₂
  refine ⟨files₂, log, ?_, hl₂.holdsFiles ?_⟩
  · simp only [bootFiles, htest, hload, Option.bind_eq_bind, Option.bind_some, Option.pure_def]
  · -- The test file has a name of its own.
    refine (nameable_hello helloMsg).cons hother.toNameable (fun g hg => ?_) ?_
    · exact of_decide_eq_true (List.mem_filter.mp hg).2
    · have := List.length_filter_le (fun f : HostFile => decide (f.name ≠ helloTxt)) fs
      have hmax : maxFiles = 64 := rfl
      omega

/-- Booting installs the packed files: for the image of any directory of which at most 63 files are
packed, within the limits of the ramfs, `kmain` leaves every packed file to be opened by its name
and read with its contents, if and only if a packed `hello.txt` has the contents that the test
writes. -/
theorem bootFiles_installs_iff (dir : List DirEnt) (base : ℕ) (files : Ramfs)
    (hpack : Packable (packedFiles dir)) (hlen : (packedFiles dir).length ≤ 63)
    (hfits : base + (mkramfs dir).length ≤ 2 ^ 32) :
    (∃ files' printed log, bootFiles (ReadMem.ofList base (mkramfs dir)) base files =
        some (files', printed, log) ∧ ∀ f ∈ packedFiles dir, Installed files' f) ↔
      ∀ f ∈ packedFiles dir, f.name = helloTxt → f.data = helloMsg := by
  obtain ⟨files', log, hboot, hholds⟩ := exists_bootFiles files hpack hlen hfits
  have hhello : Installed files' helloFile := hholds.installed List.mem_cons_self
  constructor
  · rintro ⟨files₁, printed, log₁, hboot₁, hall⟩ f hf hname
    obtain ⟨rfl, -⟩ := Prod.mk.inj (Option.some.inj (hboot.symm.trans hboot₁))
    exact (hall f hf).data_eq hhello hname
  · intro hsame
    refine ⟨files', _, log, hboot, fun f hf => ?_⟩
    by_cases hname : f.name = helloTxt
    · -- The test file stands in for the packed one.
      have heq : f = helloFile := by rw [helloFile, ← hname, ← hsame f hf hname]
      exact heq ▸ hhello
    · exact hholds.installed
        (List.mem_cons_of_mem _ (List.mem_filter.mpr ⟨hf, by simpa using hname⟩))

/-- A directory with one file, `a`. -/
theorem bootFiles_installs_iff_oneFile :
    ∃ files' printed log,
      bootFiles (ReadMem.ofList 0x100000 (mkramfs [⟨[0x61], some [72, 105]⟩])) 0x100000
        emptySlots = some (files', printed, log) ∧
      ∀ f ∈ packedFiles [⟨[0x61], some [72, 105]⟩], Installed files' f :=
  (bootFiles_installs_iff [⟨[0x61], some [72, 105]⟩] 0x100000 emptySlots
    ⟨⟨by decide, by decide, by decide, by decide, by decide, by decide⟩, by decide⟩ (by decide)
    (by decide +kernel)).mpr (by decide)

/-- A directory with the file `hello.txt` of two bytes. -/
def helloDir : List DirEnt := [⟨helloTxt, some [72, 105]⟩]

/-- The packed `hello.txt` is lost: under its name stands the text of the test. -/
theorem not_installed_helloDir :
    Packable (packedFiles helloDir) ∧ packedFiles helloDir = [⟨helloTxt, [72, 105]⟩] ∧
    ∃ files' printed log,
      bootFiles (ReadMem.ofList 0x100000 (mkramfs helloDir)) 0x100000 emptySlots =
        some (files', printed, log) ∧
      ¬Installed files' ⟨helloTxt, [72, 105]⟩ ∧ Installed files' ⟨helloTxt, helloMsg⟩ := by
  have hpack : Packable (packedFiles helloDir) :=
    ⟨⟨by decide, by decide, by decide, by decide, by decide, by decide⟩, by decide⟩
  obtain ⟨files', log, hboot, hholds⟩ := exists_bootFiles emptySlots hpack (by decide)
    (show 0x100000 + (mkramfs helloDir).length ≤ 2 ^ 32 by decide +kernel)
  have hhello : Installed files' helloFile := hholds.installed List.mem_cons_self
  refine ⟨hpack, rfl, files', _, log, hboot, fun hlost => ?_, hhello⟩
  exact absurd (hlost.data_eq hhello rfl) (by decide)

end Lightstreak
