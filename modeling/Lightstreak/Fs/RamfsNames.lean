import Lightstreak.Fs.RamfsSpec

/-!
# Names of files

`ramfs_create` looks for the name as it is given, but stores at most its first 63 bytes. Longer
names are therefore never found, and two of them can be stored as one name:

* `cstr_copyName`: the string that is stored;
* `NamesInv`: names that are in use are terminated and shorter than the name field, after
  `ramfs_init` and any calls that fill the filesystem;
* `ramfsCreate_distinctNames_iff`: when a created file has a name of its own;
* `distinctNames_iff`: the names stay distinct in exactly those runs in which no name is cut to
  one that is in use, and no write leaves its buffer.
-/

namespace Lightstreak

open SysLib

variable {files files' : Ramfs} {name : List UInt8} {mem : ReadMem} {i n offset len : ℕ} {r : ℤ}

/-- No two used slots have the same name. -/
def DistinctNames (files : Ramfs) : Prop :=
  ∀ i < ramfsMaxFiles, ∀ j < ramfsMaxFiles, (files i).used → (files j).used →
    cstr (files i).name = cstr (files j).name → i = j

/-! ## What is stored of a name -/

/-- The string that the name loop stores. -/
theorem cstr_copyName {dst src nm : List UInt8} (h : copyName n dst src = some nm) :
    cstr nm = (cstr src).take n := by
  induction n generalizing dst src nm with
  | zero => rw [← Option.some.inj h, cstr_cons_zero, List.take_zero]
  | succ n ih =>
    cases src with
    | nil => cases h
    | cons c src =>
      rw [copyName] at h
      split at h
      next hc => rw [← Option.some.inj h, hc, cstr_cons_zero, cstr_cons_zero, List.take_nil]
      next hc =>
        obtain ⟨rest, hrest, rfl⟩ := Option.map_eq_some_iff.mp h
        rw [cstr_cons_of_ne hc, cstr_cons_of_ne hc, List.take_succ_cons, ih hrest]

/-- The name loop returns on a terminated name and on one that fills the field. -/
theorem exists_copyName (dst : List UInt8) {src : List UInt8} (h : 0 ∈ src ∨ n ≤ src.length) :
    ∃ nm, copyName n dst src = some nm := by
  induction n generalizing dst src with
  | zero => exact ⟨_, rfl⟩
  | succ n ih =>
    cases src with
    | nil => simp at h
    | cons c src =>
      rw [copyName]
      by_cases hc : c = 0
      · exact ⟨_, if_pos hc⟩
      · have h' : 0 ∈ src ∨ n ≤ src.length :=
          h.imp (fun hm => (List.mem_cons.mp hm).resolve_left (Ne.symm hc)) Nat.le_of_succ_le_succ
        obtain ⟨nm, hnm⟩ := ih dst.tail h'
        exact ⟨c :: nm, by rw [if_neg hc, hnm, Option.map_some]⟩

/-! ## The invariant -/

/-- The names in use are terminated inside the name field. -/
structure NamesInv (files : Ramfs) : Prop extends RamfsInv files where
  /-- A name in use leaves room for its terminator. -/
  short : ∀ i < ramfsMaxFiles, (files i).used → (cstr (files i).name).length < vfsMaxFilename

/-- The files in use stay in use and keep their names. -/
def KeepsNames (files files' : Ramfs) : Prop :=
  ∀ i, (files i).used → (files' i).used ∧ (files' i).name = (files i).name

theorem KeepsNames.trans {files₁ : Ramfs} (h : KeepsNames files files₁)
    (h' : KeepsNames files₁ files') : KeepsNames files files' := fun i hused =>
  ⟨(h' i (h i hused).1).1, ((h' i (h i hused).1).2).trans (h i hused).2⟩

/-- Two files of one name are there for ever. -/
theorem KeepsNames.not_distinctNames (h : KeepsNames files files') (hd : ¬DistinctNames files) :
    ¬DistinctNames files' := fun hd' => hd fun i hi j hj hui huj heq =>
  hd' i hi j hj (h i hui).1 (h j huj).1 (by rw [(h i hui).2, (h j huj).2, heq])

/-- A slot in use that stays in use with its name keeps the names. -/
theorem keepsNames_update {f : RamfsFile}
    (h : (files i).used → f.used ∧ f.name = (files i).name) :
    KeepsNames files (Function.update files i f) := by
  intro k hused
  by_cases hk : k = i
  · subst hk
    rw [Function.update_self]
    exact h hused
  · rw [Function.update_of_ne hk]
    exact ⟨hused, rfl⟩

/-- Names stay different if no name is changed. -/
theorem DistinctNames.update {files : Ramfs} (hd : DistinctNames files) {i : ℕ} {f : RamfsFile}
    (hname : f.name = (files i).name) (hused : f.used = (files i).used) :
    DistinctNames (Function.update files i f) := by
  have hsame : ∀ k, (Function.update files i f k).name = (files k).name ∧
      (Function.update files i f k).used = (files k).used := by
    intro k
    by_cases hk : k = i
    · rw [hk, Function.update_self]
      exact ⟨hname, hused⟩
    · rw [Function.update_of_ne hk]
      exact ⟨rfl, rfl⟩
  intro j hj k hk hju hku heq
  rw [(hsame j).2] at hju
  rw [(hsame k).2] at hku
  rw [(hsame j).1, (hsame k).1] at heq
  exact hd j hj k hk hju hku heq

/-- A file that takes a free slot keeps the names distinct if and only if its name is not in use. -/
theorem DistinctNames.create_iff (hd : DistinctNames files) {f : RamfsFile}
    (hlt : i < ramfsMaxFiles) (hfree : (files i).used = false) (hused : f.used) :
    DistinctNames (Function.update files i f) ↔
      ∀ j < ramfsMaxFiles, (files j).used → cstr (files j).name ≠ cstr f.name := by
  constructor
  · intro hd' j hj hju heq
    have hji : j ≠ i := fun hji => by rw [hji, hfree] at hju; cases hju
    refine hji (hd' j hj i hlt ?_ ?_ ?_)
    · rwa [Function.update_of_ne hji]
    · rwa [Function.update_self]
    · rwa [Function.update_of_ne hji, Function.update_self]
  · -- Two slots of one name: both are the new one, or one of them is, or none.
    intro hnew j hj l hl hju hlu heq
    by_cases hji : j = i <;> by_cases hli : l = i
    · rw [hji, hli]
    · rw [hji, Function.update_self, Function.update_of_ne hli] at heq
      rw [Function.update_of_ne hli] at hlu
      exact absurd heq.symm (hnew l hl hlu)
    · rw [hli, Function.update_self, Function.update_of_ne hji] at heq
      rw [Function.update_of_ne hji] at hju
      exact absurd heq (hnew j hj hju)
    · rw [Function.update_of_ne hji] at hju heq
      rw [Function.update_of_ne hli] at hlu heq
      exact hd j hj l hl hju hlu heq

/-- Each name in use has a zero byte in its field, whatever the sizes of the files are. -/
def NamesEnd (files : Ramfs) : Prop :=
  ∀ i < ramfsMaxFiles, (files i).used → 0 ∈ (files i).name.take vfsMaxFilename

/-- Names that leave room for their terminator end within their fields. -/
theorem NamesInv.namesEnd (hi : NamesInv files) : NamesEnd files := fun i hlt hused =>
  zero_mem_take_iff.mpr ⟨hi.terminated i hlt hused, hi.short i hlt hused⟩

/-- The search returns for a terminated name, and for one that is longer than the names stored. -/
theorem NamesEnd.findFile (hi : NamesEnd files) (hname : 0 ∈ name ∨ name.length = vfsMaxFilename) :
    findFile files name = some (idxOrNeg (slotOf files (cstr name))) := by
  rw [Lightstreak.findFile, slotOf, List.range_eq_range', findFileFrom_eq]
  intro k _ hk hused
  obtain ⟨hterm, hshort⟩ := zero_mem_take_iff.mp (hi k (by omega) hused)
  refine ⟨hterm, hname.imp_right fun hlen => ?_⟩
  rwa [hlen]

/-! ## Creating a file -/

/-- The search looks at the names and the `used` flags only. -/
theorem slotOf_update {files : Ramfs} {i : ℕ} {f : RamfsFile} (hname : f.name = (files i).name)
    (hused : f.used = (files i).used) (s : List UInt8) :
    slotOf (Function.update files i f) s = slotOf files s := by
  unfold slotOf
  congr 1
  funext k
  by_cases hk : k = i
  · rw [hk, Function.update_self, hname, hused]
  · rw [Function.update_of_ne hk]

/-- The name is cut when it is stored, and what remains is the name of a file. -/
def NameClash (files : Ramfs) (name : List UInt8) : Prop :=
  vfsMaxFilename - 1 < (cstr name).length ∧ 0 ≤ findFreeSlot files ∧
    ∃ i < ramfsMaxFiles, (files i).used ∧
      cstr (files i).name = (cstr name).take (vfsMaxFilename - 1)

/-- `ramfs_create` returns if all names end. -/
theorem exists_ramfsCreate (hi : NamesEnd files)
    (hname : 0 ∈ name ∨ name.length = vfsMaxFilename) :
    ∃ r files', ramfsCreate files name = some (r, files') := by
  unfold ramfsCreate
  rw [hi.findFile hname]
  simp only [Option.bind_eq_bind, Option.bind_some]
  split
  · exact ⟨_, _, rfl⟩
  · split
    · exact ⟨_, _, rfl⟩
    · obtain ⟨nm, hnm⟩ := exists_copyName (n := vfsMaxFilename - 1)
        (files (findFreeSlot files).toNat).name (hname.imp_right fun h => by omega)
      exact ⟨_, _, by rw [hnm, Option.bind_some]; rfl⟩

/-- `ramfs_create` keeps the names of the files there are. -/
theorem keepsNames_ramfsCreate (h : ramfsCreate files name = some (r, files')) :
    KeepsNames files files' := by
  rcases ramfsCreate_cases h with ⟨-, rfl, -⟩ | ⟨i, -, -, -, hfree, -, nm, -, rfl⟩
  · exact fun _ hused => ⟨hused, rfl⟩
  · exact keepsNames_update fun hused => by simp [hfree] at hused

/-- A slot with a name that is short enough keeps the names sound. -/
theorem NamesInv.update (hi : NamesInv files) {f : RamfsFile}
    (hinv : RamfsInv (Function.update files i f))
    (hshort : f.used → (cstr f.name).length < vfsMaxFilename) :
    NamesInv (Function.update files i f) where
  toRamfsInv := hinv
  short := forall_update (P := fun g => g.used → (cstr g.name).length < vfsMaxFilename)
    hi.short hshort

/-- `ramfs_create` keeps the names sound. -/
theorem NamesInv.ramfsCreate (hi : NamesInv files) (h : ramfsCreate files name = some (r, files')) :
    NamesInv files' := by
  have hinv := hi.toRamfsInv.ramfsCreate h
  rcases ramfsCreate_cases h with ⟨-, rfl, -⟩ | ⟨i, -, -, -, -, -, nm, hnm, rfl⟩
  · exact hi
  · refine hi.update hinv fun _ => ?_
    rw [cstr_copyName hnm, List.length_take]
    have hmax : vfsMaxFilename = 64 := rfl
    omega

/-- A file is created if its name is not taken and a slot is free. -/
theorem ramfsCreate_nonneg_iff (hi : NamesEnd files)
    (hname : 0 ∈ name ∨ name.length = vfsMaxFilename)
    (h : ramfsCreate files name = some (r, files')) :
    0 ≤ r ↔ slotOf files (cstr name) = none ∧ 0 ≤ findFreeSlot files := by
  have hfind := hi.findFile hname
  rcases ramfsCreate_cases h with ⟨rfl, -, hcase⟩ | ⟨i, -, rfl, hslot, -, ⟨k, hk, hnot⟩, -⟩
  · refine iff_of_false (by omega) ?_
    rintro ⟨hnone, hfree⟩
    rcases hcase with ⟨k, hk, hfound⟩ | hfull
    · obtain rfl := Option.some.inj (hfind.symm.trans hfound)
      exact absurd (idxOrNeg_neg_iff.mpr hnone) (not_lt.mpr hk)
    · omega
  · obtain rfl := Option.some.inj (hfind.symm.trans hnot)
    exact iff_of_true (by omega) ⟨idxOrNeg_neg_iff.mp hk, by omega⟩

/-- A created file has a name of its own if and only if its name does not clash. -/
theorem ramfsCreate_distinctNames_iff (hi : NamesInv files) (hd : DistinctNames files)
    (hname : 0 ∈ name ∨ name.length = vfsMaxFilename)
    (h : ramfsCreate files name = some (r, files')) :
    DistinctNames files' ↔ ¬NameClash files name := by
  have hmax : vfsMaxFilename = 64 := rfl
  have hfind := hi.namesEnd.findFile hname
  rcases ramfsCreate_cases h with ⟨-, hsame, hcase⟩ | ⟨i, hlt, -, hslot, hfree, ⟨k, hk, hnot⟩, nm,
    hnm, rfl⟩
  · rw [hsame]
    refine iff_of_true hd ?_
    rintro ⟨hlong, hroom, -⟩
    rcases hcase with ⟨k, hk, hfound⟩ | hfull
    · -- A name that is found is not longer than the stored one.
      obtain rfl := Option.some.inj (hfind.symm.trans hfound)
      refine absurd (idxOrNeg_neg_iff.mpr (slotOf_eq_none_iff.mpr ?_)) (not_lt.mpr hk)
      intro j hj hused heq
      have hshort := hi.short j hj hused
      rw [heq] at hshort
      omega
    · omega
  · -- The new name is not in use, but the stored one may be.
    obtain rfl := Option.some.inj (hfind.symm.trans hnot)
    have hnew := slotOf_eq_none_iff.mp (idxOrNeg_neg_iff.mp hk)
    rw [hd.create_iff hlt hfree rfl]
    dsimp only
    rw [cstr_copyName hnm]
    constructor
    · rintro hother ⟨-, -, j, hj, hused, heq⟩
      exact hother j hj hused heq
    · -- A stored name that is in use would be a name that was cut.
      intro hno j hj hused heq
      by_cases hlong : vfsMaxFilename - 1 < (cstr name).length
      · exact hno ⟨hlong, by omega, j, hj, hused, heq⟩
      · rw [List.take_of_length_le (by omega)] at heq
        exact hnew j hj hused heq

/-! ## The other operations -/

/-- A write returns unless it leaves the buffer of a used slot. -/
theorem exists_ramfsWrite_iff {fileIdx : ℤ} (hoff : offset < 2 ^ 32) (hlen : len < 2 ^ 32)
    (buf : ℕ → UInt8) :
    (∃ r files', ramfsWrite files fileIdx buf offset len = some (r, files')) ↔
      ∀ i < ramfsMaxFiles, fileIdx = (i : ℤ) → (files i).used →
        offset ≤ ramfsMaxFileSize ∧ offset + len < 2 ^ 32 := by
  constructor
  · rintro ⟨r, files', h⟩ i hlt rfl hused
    by_contra hout
    rw [(ramfsWrite_eq_none_iff hlt hused hoff hlen buf).mpr hout] at h
    cases h
  · intro hok
    have hsome : ramfsWrite files fileIdx buf offset len ≠ none := by
      by_cases hvalid : ∃ i < ramfsMaxFiles, fileIdx = (i : ℤ) ∧ (files i).used
      · obtain ⟨i, hlt, rfl, hused⟩ := hvalid
        rw [ne_eq, ramfsWrite_eq_none_iff hlt hused hoff hlen, not_not]
        exact hok i hlt rfl hused
      · -- A bad index or a slot that is not in use: the call returns `-1`.
        unfold ramfsWrite
        split
        · simp
        next hidx =>
          have hunused : (files fileIdx.toNat).used = false := by
            by_contra hused
            exact hvalid ⟨fileIdx.toNat, by omega, by omega, by simpa using hused⟩
          simp [hunused]
    obtain ⟨⟨r, files'⟩, hq⟩ := Option.ne_none_iff_exists'.mp hsome
    exact ⟨r, files', hq⟩

/-- A write keeps all names. -/
theorem NamesInv.ramfsWrite {fileIdx : ℤ} {buf : ℕ → UInt8} (hi : NamesInv files)
    (h : ramfsWrite files fileIdx buf offset len = some (r, files')) :
    NamesInv files' ∧ KeepsNames files files' ∧ (DistinctNames files → DistinctNames files') := by
  have hinv := hi.toRamfsInv.ramfsWrite h
  rcases ramfsWrite_cases h with rfl | ⟨i, hlt, data, size, hused, -, rfl⟩
  · exact ⟨hi, fun _ hused => ⟨hused, rfl⟩, id⟩
  · refine ⟨hi.update hinv fun _ => hi.short i hlt hused, keepsNames_update fun hu => ⟨hu, rfl⟩,
      fun hd => hd.update rfl rfl⟩

/-- One turn of the loader's loop does to the names what creating the file does. -/
theorem NamesInv.loadEntry {modStart entryPtr : ℕ} {msg : RamfsMsg} (hi : NamesInv files)
    (h : loadEntry mem modStart entryPtr files = some (files', msg)) :
    NamesInv files' ∧ KeepsNames files files' ∧
      (DistinctNames files →
        (DistinctNames files' ↔ ¬NameClash files (mem.bytes entryPtr vfsMaxFilename))) := by
  have hinv := hi.toRamfsInv.loadEntry h
  obtain ⟨-, fsize, idx, files₁, printed, -, -, hcreate, -, hprint, hcases⟩ := loadEntry_cases h
  have hname := ReadMem.zero_mem_bytes_or_length_eq hprint vfsMaxFilename
  have hi₁ := hi.ramfsCreate hcreate
  have hkeep := keepsNames_ramfsCreate hcreate
  have hiff := fun hd => ramfsCreate_distinctNames_iff hi hd hname hcreate
  rcases hcases with rfl | ⟨i, hlt, data, rfl⟩
  · exact ⟨hi₁, hkeep, hiff⟩
  · -- Copying the contents changes no name.
    have hkeep' : KeepsNames files₁ (Function.update files₁ i
        { files₁ i with data := data, size := min ramfsMaxFileSize fsize }) :=
      keepsNames_update fun hu => ⟨hu, rfl⟩
    refine ⟨hi₁.update hinv (hi₁.short i hlt), hkeep.trans hkeep', fun hd => ?_⟩
    rw [← hiff hd]
    exact ⟨fun hd' => not_not.mp (mt hkeep'.not_distinctNames (not_not_intro hd')),
      fun hd' => hd'.update rfl rfl⟩

/-! ## Runs -/

theorem NamesInv.loadStep {modStart entryPtr : ℕ} {q : RamfsMsg × Ramfs} (hi : NamesInv files)
    (h : loadStep mem modStart files entryPtr = some q) : NamesInv q.2 :=
  (hi.loadEntry (loadStep_eq_some h)).1

/-- The image can be read, and no name of its table clashes when the loop comes to it. -/
def LoadsDistinct (mem : ReadMem) (modStart : ℕ) (files : Ramfs) : Prop :=
  ∃ magic, mem.load32 modStart = some magic ∧ (magic = initramfsMagic →
    ∃ fileCount, mem.load32 (add32 modStart 4) = some fileCount ∧
      AlongRun (loadStep mem modStart)
        (fun files entryPtr => (loadStep mem modStart files entryPtr).isSome ∧
          ¬NameClash files (mem.bytes entryPtr vfsMaxFilename))
        files (entryPtrs fileCount (add32 modStart 8)))

/-- The names are different after all turns exactly if no turn had a clash. -/
theorem alongRun_loadStep_iff {modStart : ℕ} (ptrs : List ℕ) (hi : NamesInv files)
    (hd : DistinctNames files) :
    AlongRun (loadStep mem modStart) (fun files entryPtr =>
        (loadStep mem modStart files entryPtr).isSome ∧
          ¬NameClash files (mem.bytes entryPtr vfsMaxFilename)) files ptrs ↔
      ∃ log files', feed (loadStep mem modStart) files ptrs = some (log, files') ∧
        DistinctNames files' := by
  refine alongRun_iff_exists_feed (fun _ => True) NamesInv DistinctNames
    (fun _ _ _ hi h => hi.loadStep h) (fun files p _ hi hd hok => ?_)
    (fun files p q _ hi hd hn h hd' => ?_) (fun files p q hi hd h => ?_) ptrs files
    (fun _ _ => trivial) hi hd
  · obtain ⟨q, hq⟩ := Option.isSome_iff_exists.mp hok.1
    exact ⟨q.1, q.2, hq, ((hi.loadEntry (loadStep_eq_some hq)).2.2 hd).mpr hok.2⟩
  · exact hn ⟨Option.isSome_of_eq_some h, ((hi.loadEntry (loadStep_eq_some h)).2.2 hd).mp hd'⟩
  · exact (hi.loadEntry (loadStep_eq_some h)).2.1.not_distinctNames hd

/-- A call of a run, with the value it returns, `0` for `initramfs_load`. -/
def RamfsOp.call (files : Ramfs) : RamfsOp → Option (ℤ × Ramfs)
  | vfsCreate name => Lightstreak.vfsCreate (some ramfsOps) files name
  | vfsWrite fileIdx buf offset len =>
    Lightstreak.vfsWrite (some ramfsOps) files fileIdx buf offset.toNat len.toNat
  | initramfsLoad mem modStart =>
    (Lightstreak.initramfsLoad mem modStart.toNat files).map fun q => (0, q.1)

/-- The name that the call is given is terminated. -/
def RamfsOp.Terminated : RamfsOp → Prop
  | vfsCreate name => 0 ∈ name
  | vfsWrite .. => True
  | initramfsLoad .. => True

/-- The call creates no file with a name in use, stays inside the buffer it writes to, and can read
the image it loads. -/
def RamfsOp.KeepsDistinct (files : Ramfs) : RamfsOp → Prop
  | vfsCreate name => ¬NameClash files name
  | vfsWrite fileIdx _ offset len => ∀ i < ramfsMaxFiles, fileIdx = (i : ℤ) → (files i).used →
    offset.toNat ≤ ramfsMaxFileSize ∧ offset.toNat + len.toNat < 2 ^ 32
  | initramfsLoad mem modStart => LoadsDistinct mem modStart.toNat files

/-- The same for the whole loader. -/
theorem loadsDistinct_iff {modStart : ℕ} (hi : NamesInv files) (hd : DistinctNames files) :
    LoadsDistinct mem modStart files ↔
      ∃ files' log, initramfsLoad mem modStart files = some (files', log) ∧
        DistinctNames files' := by
  rw [exists_initramfsLoad_iff, LoadsDistinct]
  refine exists_congr fun magic => and_congr_right fun _ => ?_
  simp only [alongRun_loadStep_iff _ hi hd, hd, implies_true, true_and]

/-- A load keeps the names in use, and the invariant. -/
theorem NamesInv.initramfsLoad {modStart : ℕ} {log : List RamfsMsg} (hi : NamesInv files)
    (h : initramfsLoad mem modStart files = some (files', log)) :
    NamesInv files' ∧ KeepsNames files files' := by
  obtain ⟨magic, -, hbad, hgood⟩ :=
    (exists_initramfsLoad_iff _ _ _ (Q := (· = files'))).mp ⟨files', log, h, rfl⟩
  by_cases hmagic : magic = initramfsMagic
  · obtain ⟨n, -, log, _, hfeed, rfl⟩ := hgood hmagic
    exact feed_invariant (fun files' => NamesInv files' ∧ KeepsNames files files')
      (fun _ _ _ hi hr =>
        ⟨hi.1.loadStep hr, hi.2.trans (hi.1.loadEntry (loadStep_eq_some hr)).2.1⟩)
      ⟨hi, fun _ hused => ⟨hused, rfl⟩⟩ hfeed
  · obtain rfl := hbad hmagic
    exact ⟨hi, fun _ hused => ⟨hused, rfl⟩⟩

/-- Every call keeps the names in use, and the invariant. -/
theorem NamesInv.call {op : RamfsOp} {q : ℤ × Ramfs} (hi : NamesInv files)
    (h : op.call files = some q) : NamesInv q.2 ∧ KeepsNames files q.2 := by
  cases op with
  | vfsCreate name => exact ⟨hi.ramfsCreate h, keepsNames_ramfsCreate h⟩
  | vfsWrite fileIdx buf offset len =>
    obtain ⟨hi', hkeep, -⟩ := hi.ramfsWrite h
    exact ⟨hi', hkeep⟩
  | initramfsLoad mem modStart =>
    obtain ⟨q', hq', rfl⟩ := Option.map_eq_some_iff.mp h
    exact hi.initramfsLoad hq'

theorem namesInv_ramfsInit (files : Ramfs) : NamesInv (ramfsInit files).2 where
  toRamfsInv := ramfsInv_ramfsInit files
  short i hi hused := by simp [ramfsInit, hi] at hused

/-- One call on distinct names returns and leaves them distinct if and only if it keeps to the
condition. -/
theorem RamfsOp.keepsDistinct_iff {op : RamfsOp} (hterm : op.Terminated) (hi : NamesInv files)
    (hd : DistinctNames files) :
    op.KeepsDistinct files ↔ ∃ r files', op.call files = some (r, files') ∧
      DistinctNames files' := by
  cases op with
  | vfsCreate name =>
    obtain ⟨r, files', hcreate⟩ := exists_ramfsCreate hi.namesEnd (.inl hterm)
    have hiff := ramfsCreate_distinctNames_iff hi hd (.inl hterm) hcreate
    constructor
    · intro hok
      exact ⟨r, files', hcreate, hiff.mpr hok⟩
    · rintro ⟨r₁, files₁, h, hd'⟩
      obtain ⟨-, rfl⟩ := Prod.mk.inj (Option.some.inj (hcreate.symm.trans h))
      exact hiff.mp hd'
  | vfsWrite fileIdx buf offset len =>
    -- A write that returns has kept the names.
    refine (exists_ramfsWrite_iff offset.toNat_lt len.toNat_lt buf).symm.trans ?_
    constructor
    · rintro ⟨r, files', h⟩
      exact ⟨r, files', h, (hi.ramfsWrite h).2.2 hd⟩
    · rintro ⟨r, files', h, -⟩
      exact ⟨r, files', h⟩
  | initramfsLoad mem modStart =>
    refine (loadsDistinct_iff hi hd).trans ?_
    constructor
    · rintro ⟨files', log, h, hd'⟩
      exact ⟨0, files', by rw [RamfsOp.call, h, Option.map_some], hd'⟩
    · rintro ⟨r, files', h, hd'⟩
      obtain ⟨q, hq, heq⟩ := Option.map_eq_some_iff.mp h
      obtain rfl : q.1 = files' := congrArg Prod.snd heq
      exact ⟨q.1, q.2, hq, hd'⟩

/-- Distinct names, in every run of `vfs_create` with any terminated names, of `vfs_write` and of
`initramfs_load` with any images, from `ramfs_init` on: the calls return and no two files have the
same name, if and only if no name is cut to that of a file when it is created, every write to a file
starts in its buffer and does not wrap, and the images can be read. -/
theorem distinctNames_iff (files₀ : Ramfs) (ops : List RamfsOp)
    (hterm : ∀ op ∈ ops, op.Terminated) :
    (∃ rs files, feed RamfsOp.call (ramfsInit files₀).2 ops = some (rs, files) ∧
        DistinctNames files) ↔
      AlongRun RamfsOp.call RamfsOp.KeepsDistinct (ramfsInit files₀).2 ops := by
  have hd₀ : DistinctNames (ramfsInit files₀).2 := by
    intro i hi j hj hused
    simp [ramfsInit, hi] at hused
  refine (alongRun_iff_exists_feed RamfsOp.Terminated NamesInv DistinctNames
    (fun _ _ _ hi h => (hi.call h).1) (fun files op hop hi hd hok => ?_)
    (fun files op q hop hi hd hn h hd' => ?_) (fun files op q hi hd h => ?_) ops _ hterm
    (namesInv_ramfsInit files₀) hd₀).symm
  · exact (op.keepsDistinct_iff hop hi hd).mp hok
  · exact hn ((op.keepsDistinct_iff hop hi hd).mpr ⟨q.1, q.2, h, hd'⟩)
  · exact (hi.call h).2.not_distinctNames hd

/-- Two files with names of one byte. -/
theorem distinctNames_iff_twoFiles :
    ∃ rs files, feed RamfsOp.call (ramfsInit fun _ => ⟨[], fun _ => 0, 0, false⟩).2
        [.vfsCreate [0x61, 0], .vfsCreate [0x62, 0]] = some (rs, files) ∧ DistinctNames files := by
  refine (distinctNames_iff _ [.vfsCreate [0x61, 0], .vfsCreate [0x62, 0]] ?_).mpr ?_
  · simp [RamfsOp.Terminated]
  · -- No name is cut, whatever the files are.
    refine ⟨fun h => absurd h.1 (by decide), fun _ _ => ⟨fun h => absurd h.1 (by decide), ?_⟩⟩
    exact fun _ _ => trivial

/-- A name of 64 bytes is created twice, and both files are named by its first 63 bytes. -/
theorem not_distinctNames_longName :
    ∃ rs files, feed RamfsOp.call (ramfsInit fun _ => ⟨[], fun _ => 0, 0, false⟩).2
        [.vfsCreate (List.replicate 64 0x61 ++ [0]), .vfsCreate (List.replicate 64 0x61 ++ [0])] =
          some (rs, files) ∧
      rs = [0, 1] ∧ (files 0).used ∧ (files 1).used ∧
      cstr (files 0).name = List.replicate 63 0x61 ∧ cstr (files 1).name = List.replicate 63 0x61 ∧
      ¬DistinctNames files := by
  refine ⟨_, _, rfl, by decide, by decide, by decide, by decide, by decide, fun hd => ?_⟩
  exact absurd (hd 0 (by decide) 1 (by decide) (by decide) (by decide) (by decide)) (by decide)

end Lightstreak
