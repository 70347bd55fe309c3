import Lightstreak.Fs.RamfsNames

/-!
# Opening what was created

`ramfs_create` stores the first 63 bytes of a name as they are; `ramfs_open` looks for the whole
name, without one leading slash. The two agree on names that are short and have no such slash, and
on one more, of slashes only.

* `opensAs_iff`: what a file needs to be opened by its name, and to be the only one of that name;
* `OpensAs.of_keepsNames`: it stays so while the files in use keep their names, because the slots
  before it are in use;
* `created_opens_iff`: a file that was just created is opened by its name, then and after any
  creations and writes, if and only if its name is stored as it is looked up, and the writes stay in
  their buffers.
-/

namespace Lightstreak

open SysLib

variable {files files' files₁ : Ramfs} {idx : ℕ}

/-- A string argument: the bytes that may be read from a pointer on, with a terminator. -/
abbrev CString := {s : List UInt8 // 0 ∈ s}

variable {name : CString}

/-! ## A file that is opened by its name -/

/-- The file in slot `idx` is the one of that name: `vfs_open` returns it, and `vfs_create` refuses
to create another. -/
structure OpensAs (files : Ramfs) (name : CString) (idx : ℕ) : Prop where
  /-- `vfs_open` returns the slot. -/
  opens : vfsOpen (some ramfsOps) files name = some (idx : ℤ)
  /-- `vfs_create` returns -1. -/
  refused : ∃ files', vfsCreate (some ramfsOps) files name = some (-1, files')

/-- The two results in terms of the names in the slots. -/
theorem opensAs_iff (hi : NamesInv files) : OpensAs files name idx ↔
    slotOf files (dropSlash (cstr name)) = some idx ∧
      (slotOf files (cstr name) ≠ none ∨ ∀ j < ramfsMaxFiles, (files j).used) := by
  have hopen : vfsOpen (some ramfsOps) files name = some (idx : ℤ) ↔
      slotOf files (dropSlash (cstr name)) = some idx := by
    have heq : vfsOpen (some ramfsOps) files name = _ := ramfsOpen_eq hi.toRamfsInv name.2
    rw [heq, Option.some_inj, idxOrNeg_eq_natCast_iff]
  obtain ⟨r, files', hcreate⟩ := exists_ramfsCreate hi.namesEnd (.inl name.2)
  have hnonneg := ramfsCreate_nonneg_iff hi.namesEnd (.inl name.2) hcreate
  rw [← not_iff_not, not_and_or, not_le (a := 0) (b := findFreeSlot files),
    findFreeSlot_neg_iff] at hnonneg
  constructor
  · rintro ⟨hopens, files₂, hrefused⟩
    obtain ⟨rfl, -⟩ := Prod.mk.inj (Option.some.inj (hcreate.symm.trans hrefused))
    exact ⟨hopen.mp hopens, hnonneg.mp (by decide)⟩
  · rintro ⟨hslot, hrefused⟩
    refine ⟨hopen.mpr hslot, files', ?_⟩
    -- A creation that fails returns `-1`.
    rcases ramfsCreate_cases hcreate with ⟨rfl, -⟩ | ⟨k, -, rfl, -⟩
    · exact hcreate
    · exact absurd (Int.natCast_nonneg k) (hnonneg.mpr hrefused)

/-- The slots before `idx` are in use, so no later file comes before the one in it. -/
theorem OpensAs.of_keepsNames (h : OpensAs files name idx) (hi : NamesInv files)
    (hi' : NamesInv files') (hkeep : KeepsNames files files') (hlow : ∀ j < idx, (files j).used) :
    OpensAs files' name idx := by
  rw [opensAs_iff hi, slotOf_eq_some_iff] at h
  rw [opensAs_iff hi', slotOf_eq_some_iff]
  obtain ⟨⟨hlt, ⟨hused, hname⟩, hfirst⟩, hrefused⟩ := h
  refine ⟨⟨hlt, ⟨(hkeep idx hused).1, by rw [(hkeep idx hused).2, hname]⟩, fun j hj _ => ?_⟩, ?_⟩
  · rw [(hkeep j (hlow j hj)).2]
    exact hfirst j hj (hlow j hj)
  · refine hrefused.imp (fun hsome hnone => hsome ?_) fun hall j hj => (hkeep j (hall j hj)).1
    rw [slotOf_eq_none_iff] at hnone ⊢
    intro j hj hjused
    rw [← (hkeep j hjused).2]
    exact hnone j hj (hkeep j hjused).1

/-! ## The file that was just created -/

/-- The name is stored as it is looked up: it fits its field and has no slash in front. -/
def PlainName (name : List UInt8) : Prop :=
  (cstr name).length < vfsMaxFilename ∧ (cstr name).head? ≠ some '/'.toUInt8

/-- A name of 64 slashes, which loses its last byte when it is stored and its first when it is
looked up. Such a file is opened if none before it has that name, and only a lack of slots keeps a
second one from being created. -/
def SlashesOnly (files : Ramfs) (name : List UInt8) (idx : ℕ) : Prop :=
  cstr name = List.replicate vfsMaxFilename '/'.toUInt8 ∧
    (∀ j < ramfsMaxFiles, j ≠ idx → (files j).used) ∧
    ∀ j < idx, cstr (files j).name ≠ List.replicate (vfsMaxFilename - 1) '/'.toUInt8

/-- A list that loses nothing by a new head and a cut is made of that head only. -/
theorem take_cons_eq_iff {α : Type*} {c : α} {l : List α} {n : ℕ} :
    (c :: l).take n = l ↔ l = List.replicate n c := by
  induction n generalizing l with
  | zero => rw [List.take_zero, List.replicate_zero, eq_comm]
  | succ n ih =>
    cases l with
    | nil => simp [List.replicate_succ]
    | cons d l =>
      rw [List.take_succ_cons, List.replicate_succ, List.cons.injEq, List.cons.injEq]
      constructor
      · rintro ⟨rfl, htake⟩
        exact ⟨rfl, ih.mp htake⟩
      · rintro ⟨rfl, hrep⟩
        exact ⟨rfl, ih.mpr hrep⟩

/-- What is stored of a string is what is looked up. -/
theorem dropSlash_eq_take_iff {s : List UInt8} {n : ℕ} : dropSlash s = s.take n ↔
    s.length ≤ n ∧ s.head? ≠ some '/'.toUInt8 ∨ s = List.replicate (n + 1) '/'.toUInt8 := by
  cases s with
  | nil => simp [dropSlash]
  | cons c s =>
    by_cases hc : c = '/'.toUInt8
    · -- The slash goes, and the last byte must.
      subst hc
      rw [dropSlash, if_pos rfl, eq_comm, take_cons_eq_iff, List.replicate_succ, List.cons.injEq]
      simp
    · rw [dropSlash, if_neg hc, eq_comm, List.take_eq_self_iff]
      simp [hc, List.replicate_succ]

/-- A new file is the one found for a string if and only if that is its name, and no slot before it
has it. -/
theorem slotOf_update_iff {f : RamfsFile} (hlt : idx < ramfsMaxFiles)
    (hlow : ∀ j < idx, (files j).used) (hused : f.used) (s : List UInt8) :
    slotOf (Function.update files idx f) s = some idx ↔
      s = cstr f.name ∧ ∀ j < idx, cstr (files j).name ≠ s := by
  rw [slotOf_eq_some_iff, Function.update_self]
  simp only [hused, hlt, true_and, eq_comm (a := s)]
  refine and_congr_right fun _ => forall₂_congr fun j hj => ?_
  rw [Function.update_of_ne hj.ne]
  exact ⟨fun hne => hne (hlow j hj), fun hne _ => hne⟩

/-- All slots are in use with a new file if and only if all others are. -/
theorem used_update_iff {f : RamfsFile} (hused : f.used) :
    (∀ j < ramfsMaxFiles, (Function.update files idx f j).used) ↔
      ∀ j < ramfsMaxFiles, j ≠ idx → (files j).used := by
  refine forall₂_congr fun j hj => ?_
  by_cases hji : j = idx
  · simp [hji, hused]
  · simp [hji]

/-- Right after it was created, a file is opened by its name if and only if the name is stored as it
is looked up. -/
theorem opensAs_created_iff (hi : NamesInv files)
    (h : ramfsCreate files name = some ((idx : ℤ), files₁)) :
    OpensAs files₁ name idx ↔ PlainName name ∨ SlashesOnly files name idx := by
  have hmax : vfsMaxFilename - 1 + 1 = vfsMaxFilename := rfl
  have hi₁ := hi.ramfsCreate h
  obtain ⟨hnew, -⟩ := (ramfsCreate_nonneg_iff hi.namesEnd (.inl name.2) h).mp (by omega)
  rcases ramfsCreate_cases h with ⟨hneg, -⟩ | ⟨i, hlt, hidx, hslot, -, -, nm, hnm, rfl⟩
  · omega
  obtain rfl : idx = i := by omega
  have hlow : ∀ j < idx, (files j).used := (findFreeSlot_eq_iff.mp hslot).2.2
  have hfound := slotOf_update_iff (f := { files idx with name := nm, size := 0, used := true }) hlt
    hlow rfl
  rw [show cstr nm = _ from cstr_copyName hnm] at hfound
  rw [opensAs_iff hi₁, hfound, dropSlash_eq_take_iff, hmax, used_update_iff rfl, PlainName]
  rw [slotOf_eq_none_iff] at hnew
  constructor
  · rintro ⟨⟨hplain | hslashes, hfirst⟩, hrefused⟩
    · exact .inl ⟨by omega, hplain.2⟩
    · -- No name of 64 bytes is stored, so the second file is refused for lack of a slot.
      refine .inr ⟨hslashes, hrefused.resolve_left fun hsome => hsome ?_, fun j hj => ?_⟩
      · refine slotOf_eq_none_iff.mpr fun j hj hused heq => ?_
        have hshort := hi₁.short j hj hused
        rw [heq, hslashes, List.length_replicate] at hshort
        exact lt_irrefl _ hshort
      · have hne := hfirst j hj
        rwa [hslashes, ← hmax, List.replicate_succ, dropSlash, if_pos rfl] at hne
  · rintro (⟨hshort, hhead⟩ | ⟨hslashes, hall, hfirst⟩)
    · -- The name is looked up as it was given, by both calls.
      have hplain : (cstr name).length ≤ vfsMaxFilename - 1 := by omega
      have htake : (cstr name).take (vfsMaxFilename - 1) = cstr name :=
        List.take_of_length_le hplain
      have hdrop : dropSlash (cstr name) = cstr name :=
        (dropSlash_eq_take_iff.mpr (.inl ⟨hplain, hhead⟩)).trans htake
      have hbefore : ∀ j < idx, cstr (files j).name ≠ cstr name := fun j hj =>
        hnew j (hj.trans hlt) (hlow j hj)
      refine ⟨⟨.inl ⟨hplain, hhead⟩, by rwa [hdrop]⟩, .inl ?_⟩
      rw [(hfound _).mpr ⟨htake.symm, hbefore⟩]
      exact Option.some_ne_none _
    · refine ⟨⟨.inr hslashes, ?_⟩, .inr hall⟩
      rwa [hslashes, ← hmax, List.replicate_succ, dropSlash, if_pos rfl]

/-! ## Runs -/

/-- A call that adds to the filesystem. -/
inductive FillCall
  | vfsCreate (name : CString)
  | vfsWrite (fileIdx : ℤ) (buf : ℕ → UInt8) (offset len : UInt32)

/-- The call as one of those that fill the filesystem. -/
def FillCall.toRamfsOp : FillCall → RamfsOp
  | vfsCreate name => .vfsCreate name
  | vfsWrite fileIdx buf offset len => .vfsWrite fileIdx buf offset len

/-- A call of a run, with the value it returns. -/
def FillCall.call (files : Ramfs) (c : FillCall) : Option (ℤ × Ramfs) := c.toRamfsOp.call files

/-- A write to a file starts in its buffer, and its end does not wrap. -/
def FillCall.InBuffer (files : Ramfs) : FillCall → Prop
  | vfsCreate _ => True
  | vfsWrite fileIdx _ offset len => ∀ i < ramfsMaxFiles, fileIdx = (i : ℤ) → (files i).used →
    offset.toNat ≤ ramfsMaxFileSize ∧ offset.toNat + len.toNat < 2 ^ 32

/-- A call returns if and only if it stays in its buffer. -/
theorem FillCall.exists_call_iff (hi : NamesInv files) (c : FillCall) :
    (∃ r files', c.call files = some (r, files')) ↔ c.InBuffer files := by
  cases c with
  | vfsCreate name => exact iff_of_true (exists_ramfsCreate hi.namesEnd (.inl name.2)) trivial
  | vfsWrite fileIdx buf offset len =>
    exact exists_ramfsWrite_iff offset.toNat_lt len.toNat_lt buf

/-- A created file can be opened: from every state of the filesystem, for every terminated name for
which `vfs_create` returns a slot, and every sequence of further calls, all calls return and right
after the creation and after each of them `vfs_open` returns that slot and `vfs_create` refuses the
name, if and only if the name is stored as it is looked up and every write stays in its buffer. -/
theorem created_opens_iff (hi : NamesInv files) (name : CString)
    (hcreate : vfsCreate (some ramfsOps) files name = some ((idx : ℤ), files₁))
    (calls : List FillCall) :
    (∀ n, ∃ rs files₂, feed FillCall.call files₁ (calls.take n) = some (rs, files₂) ∧
        OpensAs files₂ name idx) ↔
      (PlainName name ∨ SlashesOnly files name idx) ∧
        AlongRun FillCall.call FillCall.InBuffer files₁ calls := by
  have h : ramfsCreate files name = some ((idx : ℤ), files₁) := hcreate
  have hopens := opensAs_created_iff hi h
  have hlow : ∀ j < idx, (files₁ j).used := by
    intro j hj
    rcases ramfsCreate_cases h with ⟨hneg, -⟩ | ⟨i, -, hidx, hslot, -⟩
    · omega
    · obtain rfl : idx = i := by omega
      exact (keepsNames_ramfsCreate h j ((findFreeSlot_eq_iff.mp hslot).2.2 j hj)).1
  -- What holds along the run if it holds at its start.
  have hrun : OpensAs files₁ name idx → (AlongRun FillCall.call FillCall.InBuffer files₁ calls ↔
      ∀ n, ∃ rs files₂, feed FillCall.call files₁ (calls.take n) = some (rs, files₂) ∧
        OpensAs files₂ name idx) := fun hok => alongRun_iff_feed_take
    (fun files => NamesInv files ∧ (∀ j < idx, (files j).used) ∧ OpensAs files name idx)
    (fun files => OpensAs files name idx) (fun _ hs => hs.2.2)
    (fun files c hs hok => by
      obtain ⟨r, files', hcall⟩ := (c.exists_call_iff hs.1).mpr hok
      obtain ⟨hi', hkeep⟩ := hs.1.call hcall
      exact ⟨r, files', hcall, hi', fun j hj => (hkeep j (hs.2.1 j hj)).1,
        hs.2.2.of_keepsNames hs.1 hi' hkeep hs.2.1⟩)
    (fun files c hs hn => by
      by_contra hsome
      obtain ⟨⟨r, files'⟩, hcall⟩ := Option.ne_none_iff_exists'.mp hsome
      exact hn ((c.exists_call_iff hs.1).mp ⟨r, files', hcall⟩))
    calls files₁ ⟨hi.ramfsCreate h, hlow, hok⟩
  rw [← hopens]
  constructor
  · intro hall
    -- The empty sequence of calls leaves the file as it was created.
    obtain ⟨rs, files₂, hfeed, hok⟩ := hall 0
    obtain ⟨-, rfl⟩ := Prod.mk.inj (Option.some.inj hfeed)
    exact ⟨hok, (hrun hok).mpr hall⟩
  · rintro ⟨hok, hbuf⟩
    exact (hrun hok).mp hbuf

/-- The filesystem as `ramfs_init` leaves it. -/
def noFiles : Ramfs := (ramfsInit fun _ => ⟨[], fun _ => 0, 0, false⟩).2

/-- A file of the name `a`, to which four bytes are written. -/
theorem created_opens_iff_oneFile :
    ∃ files₁ rs files₂, vfsCreate (some ramfsOps) noFiles [0x61, 0] = some (0, files₁) ∧
      feed FillCall.call files₁ [.vfsWrite 0 (fun _ => 0x41) 0 4] = some (rs, files₂) ∧
      OpensAs files₂ ⟨[0x61, 0], by decide⟩ 0 := by
  obtain ⟨files₁, hcreate⟩ : ∃ files₁,
      vfsCreate (some ramfsOps) noFiles [0x61, 0] = some (((0 : ℕ) : ℤ), files₁) := ⟨_, rfl⟩
  have hplain : PlainName [0x61, 0] := ⟨by decide, by decide⟩
  obtain ⟨rs, files₂, hfeed, hopens⟩ := (created_opens_iff (namesInv_ramfsInit _)
    ⟨[0x61, 0], by decide⟩ hcreate [.vfsWrite 0 (fun _ => 0x41) 0 4]).mpr
      ⟨.inl hplain, fun _ _ _ _ => ⟨by decide, by decide⟩, fun _ _ => trivial⟩ 1
  exact ⟨files₁, rs, files₂, hcreate, hfeed, hopens⟩

/-- A file that was created with a leading slash is not found under its name. -/
theorem not_opensAs_slashName :
    ∃ files₁, vfsCreate (some ramfsOps) noFiles [0x2F, 0x61, 0] = some (0, files₁) ∧
      ¬OpensAs files₁ ⟨[0x2F, 0x61, 0], by decide⟩ 0 := by
  have hopen : (vfsCreate (some ramfsOps) noFiles [0x2F, 0x61, 0]).bind
      (fun q => vfsOpen (some ramfsOps) q.2 [0x2F, 0x61, 0]) = some (-1) := by decide
  obtain ⟨files₁, hcreate⟩ : ∃ files₁,
      vfsCreate (some ramfsOps) noFiles [0x2F, 0x61, 0] = some (0, files₁) := ⟨_, rfl⟩
  refine ⟨files₁, hcreate, fun hopens => ?_⟩
  have hfound : vfsOpen (some ramfsOps) files₁ [0x2F, 0x61, 0] = some 0 := hopens.opens
  rw [hcreate, Option.bind_some, hfound] at hopen
  cases hopen

end Lightstreak
