import Lightstreak.Mm.VmmIdentity

/-!
# Access rights of mappings

An access right holds in a page walk when the directory entry and the table entry both grant it.
`vmm_map_page` writes the flags it is given to the table entry. A directory entry it creates grants
everything, but those of the first 8 MB come from `vmm_init`, and user directories copy them: they
grant no access to user mode, whatever is mapped through them.

Directories and tables are read and written at their physical addresses throughout, also after a
call has mapped a page below 8 MB to another frame or unmapped it. The kernel reaches them through
that very region: once the page of a directory or a table is remapped there, its accesses go to the
frame the page is mapped to instead, and the results speak of the tables in physical memory.

The results are about every directory, the kernel's included. A table that `vmm_map_page` creates in
the kernel directory is shared by the user directories created later, so that the invariant is
weaker than `VmmInv`: it says what each directory entry may be and nothing about sharing.

* `DirectoriesInv.step`: each entry of a directory leads to a table of the identity region, without
  user access, or is empty, or leads to another table with all rights;
* `walk_vmmMapPage`: the translation of a page right after it is mapped;
* `mapPage_grants_iff`: it has the rights asked for exactly from 8 MB on, or when no user access was
  asked for.
-/

namespace Lightstreak

open SysLib SysLib.Paging

variable {l : VmmLayout} {s s' : VmmSystem} {d t i j v frame : ℕ}

/-! ## Calls on all directories -/

/-- The kernel directory, or a user directory. -/
def VmmSystem.IsDirectory (s : VmmSystem) (l : VmmLayout) (d : ℕ) : Prop :=
  d = l.kernelDir ∨ d ∈ s.dirs

/-- Like `VmmOp.Legal`, with the kernel directory among those a call may be made on. -/
def VmmOp.LegalAny (l : VmmLayout) (s : VmmSystem) : VmmOp → Prop
  | .createUserDirectory frame => frame = 0 ∨ s.Fresh l frame
  | .mapPage dir virt _ _ frame ok => s.IsDirectory l dir ∧ (frame = 0 ∨ s.Fresh l frame) ∧
    (ok = false ↔ NeedsTable s.vmm dir virt.toNat ∧ frame = 0)
  | .unmapPage dir _ => s.IsDirectory l dir

/-- One such call. It finds directories and tables at their physical addresses, even when an earlier
call has remapped a page below 8 MB. -/
def VmmAnyStep (l : VmmLayout) (s : VmmSystem) (op : VmmOp) (t : VmmSystem) : Prop :=
  op.LegalAny l s ∧ t = op.exec l s

/-! ## What directory entries may be -/

/-- The flags of a directory entry that is present: those of the first 8 MB grant no user access. -/
def dirFlags (i : ℕ) : ℕ := if i < 2 then 3 else 7

theorem dirFlags_lt (i : ℕ) : dirFlags i < 4096 := by
  unfold dirFlags
  split <;> decide

theorem dirFlags_present (i : ℕ) : (dirFlags i).testBit 0 = true := by
  unfold dirFlags
  split <;> decide

theorem dirFlags_writable (i : ℕ) : (dirFlags i).testBit 1 = true := by
  unfold dirFlags
  split <;> decide

/-- Directory entries above 8 MB have the user flag. -/
theorem dirFlags_user (i : ℕ) : (dirFlags i).testBit 2 = decide (2 ≤ i) := by
  unfold dirFlags
  split
  next h => simp [show ¬2 ≤ i by omega]; decide
  next h => simp [show 2 ≤ i by omega]; decide

/-- Directories and tables are separate frames. Every directory has the two entries of the identity
region, and each other entry is empty or leads to a table. -/
structure DirectoriesInv (l : VmmLayout) (s : VmmSystem) : Prop where
  /-- A directory is a frame of its own. -/
  dirs_frame : ∀ d ∈ s.dirs, IsFrame d ∧ d ∉ l.frames ∧ d ∉ s.tables
  /-- A table is a frame of its own. -/
  tables_frame : ∀ t ∈ s.tables, IsFrame t ∧ t ∉ l.frames
  /-- The first two entries of every directory are the kernel's, without the user flag. -/
  low_entry : ∀ d, s.IsDirectory l d → ∀ i < 2, word s.vmm.mem d i = l.lowTable i ||| 3
  /-- The other entries are empty, or lead to a table with the user flag. -/
  high_entry : ∀ d, s.IsDirectory l d → ∀ i < 1024, 2 ≤ i →
    word s.vmm.mem d i = 0 ∨ ∃ t ∈ s.tables, word s.vmm.mem d i = t ||| 7

/-- After `vmm_init` there is only the kernel directory. -/
theorem directoriesInv_vmmBoot (l : VmmLayout) (s : VmmState) :
    DirectoriesInv l (vmmBoot l s) := by
  have hk := (vmmInv_vmmBoot l s).kernel_entry
  have hdir : ∀ d, (vmmBoot l s).IsDirectory l d → d = l.kernelDir := fun d hd =>
    hd.resolve_right (by simp [vmmBoot])
  refine ⟨by simp [vmmBoot], by simp [vmmBoot], fun d hd i h2 => ?_, fun d hd i hlt h2 => .inl ?_⟩
  · rw [hdir d hd, hk i (by omega), VmmLayout.kernelPde, if_pos h2]
  · rw [hdir d hd, hk i hlt, VmmLayout.kernelPde, if_neg (by omega)]

namespace DirectoriesInv

theorem isFrame (hi : DirectoriesInv l s) (hd : s.IsDirectory l d) : IsFrame d := by
  rcases hd with rfl | hd
  exacts [l.isFrame_dir, (hi.dirs_frame d hd).1]

theorem not_table (hi : DirectoriesInv l s) (hd : s.IsDirectory l d) : d ∉ s.tables := by
  rcases hd with rfl | hd
  · exact fun h => (hi.tables_frame _ h).2 (VmmLayout.mem_frames.mpr (.inl rfl))
  · exact (hi.dirs_frame d hd).2.2

/-- No directory is a low table. -/
theorem ne_lowTable (hi : DirectoriesInv l s) (hd : s.IsDirectory l d) (i : ℕ) :
    d ≠ l.lowTable i := by
  rcases hd with rfl | hd
  · exact (l.lowTable_ne_kernelDir i).symm
  · exact fun h => (hi.dirs_frame d hd).2.1 (h ▸ l.lowTable_mem_frames i)

/-- A fresh frame is no directory. -/
theorem ne_fresh (hd : s.IsDirectory l d) (hf : s.Fresh l frame) : d ≠ frame := by
  obtain ⟨-, -, hfl, hfd, -⟩ := hf
  rcases hd with rfl | hd
  · exact fun h => hfl (VmmLayout.mem_frames.mpr (.inl h.symm))
  · exact fun h => hfd (h ▸ hd)

/-- An entry of a directory is empty or leads to a table, which is no directory. -/
theorem leads (hi : DirectoriesInv l s) (hd : s.IsDirectory l d) (hlt : i < 1024) :
    (2 ≤ i ∧ word s.vmm.mem d i = 0) ∨
      ∃ t, IsFrame t ∧ ¬s.IsDirectory l t ∧ word s.vmm.mem d i = t ||| dirFlags i := by
  rcases Nat.lt_or_ge i 2 with h2 | h2
  · refine .inr ⟨l.lowTable i, l.isFrame_lowTable i, fun h => hi.ne_lowTable h i rfl, ?_⟩
    rw [hi.low_entry d hd i h2, dirFlags, if_pos h2]
  · rcases hi.high_entry d hd i hlt h2 with h0 | ⟨t, ht, hpt⟩
    · exact .inl ⟨h2, h0⟩
    · refine .inr ⟨t, (hi.tables_frame t ht).1, fun h => hi.not_table h ht, ?_⟩
      rw [hpt, dirFlags, if_neg (by omega)]

/-- The invariant speaks about the words of the directories only. -/
theorem congr (hi : DirectoriesInv l s) (hdirs : s'.dirs = s.dirs) (htables : s'.tables = s.tables)
    (hword : ∀ d, s.IsDirectory l d → ∀ i < 1024, word s'.vmm.mem d i = word s.vmm.mem d i) :
    DirectoriesInv l s' := by
  have hdir : ∀ d, s'.IsDirectory l d → s.IsDirectory l d := fun d => by
    simp only [VmmSystem.IsDirectory, hdirs, imp_self]
  refine ⟨by rw [hdirs, htables]; exact hi.dirs_frame, by rw [htables]; exact hi.tables_frame,
    fun d hd i h2 => ?_, fun d hd i hlt h2 => ?_⟩
  · rw [hword d (hdir d hd) i (by omega)]
    exact hi.low_entry d (hdir d hd) i h2
  · rw [hword d (hdir d hd) i hlt, htables]
    exact hi.high_entry d (hdir d hd) i hlt h2

/-- Writing a table entry keeps the invariant. -/
theorem setWord (hi : DirectoriesInv l s) (hdirs : s'.dirs = s.dirs)
    (htables : s'.tables = s.tables) (ht : IsFrame t) (hnd : ¬s.IsDirectory l t) (hj : j < 1024)
    (hv : v < 2 ^ 32) (hmem : s'.vmm.mem = Paging.setWord s.vmm.mem t j v) :
    DirectoriesInv l s' := by
  refine hi.congr hdirs htables fun d hd i hlt => ?_
  rw [hmem, word_setWord ht.1 (hi.isFrame hd).1 hj hlt hv, if_neg]
  rintro ⟨rfl, -⟩
  exact hnd hd

/-- Creating a directory keeps the invariant: it gets the entries of the kernel directory. -/
theorem createUserDirectory (hi : DirectoriesInv l s) (hf : s.Fresh l frame) :
    DirectoriesInv l ((VmmOp.createUserDirectory frame).exec l s) := by
  have hkernel : s.IsDirectory l l.kernelDir := .inl rfl
  have hdirs : ((VmmOp.createUserDirectory frame).exec l s).dirs = insert frame s.dirs := by
    simp only [VmmOp.exec, if_neg hf.1]
  -- Every directory afterwards has the entries that some directory had before.
  have hword : ∀ d, ((VmmOp.createUserDirectory frame).exec l s).IsDirectory l d →
      ∃ d₀, s.IsDirectory l d₀ ∧ ∀ i < 1024,
        word ((VmmOp.createUserDirectory frame).exec l s).vmm.mem d i = word s.vmm.mem d₀ i := by
    intro d hd
    simp only [VmmOp.exec, vmmCreateUserDirectory, if_neg hf.1]
    by_cases hdf : d = frame
    · refine ⟨l.kernelDir, hkernel, fun i hlt => ?_⟩
      rw [hdf, word_copyWords hf.2.1.1 hf.2.1.1 l.isFrame_dir.1 le_rfl hlt, if_pos ⟨rfl, hlt⟩]
    · have hold : s.IsDirectory l d := hd.imp_right fun h => by
        rw [hdirs, Finset.mem_insert] at h
        exact h.resolve_left hdf
      refine ⟨d, hold, fun i hlt => ?_⟩
      rw [word_copyWords hf.2.1.1 (hi.isFrame hold).1 l.isFrame_dir.1 le_rfl hlt,
        if_neg fun h => hdf h.1]
  refine ⟨?_, hi.tables_frame, fun d hd i h2 => ?_, fun d hd i hlt h2 => ?_⟩
  · rw [hdirs]
    exact (Finset.forall_mem_insert _ _ _).mpr
      ⟨⟨hf.2.1, hf.2.2.1, hf.2.2.2.2⟩, hi.dirs_frame⟩
  · obtain ⟨d₀, hd₀, heq⟩ := hword d hd
    rw [heq i (by omega)]
    exact hi.low_entry d₀ hd₀ i h2
  · obtain ⟨d₀, hd₀, heq⟩ := hword d hd
    rw [heq i hlt]
    exact hi.high_entry d₀ hd₀ i hlt h2

/-- Creating a page table in a fresh frame keeps the invariant. -/
theorem newTable {virt phys flags : ℕ} (hi : DirectoriesInv l s) (hd : s.IsDirectory l d)
    (hf : s.Fresh l frame) (h2 : 2 ≤ vmmDirIdx virt)
    (hpde : word s.vmm.mem d (vmmDirIdx virt) = 0)
    (hvmm : s'.vmm = vmmMapPage s.vmm d virt phys flags frame) (hdirs : s'.dirs = s.dirs)
    (htables : s'.tables = insert frame s.tables) : DirectoriesInv l s' := by
  have hdir : ∀ d', s'.IsDirectory l d' → s.IsDirectory l d' := fun d' => by
    simp only [VmmSystem.IsDirectory, hdirs, imp_self]
  -- The new table is empty, and one entry of the directory `d` leads to it.
  have hword : ∀ d', s.IsDirectory l d' → ∀ j < 1024, word s'.vmm.mem d' j =
      if d' = d ∧ j = vmmDirIdx virt then frame ||| 7 else word s.vmm.mem d' j := by
    intro d' hd' j hj
    rw [hvmm, word_vmmMapPage_of_absent hf.2.1 hf.1 (hi.isFrame hd) (ne_fresh hd hf) rfl
      (vmmDirIdx_lt _) hpde (hi.isFrame hd') hj, if_neg (ne_fresh hd' hf)]
  refine ⟨fun d' hd' => ?_, ?_, fun d' hd' j hj => ?_, fun d' hd' j hj hj2 => ?_⟩
  · rw [hdirs] at hd'
    obtain ⟨hframe, hnf, hnt⟩ := hi.dirs_frame d' hd'
    rw [htables]
    exact ⟨hframe, hnf, by simp [ne_fresh (.inr hd') hf, hnt]⟩
  · rw [htables]
    exact (Finset.forall_mem_insert _ _ _).mpr ⟨⟨hf.2.1, hf.2.2.1⟩, hi.tables_frame⟩
  · rw [hword d' (hdir d' hd') j (by omega), if_neg (by omega)]
    exact hi.low_entry d' (hdir d' hd') j hj
  · rw [hword d' (hdir d' hd') j hj, htables]
    split
    · exact .inr ⟨frame, Finset.mem_insert_self _ _, rfl⟩
    · rcases hi.high_entry d' (hdir d' hd') j hj hj2 with h | ⟨t, ht, h⟩
      exacts [.inl h, .inr ⟨t, Finset.mem_insert_of_mem ht, h⟩]

/-- Every call keeps the invariant. -/
theorem step (hi : DirectoriesInv l s) {op : VmmOp} (hstep : VmmAnyStep l s op s') :
    DirectoriesInv l s' := by
  obtain ⟨hlegal, rfl⟩ := hstep
  cases op with
  | createUserDirectory frame =>
    rcases hlegal with rfl | hf
    · exact hi.congr rfl rfl fun _ _ _ _ => rfl
    · exact hi.createUserDirectory hf
  | mapPage dir virt phys flags frame ok =>
    obtain ⟨hdir, hframe, -⟩ := hlegal
    rcases hi.leads hdir (vmmDirIdx_lt virt.toNat) with ⟨h2, h0⟩ | ⟨t, ht, hnd, hpde⟩
    · have hneeds : NeedsTable s.vmm dir virt.toNat := by rw [NeedsTable, h0, Nat.zero_and]
      rcases hframe with rfl | hf
      · -- No frame for a table: only a message is printed.
        refine hi.congr rfl (by simp [VmmOp.exec]) fun _ _ _ _ => ?_
        simp only [VmmOp.exec, vmmMapPage, h0, Nat.zero_and, ↓reduceIte]
      · exact hi.newTable hdir hf h2 h0 rfl rfl (if_pos ⟨hneeds, hf.1⟩)
    · have hno : ¬NeedsTable s.vmm dir virt.toNat := by
        rw [NeedsTable, hpde]
        exact frame_or_and_pagePresent_ne_zero ht (dirFlags_present _)
      have hmap : vmmMapPage s.vmm dir virt.toNat phys.toNat flags.toNat frame = _ :=
        vmmMapPage_of_present ht hpde (dirFlags_lt _) (dirFlags_present _)
      exact hi.setWord rfl (if_neg fun h => hno h.1) ht hnd (vmmTblIdx_lt _) (mkPte_lt _ _)
        (congrArg VmmState.mem hmap)
  | unmapPage dir virt =>
    rcases hi.leads hlegal (vmmDirIdx_lt virt.toNat) with ⟨-, h0⟩ | ⟨t, ht, hnd, hpde⟩
    · refine hi.congr rfl rfl fun _ _ _ _ => ?_
      simp only [VmmOp.exec, vmmUnmapPage, h0, Nat.zero_and, ↓reduceIte]
    · have hunmap := vmmUnmapPage_of_present ht hpde (dirFlags_lt _) (dirFlags_present _)
      exact hi.setWord rfl rfl ht hnd (vmmTblIdx_lt _) (by decide)
        (congrArg VmmState.mem hunmap)

end DirectoriesInv

theorem directoriesInv_of_run {s₀ : VmmState} {ops : List VmmOp}
    (hrun : Run (VmmAnyStep l) (vmmBoot l s₀) ops s) : DirectoriesInv l s :=
  hrun.invariant (fun _ s => DirectoriesInv l s) (directoriesInv_vmmBoot l s₀)
    fun _ _ _ _ hi hstep => hi.step hstep

/-! ## The walk after a mapping -/

section Walk

variable {dir virt : ℕ}

/-- After a mapping that obtained a table, the directory entry of the page leads to a table that has
the new entry. -/
theorem exists_table_vmmMapPage (hi : DirectoriesInv l s) (hd : s.IsDirectory l dir)
    (hf : frame = 0 ∨ s.Fresh l frame) (hobtains : ¬(NeedsTable s.vmm dir virt ∧ frame = 0))
    (phys flags : ℕ) : ∃ t, IsFrame t ∧
      word (vmmMapPage s.vmm dir virt phys flags frame).mem dir (vmmDirIdx virt) =
        t ||| dirFlags (vmmDirIdx virt) ∧
      word (vmmMapPage s.vmm dir virt phys flags frame).mem t (vmmTblIdx virt) =
        mkPte phys flags := by
  have hframe := hi.isFrame hd
  have hdi := vmmDirIdx_lt virt
  have hti := vmmTblIdx_lt virt
  rcases hi.leads hd hdi with ⟨h2, h0⟩ | ⟨t, ht, hnd, hpde⟩
  · have hneeds : NeedsTable s.vmm dir virt := by rw [NeedsTable, h0, Nat.zero_and]
    have hfresh := hf.resolve_left fun h => hobtains ⟨hneeds, h⟩
    have hne := DirectoriesInv.ne_fresh hd hfresh
    obtain ⟨hf0, hfr, -⟩ := hfresh
    refine ⟨frame, hfr, ?_, ?_⟩
    · rw [word_vmmMapPage_of_absent hfr hf0 hframe hne rfl hdi h0 hframe hdi, if_neg hne,
        if_pos ⟨rfl, rfl⟩, dirFlags, if_neg (by omega)]
    · rw [word_vmmMapPage_of_absent hfr hf0 hframe hne rfl hdi h0 hfr hti, if_pos rfl, if_pos rfl]
  · -- The table is there, and it is not the directory.
    have hdt : dir ≠ t := fun h => hnd (h ▸ hd)
    refine ⟨t, ht, ?_, ?_⟩
    all_goals rw [vmmMapPage_of_present ht hpde (dirFlags_lt _) (dirFlags_present _)]
    · rw [word_setWord ht.1 hframe.1 hti hdi (mkPte_lt _ _), if_neg fun h => hdt h.1, hpde]
    · rw [word_setWord ht.1 ht.1 hti hti (mkPte_lt _ _), if_pos ⟨rfl, rfl⟩]

/-- The translation of a page right after it is mapped: user access is granted from 8 MB on only. -/
theorem walk_vmmMapPage (hi : DirectoriesInv l s) (hd : s.IsDirectory l dir)
    (hf : frame = 0 ∨ s.Fresh l frame) (hobtains : ¬(NeedsTable s.vmm dir virt ∧ frame = 0))
    (hvirt : virt < 2 ^ 32) (phys flags : ℕ) :
    walk (vmmMapPage s.vmm dir virt phys flags frame).mem dir virt =
      some ⟨(phys &&& pageMask) ||| (virt &&& 0xFFF), (flags &&& 0xFFF) ||| pagePresent,
        decide (8 * 1024 * 1024 ≤ virt) && flags.testBit 2, flags.testBit 1⟩ := by
  obtain ⟨t, ht, hpde, hpte⟩ := exists_table_vmmMapPage hi hd hf hobtains phys flags
  have hlow : 2 ≤ virt / 4096 / 1024 ↔ 8 * 1024 * 1024 ≤ virt := by omega
  rw [vmmDirIdx_eq hvirt] at hpde
  rw [vmmTblIdx_eq] at hpte
  rw [walk, pteOf_of_present ht hpde (dirFlags_lt _) (dirFlags_present _), hpte,
    if_pos (mkPte_present _ _), Option.map_some]
  simp only [testBit_frame_or ht (by decide : 2 < 12), testBit_frame_or ht (by decide : 1 < 12),
    dirFlags_user, dirFlags_writable, mkPte_testBit _ _ (by decide : 0 < 1) (by decide : 1 < 12),
    mkPte_testBit _ _ (by decide : 0 < 2) (by decide : 2 < 12), Bool.true_and, hlow]
  simp only [mkPte, pageMask, pagePresent, entry_and_frameMask, entry_and_flagMask]

end Walk

/-- The page walk reaches the frame `phys`, and has exactly the rights that `flags` asks for. -/
def GrantsRights (m : Mem) (dir virt phys flags : ℕ) : Prop :=
  ∃ tr, walk m dir virt = some tr ∧ tr.phys = (phys &&& pageMask) ||| (virt &&& 0xFFF) ∧
    (tr.user = true ↔ flags &&& pageUser ≠ 0) ∧ (tr.writable = true ↔ flags &&& pageWrite ≠ 0)

theorem and_two_pow_ne_zero_iff (x k : ℕ) : x &&& 2 ^ k ≠ 0 ↔ x.testBit k = true := by
  rw [Nat.and_two_pow]
  cases x.testBit k <;> simp

/-- Mappings grant the rights asked for: after `vmm_init` and any calls on any directories, a
mapping that obtains a table has exactly the rights of its flags if and only if it is at 8 MB or
above, or does not ask for user access. The calls may remap pages below 8 MB; they and the walk
still reach the tables at physical addresses. -/
theorem mapPage_grants_iff {s₀ : VmmState} {ops : List VmmOp}
    (hrun : Run (VmmAnyStep l) (vmmBoot l s₀) ops s) {dir : ℕ} (hd : s.IsDirectory l dir)
    (hf : frame = 0 ∨ s.Fresh l frame) {virt phys flags : UInt32}
    (hobtains : ¬(NeedsTable s.vmm dir virt.toNat ∧ frame = 0)) :
    GrantsRights (vmmMapPage s.vmm dir virt.toNat phys.toNat flags.toNat frame).mem dir virt.toNat
        phys.toNat flags.toNat ↔
      8 * 1024 * 1024 ≤ virt.toNat ∨ flags.toNat &&& pageUser = 0 := by
  have huser : flags.toNat &&& pageUser ≠ 0 ↔ _ := and_two_pow_ne_zero_iff flags.toNat 2
  have hwrite : flags.toNat &&& pageWrite ≠ 0 ↔ _ := and_two_pow_ne_zero_iff flags.toNat 1
  have hwalk := walk_vmmMapPage (directoriesInv_of_run hrun) hd hf hobtains virt.toNat_lt
    phys.toNat flags.toNat
  rw [GrantsRights, hwalk]
  simp only [Option.some.injEq, exists_eq_left', huser, hwrite, true_and, and_true,
    Bool.and_eq_true, decide_eq_true_eq, ← not_ne_iff (b := 0)]
  -- What is left is that a page below 8 MB has no user access.
  rw [and_iff_right_iff_imp, imp_iff_or_not]

/-- The kernel and a user directory, as `oneDirectory` has them. -/
theorem run_oneDirectory :
    Run (VmmAnyStep lowLayout) (vmmBoot lowLayout ⟨fun _ => 0, 0, 0, []⟩)
      [.createUserDirectory 0x4000] oneDirectory :=
  .snoc (.nil _) ⟨step_oneDirectory.1, step_oneDirectory.2⟩

/-- A user page at 8 MB has the rights asked for. -/
theorem mapPage_grants_iff_oneDirectory :
    GrantsRights (vmmMapPage oneDirectory.vmm 0x4000 (0x800000 : UInt32).toNat
      (0x5000 : UInt32).toNat (7 : UInt32).toNat 0x6000).mem 0x4000 (0x800000 : UInt32).toNat
      (0x5000 : UInt32).toNat (7 : UInt32).toNat := by
  obtain ⟨hd, hf, -⟩ := legal_map_oneDirectory 0x800000 0x5000 7
  exact (mapPage_grants_iff run_oneDirectory (.inr hd) hf (by simp)).mpr (.inl (by decide))

/-- The documented mapping of user code at 4 MB, with all rights: the directory entry comes from the
identity region, and user mode has no access to the page. -/
theorem not_grants_userCode :
    ∃ tr, walk (vmmMapPage oneDirectory.vmm 0x4000 0x400000 0x1200000 7 0x6000).mem 0x4000
        0x400000 = some tr ∧ tr.phys = 0x1200000 ∧ tr.writable = true ∧ tr.user = false ∧
      ¬GrantsRights (vmmMapPage oneDirectory.vmm 0x4000 0x400000 0x1200000 7 0x6000).mem 0x4000
        0x400000 0x1200000 7 := by
  obtain ⟨hd, hf, -⟩ := legal_map_oneDirectory 0x400000 0x1200000 7
  have hwalk := walk_vmmMapPage (directoriesInv_of_run run_oneDirectory) (.inr hd) hf
    (fun h => absurd h.2 (by decide)) (show 0x400000 < 2 ^ 32 by decide) 0x1200000 7
  refine ⟨_, hwalk, by decide, by decide, by decide, ?_⟩
  rintro ⟨tr, htr, -, huser, -⟩
  obtain rfl := Option.some.inj (hwalk.symm.trans htr)
  exact absurd (huser.mpr (by decide)) (by decide)

end Lightstreak
