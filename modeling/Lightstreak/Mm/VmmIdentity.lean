import Lightstreak.Mm.VmmTables

/-!
# The identity map of the kernel

`vmm_init` maps the first 8 MB to themselves. User directories copy the two directory entries of
that region, and with them they share its two page tables: a mapping below 8 MB made in a user
directory is a mapping in the kernel directory and in every other one.

* `walk_low`: what a walk below 8 MB yields, in any directory;
* `identityMapped_step_iff`: a call keeps the identity map exactly when it leaves the region
  alone or maps a page of it to itself, writable;
* `identityMapped_of_run_iff`: the identity map holds in every state of a run exactly when each
  of its calls does so;
* `identityMapped_broken`: a user mapping at 4 MB moves the kernel's own page.
-/

namespace Lightstreak

open SysLib SysLib.Paging

variable {l : VmmLayout} {s s' : VmmSystem} {d page va v virt : ℕ}

/-- In the kernel directory and in every user directory, each address below 8 MB translates to
itself, supervisor-only and writable. -/
def IdentityMapped (l : VmmLayout) (s : VmmSystem) : Prop :=
  ∀ d, d = l.kernelDir ∨ d ∈ s.dirs → ∀ va < 8 * 1024 * 1024, ∃ tr,
    walk s.vmm.mem d va = some tr ∧ tr.phys = va ∧ tr.user = false ∧ tr.writable = true

/-- The call leaves the region below 8 MB alone, or maps a page of it to itself, writable. -/
def VmmOp.KeepsIdentity : VmmOp → Prop
  | .createUserDirectory _ => True
  | .mapPage _ virt phys flags _ _ => virt.toNat < 8 * 1024 * 1024 →
    phys.toNat &&& pageMask = virt.toNat &&& pageMask ∧ flags.toNat.testBit 1 = true
  | .unmapPage _ virt => 8 * 1024 * 1024 ≤ virt.toNat

/-! ## The shared entries -/

/-- The table entry of a page below 8 MB, which all directories share. -/
def lowEntry (l : VmmLayout) (s : VmmSystem) (page : ℕ) : ℕ :=
  word s.vmm.mem (l.lowTable (page / 1024)) (page % 1024)

/-- An entry that maps its page to itself, writable. -/
def IdentityEntry (page v : ℕ) : Prop :=
  v.testBit 0 = true ∧ v &&& frameMask = page * 4096 ∧ v.testBit 1 = true

/-- A walk below 8 MB goes through the shared entry. The directory entry grants no user access. -/
theorem walk_low (hi : VmmInv l s) (hd : d = l.kernelDir ∨ d ∈ s.dirs)
    (hva : va < 8 * 1024 * 1024) : walk s.vmm.mem d va =
      if (lowEntry l s (va / 4096)).testBit 0 then
        some ⟨(lowEntry l s (va / 4096) &&& frameMask) ||| (va &&& 0xFFF),
          lowEntry l s (va / 4096) &&& 0xFFF, false, (lowEntry l s (va / 4096)).testBit 1⟩
      else none := by
  have h2 : va / 4096 / 1024 < 2 := by omega
  have hframe := l.isFrame_lowTable (va / 4096 / 1024)
  -- Each directory has the two low entries of the kernel's.
  have hpde : word s.vmm.mem d (va / 4096 / 1024) = l.lowTable (va / 4096 / 1024) ||| 3 := by
    have hkernel : l.kernelPde (va / 4096 / 1024) = _ := if_pos h2
    rcases hd with rfl | hd
    · rw [hi.kernel_entry _ (by omega), hkernel]
    · rw [hi.low_entry d hd _ h2, hkernel]
  rw [walk, pteOf_of_present hframe hpde (by decide) (by decide), lowEntry]
  split
  · simp [testBit_frame_or hframe (by decide : 2 < 12),
      testBit_frame_or hframe (by decide : 1 < 12), show Nat.testBit 3 2 = false by decide,
      show Nat.testBit 3 1 = true by decide]
  · rfl

/-- The kernel directory has no other entries. -/
theorem walk_high (hi : VmmInv l s) (hva : 8 * 1024 * 1024 ≤ va) (hlt : va < 2 ^ 32) :
    walk s.vmm.mem l.kernelDir va = none := by
  have hpde := hi.kernel_entry (va / 4096 / 1024) (by omega)
  rw [VmmLayout.kernelPde, if_neg (by omega)] at hpde
  rw [walk, pteOf_of_absent hpde, Option.map_none]

/-- The identity map is a matter of the shared entries. -/
theorem identityMapped_iff (hi : VmmInv l s) :
    IdentityMapped l s ↔ ∀ page < 2048, IdentityEntry page (lowEntry l s page) := by
  constructor
  · intro h page hp
    obtain ⟨tr, hwalk, hphys, -, hw⟩ := h l.kernelDir (.inl rfl) (page * 4096) (by omega)
    rw [walk_low hi (.inl rfl) (by omega), show page * 4096 / 4096 = page by omega] at hwalk
    split at hwalk
    next hbit =>
      -- The first byte of the page has offset 0, so that its address is the entry's frame.
      obtain rfl := Option.some.inj hwalk
      refine ⟨hbit, ?_, hw⟩
      have hzero : page * 4096 &&& 0xFFF = 0 := by rw [and_mask_offset]; omega
      simpa [hzero] using hphys
    next => cases hwalk
  · intro h d hd va hva
    obtain ⟨hbit, hphys, hw⟩ := h (va / 4096) (by omega)
    refine ⟨_, (walk_low hi hd hva).trans (if_pos hbit), ?_, rfl, hw⟩
    dsimp only
    rw [hphys, and_mask_offset, show (4096 : ℕ) = 2 ^ 12 from rfl,
      or_low_bits (Nat.mod_lt _ (by decide))]
    omega

/-- The two low tables are different. -/
theorem lowTable_inj {i j : ℕ} (hi : i < 2) (hj : j < 2) (h : l.lowTable i = l.lowTable j) :
    i = j := by
  unfold VmmLayout.lowTable at h
  have hne := l.pt0_ne_pt1
  split at h <;> split at h <;> omega

/-- Writing to the table that a directory entry leads to changes the shared entry of that page, if
it lies below 8 MB, and no other shared entry. -/
theorem lowEntry_setWord {dir t g j : ℕ} (hi : VmmInv l s)
    (hleads : LeadsTo l s dir (vmmDirIdx virt) t g) (hvirt : virt < 2 ^ 32) (hp : page < 2048)
    (hj : vmmTblIdx virt = j) (hv : v < 2 ^ 32)
    (hmem : s'.vmm.mem = Paging.setWord s.vmm.mem t j v) :
    lowEntry l s' page = if virt / 4096 = page then v else lowEntry l s page := by
  have hframe := l.isFrame_lowTable (page / 1024)
  have hdi := vmmDirIdx_eq hvirt
  have hti := vmmTblIdx_eq virt
  rw [lowEntry, lowEntry, hmem, word_setWord hleads.isFrame.1 hframe.1 (hj ▸ vmmTblIdx_lt virt)
    (Nat.mod_lt _ (by decide)) hv]
  refine if_congr ?_ rfl rfl
  constructor
  · rintro ⟨htable, hpj⟩
    rcases Nat.lt_or_ge (vmmDirIdx virt) 2 with h2 | h2
    · have := lowTable_inj (by omega) h2 (htable.trans (hleads.low h2))
      omega
    · -- A table above 8 MB is none of the static ones.
      exact absurd (htable ▸ l.lowTable_mem_frames _) (hi.tables_frame t (hleads.high h2)).2
  · intro hpage
    have hsame : vmmDirIdx virt = page / 1024 := by omega
    exact ⟨by rw [hleads.low (by omega), hsame], by omega⟩

/-- `vmm_map_page` writes the entry of its page, in a low table for every directory. -/
theorem lowEntry_mapPage (hi : VmmInv l s) {dir frame : ℕ} {virt phys flags : UInt32} {ok : Bool}
    (hlegal : (VmmOp.mapPage dir virt phys flags frame ok).Legal l s) (hp : page < 2048) :
    lowEntry l ((VmmOp.mapPage dir virt phys flags frame ok).exec l s) page =
      if virt.toNat / 4096 = page then mkPte phys.toNat flags.toNat else lowEntry l s page := by
  have hdi := vmmDirIdx_eq virt.toNat_lt
  rcases mapPage_cases hi hlegal with ⟨-, h2, hmem, -⟩ | ⟨-, h2, h0, hf, -⟩ |
    ⟨-, t, g, hleads, -, hmem⟩
  · rw [if_neg (by omega), lowEntry, lowEntry, hmem]
  · -- A new table is a fresh frame, and its directory is not one of the static tables.
    obtain ⟨hf0, hframe, hfl, hfd, -⟩ := hf
    have hlow := l.lowTable_mem_frames (page / 1024)
    have htf : l.lowTable (page / 1024) ≠ frame := fun h => hfl (h ▸ hlow)
    have htd : l.lowTable (page / 1024) ≠ dir := fun h =>
      (hi.dirs_frame dir hlegal.1).2.1 (h ▸ hlow)
    rw [if_neg (by omega), lowEntry, lowEntry, VmmOp.exec,
      word_vmmMapPage_of_absent hframe hf0 (hi.dirs_frame dir hlegal.1).1
        (fun h : dir = frame => hfd (h ▸ hlegal.1)) rfl (vmmDirIdx_lt _) h0
        (l.isFrame_lowTable _) (Nat.mod_lt _ (by decide)), if_neg htf, if_neg fun h => htd h.1]
  · exact lowEntry_setWord hi hleads virt.toNat_lt hp rfl (mkPte_lt _ _) hmem

/-- `vmm_unmap_page` clears the entry of its page. -/
theorem lowEntry_unmapPage (hi : VmmInv l s) {dir : ℕ} (hdir : dir ∈ s.dirs) (virt : UInt32)
    (hp : page < 2048) : lowEntry l ((VmmOp.unmapPage dir virt).exec l s) page =
      if virt.toNat / 4096 = page then 0 else lowEntry l s page := by
  have hdi := vmmDirIdx_eq virt.toNat_lt
  rcases unmapPage_cases hi hdir virt with ⟨h2, -, hmem⟩ | ⟨t, g, hleads, hmem⟩
  · rw [if_neg (by omega), lowEntry, lowEntry, hmem]
  · exact lowEntry_setWord hi hleads virt.toNat_lt hp rfl (by decide) hmem

/-- A new directory changes no low table. -/
theorem lowEntry_createUserDirectory (hi : VmmInv l s) {frame : ℕ}
    (hf : frame = 0 ∨ s.Fresh l frame) :
    lowEntry l ((VmmOp.createUserDirectory frame).exec l s) page = lowEntry l s page := by
  rcases hf with rfl | hf
  · rfl
  · rw [lowEntry, word_createUserDirectory hi hf (l.isFrame_lowTable _)
      (Nat.mod_lt _ (by decide)), if_neg, lowEntry]
    exact fun h => hf.2.2.1 (h ▸ l.lowTable_mem_frames _)

/-- An entry maps its page to itself if the call gave that frame and the write flag. -/
theorem identityEntry_mkPte_iff {phys flags : ℕ} (page : ℕ) :
    IdentityEntry page (mkPte phys flags) ↔
      phys &&& pageMask = page * 4096 ∧ flags.testBit 1 = true := by
  rw [IdentityEntry, mkPte_present, mkPte_testBit phys flags (by decide) (by decide), mkPte,
    pageMask, pagePresent, entry_and_frameMask]
  simp

/-! ## Runs -/

theorem isFrame_page (hp : page < 2 ^ 20) : IsFrame (page * pageSize) :=
  ⟨Nat.dvd_mul_left _ _, by simp only [pageSize]; omega⟩

/-- The two tables that `vmm_init` fills. -/
theorem lowEntry_vmmBoot (l : VmmLayout) (s₀ : VmmState) (hp : page < 2048) :
    lowEntry l (vmmBoot l s₀) page = page * pageSize ||| 3 := by
  have hdir := l.isFrame_dir.1
  have h0 := l.isFrame_pt0
  have h1 := l.isFrame_pt1
  have hj : page % 1024 < 1024 := Nat.mod_lt _ (by decide)
  have hf0 : ∀ k < 1024, k * pageSize ||| 3 < 2 ^ 32 := fun k hk =>
    frame_or_lt (isFrame_page (by omega)) (by decide)
  have hf1 : ∀ k < 1024, (1024 + k) * pageSize ||| 3 < 2 ^ 32 := fun k hk =>
    frame_or_lt (isFrame_page (by omega)) (by decide)
  have hlow := l.isFrame_lowTable (page / 1024)
  have hk := l.lowTable_ne_kernelDir (page / 1024)
  -- The writes to the directory leave the tables alone, and of the two tables one has the page.
  simp only [lowEntry, vmmBoot, vmmInit, vmmSwitchDirectory, or_present_write]
  rw [word_setWord hdir hlow.1 (by decide) hj (frame_or_lt h1 (by decide)),
    if_neg fun h => hk h.1, word_setWord hdir hlow.1 (by decide) hj (frame_or_lt h0 (by decide)),
    if_neg fun h => hk h.1, word_fillWords hdir hlow.1 le_rfl hj (by simp),
    if_neg fun h => hk h.1, word_fillWords h1.1 hlow.1 le_rfl hj hf1,
    word_fillWords h0.1 hlow.1 le_rfl hj hf0]
  rcases Nat.lt_or_ge page 1024 with hpage | hpage
  · have htable : l.lowTable (page / 1024) = l.identityPt0 := if_pos (by omega)
    rw [htable, if_neg fun h => l.pt0_ne_pt1 h.1, if_pos ⟨rfl, hj⟩, Nat.mod_eq_of_lt hpage]
  · have htable : l.lowTable (page / 1024) = l.identityPt1 := if_neg (by omega)
    rw [htable, if_pos ⟨rfl, hj⟩, show 1024 + page % 1024 = page by omega]

/-- Right after `vmm_init` the identity map holds. -/
theorem identityMapped_vmmBoot (l : VmmLayout) (s₀ : VmmState) :
    IdentityMapped l (vmmBoot l s₀) := by
  refine (identityMapped_iff (vmmInv_vmmBoot l s₀)).mpr fun page hp => ?_
  have hframe := isFrame_page (show page < 2 ^ 20 by omega)
  rw [lowEntry_vmmBoot l s₀ hp]
  exact ⟨testBit_frame_or hframe (by decide), frame_or_and_frameMask hframe (by decide),
    testBit_frame_or hframe (by decide)⟩

/-- `vmm_init` writes to its three tables only. -/
theorem vmmInit_mem_of_outside {a : ℕ} (l : VmmLayout) (s₀ : VmmState)
    (h : ∀ t ∈ l.frames, a < t ∨ t + 4096 ≤ a) : (vmmInit l s₀).mem a = s₀.mem a := by
  have hdir := h l.kernelDir (by simp [VmmLayout.frames])
  have h0 := h l.identityPt0 (by simp [VmmLayout.frames])
  have h1 := h l.identityPt1 (by simp [VmmLayout.frames])
  simp only [vmmInit, vmmSwitchDirectory]
  rw [Paging.setWord, Mem.store32_apply_of_outside _ _ (by omega), Paging.setWord,
    Mem.store32_apply_of_outside _ _ (by omega), fillWords_of_outside hdir,
    fillWords_of_outside h1, fillWords_of_outside h0]

/-- From a state with the identity map, a call keeps it exactly when it leaves the region alone or
maps a page of it to itself, writable. -/
theorem identityMapped_step_iff (hi : VmmInv l s) (hid : IdentityMapped l s) {op : VmmOp}
    (hstep : VmmStep l s op s') : IdentityMapped l s' ↔ op.KeepsIdentity := by
  have hi' := hi.step hstep
  obtain ⟨hlegal, rfl⟩ := hstep
  rw [identityMapped_iff hi'] at *
  rw [identityMapped_iff hi] at hid
  cases op with
  | createUserDirectory frame =>
    simpa [VmmOp.KeepsIdentity, lowEntry_createUserDirectory hi hlegal] using hid
  | mapPage dir virt phys flags frame ok =>
    -- Only the entry of the page itself changes, and it is the one that `mkPte` builds.
    have hmask : virt.toNat &&& pageMask = virt.toNat / 4096 * 4096 := and_mask_page virt.toNat_lt
    rw [VmmOp.KeepsIdentity, hmask]
    constructor
    · intro h hlow
      have := h (virt.toNat / 4096) (by omega)
      rwa [lowEntry_mapPage hi hlegal (by omega), if_pos rfl, identityEntry_mkPte_iff] at this
    · intro h page hp
      rw [lowEntry_mapPage hi hlegal hp]
      split
      next hpage => exact (identityEntry_mkPte_iff page).mpr (hpage ▸ h (by omega))
      next => exact hid page hp
  | unmapPage dir virt =>
    -- A cleared entry is not present, so that no page below 8 MB may be unmapped.
    rw [VmmOp.KeepsIdentity]
    constructor
    · intro h
      by_contra hlow
      have := (h (virt.toNat / 4096) (by omega)).1
      rw [lowEntry_unmapPage hi hlegal virt (by omega), if_pos rfl] at this
      simp at this
    · intro h page hp
      rw [lowEntry_unmapPage hi hlegal virt hp, if_neg (by omega)]
      exact hid page hp

/-- After `vmm_init` and any calls on user directories, the identity map of the first 8 MB holds
in every state of the run, in the kernel directory and in every user directory, exactly when each
call leaves that region alone or maps a page of it to itself, writable. -/
theorem identityMapped_of_run_iff {s₀ : VmmState} {ops : List VmmOp}
    (hrun : Run (VmmStep l) (vmmBoot l s₀) ops s) :
    (∀ ops₁ s₁, ops₁ <+: ops → Run (VmmStep l) (vmmBoot l s₀) ops₁ s₁ → IdentityMapped l s₁) ↔
      ∀ op ∈ ops, op.KeepsIdentity := by
  refine hrun.forall_prefix_iff (I := fun s => VmmInv l s ∧ IdentityMapped l s)
    ⟨vmmInv_vmmBoot l s₀, identityMapped_vmmBoot l s₀⟩ (fun _ h => h.2) ?_ ?_
  · rintro t op u ⟨hi, hid⟩ hstep hok
    exact ⟨hi.step hstep, (identityMapped_step_iff hi hid hstep).mpr hok⟩
  · rintro t op u ⟨hi, hid⟩ hstep hbad hid'
    exact hbad ((identityMapped_step_iff hi hid hstep).mp hid')

/-- Mapping a user page at 8 MB keeps the identity map. -/
theorem identityMapped_of_run_iff_oneDirectory :
    ∃ s, Run (VmmStep lowLayout) (vmmBoot lowLayout ⟨fun _ => 0, 0, 0, []⟩)
        [.createUserDirectory 0x4000, .mapPage 0x4000 0x800000 0x5000 7 0x6000 true] s ∧
      IdentityMapped lowLayout s := by
  have hrun := run_map_oneDirectory 0x800000 0x5000 7
  refine ⟨_, hrun, ?_⟩
  exact (identityMapped_of_run_iff hrun).mpr (by simp [VmmOp.KeepsIdentity]) _ _
    (List.prefix_refl _) hrun

/-- The mapping of the user's load address 4 MB to frame `0x1200`, made in a user directory,
moves that page in the kernel directory. -/
theorem identityMapped_broken :
    ∃ s, Run (VmmStep lowLayout) (vmmBoot lowLayout ⟨fun _ => 0, 0, 0, []⟩)
        [.createUserDirectory 0x4000, .mapPage 0x4000 0x400000 0x1200000 7 0x6000 true] s ∧
      (walk s.vmm.mem lowLayout.kernelDir 0x400000).map (·.phys) = some 0x1200000 ∧
      ¬IdentityMapped lowLayout s := by
  have hrun := run_map_oneDirectory 0x400000 0x1200000 7
  have hi := (vmmInv_vmmBoot lowLayout ⟨fun _ => 0, 0, 0, []⟩).step step_oneDirectory
  have hlegal := legal_map_oneDirectory 0x400000 0x1200000 7
  have hi' := hi.step ⟨hlegal, rfl⟩
  -- The entry is in the table that all directories share.
  have hentry : lowEntry lowLayout _ (0x400000 / 4096) = mkPte 0x1200000 7 :=
    (lowEntry_mapPage hi hlegal (by decide)).trans (if_pos (by decide))
  have hwalk := congrArg (Option.map (·.phys)) (walk_low hi' (.inl rfl)
    (by decide : 0x400000 < 8 * 1024 * 1024))
  rw [hentry, show (if (mkPte 0x1200000 7).testBit 0 then _ else none) = _ from
    if_pos (mkPte_present _ _), Option.map_some,
    show (mkPte 0x1200000 7 &&& frameMask) ||| (0x400000 &&& 0xFFF) = 0x1200000 by decide] at hwalk
  refine ⟨_, hrun, hwalk, fun hid => ?_⟩
  obtain ⟨tr, htr, hphys, -⟩ := hid lowLayout.kernelDir (.inl rfl) 0x400000 (by decide)
  rw [htr, Option.map_some, hphys] at hwalk
  exact absurd hwalk (by decide)

end Lightstreak
