import AviKernel.Memory.VirtualRuns

/-!
# The switch from the directory of the boot

The boot maps the first four megabytes twice with large pages.  The manager
builds its tables through this directory, switches to its own and puts the
window there through the identity mapping.
-/

namespace AviKernel.VirtualMgr

open Paging

variable {image : Image} {s s₀ t u : State} {i j k n : ℕ} {pages : Pages}

/-- The state in which the boot leaves the machine.  Data without initial values
is zero. -/
structure Booted (image : Image) (s : State) : Prop where
  cr3 : s.getCr3 = pageSize * image.bootFrame
  low : s.memory image.bootFrame 0 = 0x83
  kernel : s.memory image.bootFrame 768 = 0x83
  directory : ∀ k < 1024, s.memory image.directoryFrame k = 0
  blocks : FreshBlocks image s.blocks

theorem root_of_cr3 {f : ℕ} (h : s.getCr3 = pageSize * f) : s.root = f := by
  have hroot : s.root = s.getCr3 / 4096 := rfl
  rw [hroot, h, pageSize, Nat.mul_div_cancel_left _ (by decide)]

theorem Booted.root (h : Booted image s) : s.root = image.bootFrame := root_of_cr3 h.cr3

/-- The page `j` of a large page at the start of memory. -/
theorem walk_large {m : Frames} {root : ℕ} (h : m root i = 0x83) : walk m root i j = some j := by
  have hpresent : isPresent (m root i) = true := by
    rw [h]
    decide
  have hlarge : isLarge (m root i) = true := by
    rw [h]
    decide
  have hframe : m root i / 2 ^ 22 * 1024 + j = j := by
    rw [h]
    omega
  rw [walk, if_pos hpresent, if_pos hlarge, hframe]

/-- The physical addresses of the arrays. -/
theorem kernelVirtualAddrToPhysical_eq {f : ℕ} (hf : f < 1024) :
    kernelVirtualAddrToPhysical (kernelVirtualBaseAddr + pageSize * f) = pageSize * f := by
  unfold kernelVirtualAddrToPhysical kernelVirtualBaseAddr pageSize
  rw [sub32_of_le (by omega) (by omega)]
  omega

/-- The entry of the window. -/
def windowEntry (image : Image) : ℕ :=
  PageDirectoryEntry.create true true true false (pageSize * image.etableFrame)

theorem windowEntry_spec (image : Image) : isPresent (windowEntry image) = true ∧
    isLarge (windowEntry image) = false ∧ frameOf (windowEntry image) = image.etableFrame := by
  have hlt := image.etable_lt
  have hframe : frameOf (windowEntry image) = pageSize * image.etableFrame / 4096 :=
    PagingEntry.frameOf_directory_create (by unfold pageSize; omega)
  refine ⟨PagingEntry.isPresent_directory_create, PagingEntry.isLarge_directory_create, ?_⟩
  rw [hframe, pageSize, Nat.mul_div_cancel_left _ (by decide)]

/-- The window is put into a directory that the identity mapping reaches. -/
theorem putPageEtable_eq {f : ℕ} (hcr3 : s.getCr3 = pageSize * f) (hf : f < 1024)
    (hwalk : walk s.memory s.root 0 f = some f) :
    putPageEtable image s = some (s.withMemory (store s.memory f 1023 (windowEntry image))) := by
  have haddress : add32 s.getCr3 (4 * pageEtableDirectoryIndex) = address 0 f 1023 := by
    rw [hcr3]
    unfold add32 pageEtableDirectoryIndex pageSize address
    omega
  have hphysical : kernelVirtualAddrToPhysical (pageEtable image) =
      pageSize * image.etableFrame := kernelVirtualAddrToPhysical_eq image.etable_lt
  unfold putPageEtable
  dsimp only
  rw [haddress, hphysical, State.store_address (by decide) hf (by decide) hwalk]
  rfl

/-- Before the first mapping. -/
def prepared (image : Image) (s : State) : State :=
  s.withMemory (store (clearFirst s.memory image.etableFrame 1024) image.bootFrame 1023
    (windowEntry image))

theorem prepare_eq (h : Booted image s) :
    ((s.clearWords (pageEtable image) 1024).bind fun s => putPageEtable image s) =
      some (prepared image s) := by
  have hkeep : ∀ n k, clearFirst s.memory image.etableFrame n image.bootFrame k =
      s.memory image.bootFrame k := fun n k => clearFirst_of_ne (etable_ne_boot image).symm
  have hwalk : ∀ n ≤ 1024, walk (clearFirst s.memory image.etableFrame n) s.root 768
      image.etableFrame = some image.etableFrame := by
    intro n _
    rw [h.root]
    exact walk_large (by rw [hkeep, h.kernel])
  have hclear : s.clearWords (pageEtable image) 1024 =
      some (s.withMemory (clearFirst s.memory image.etableFrame 1024)) := by
    have hetable : pageEtable image = address 768 image.etableFrame 0 := pageEtable_add image 0
    rw [hetable, State.clearWords_address (by decide) image.etable_lt le_rfl hwalk]
  have hidentity : walk (clearFirst s.memory image.etableFrame 1024) s.root 0 image.bootFrame =
      some image.bootFrame := by
    rw [h.root]
    exact walk_large (by rw [hkeep, h.low])
  have hput : putPageEtable image (s.withMemory (clearFirst s.memory image.etableFrame 1024)) =
      some (prepared image s) := putPageEtable_eq h.cr3 image.boot_lt hidentity
  rw [hclear, Option.bind_some, hput]

theorem etable_prepared (hk : k < 1024) : (prepared image s).memory image.etableFrame k = 0 := by
  have hstore : (prepared image s).memory image.etableFrame k =
      clearFirst s.memory image.etableFrame 1024 image.etableFrame k :=
    store_of_ne (etable_ne_boot image)
  rw [hstore, clearFirst_self hk]

theorem not_hasTable_prepared (hk : k < 1024) : ¬HasTable image (prepared image s).memory k := by
  rw [HasTable, etable_prepared hk]
  decide

theorem refines_prepared (h : Booted image s) : Refines image (prepared image s) fun _ => none := by
  have hdirectory : ∀ k < 1024, (prepared image s).memory image.directoryFrame k = 0 := by
    intro k hk
    have hstore : (prepared image s).memory image.directoryFrame k =
        clearFirst s.memory image.etableFrame 1024 image.directoryFrame k :=
      store_of_ne (directory_ne_boot image)
    rw [hstore, clearFirst_of_ne (directory_ne_etable image), h.directory k hk]
  have hboot : ∀ k, k ≠ 1023 → (prepared image s).memory image.bootFrame k =
      s.memory image.bootFrame k := by
    intro k hk
    have hstore : (prepared image s).memory image.bootFrame k =
        clearFirst s.memory image.etableFrame 1024 image.bootFrame k := store_of_ne_word hk
    rw [hstore, clearFirst_of_ne (etable_ne_boot image).symm]
  have hfree : ∀ k < 1024, ¬HasTable image (prepared image s).memory k := fun _ =>
    not_hasTable_prepared
  have hroot : (prepared image s).root = image.bootFrame := h.root
  have hkernel : (prepared image s).memory image.bootFrame 768 = 0x83 := by
    rw [hboot 768 (by decide), h.kernel]
  refine ⟨⟨?_, ?_, ?_, ?_, ?_, ?_, hfree 1023 (by decide), h.blocks⟩,
    ⟨Or.inl ⟨hroot, ?_⟩, ?_, ?_⟩, ?_⟩
  · intro i hi
    rw [hdirectory i (by omega), etable_prepared (by omega)]
  · intro i hi htable
    exact absurd htable (hfree i (by omega))
  · intro i hi _ _ htable
    exact absurd htable (hfree i (by omega))
  · intro i hi htable
    exact absurd htable (hfree i (by omega))
  · intro i hi htable
    exact absurd htable (hfree i (by omega))
  · intro i hi htable
    exact absurd htable (hfree i (by omega))
  · rw [hkernel]
    decide
  · intro k _
    rw [hroot]
    exact walk_large hkernel
  · have hwindow : (prepared image s).memory image.bootFrame 1023 = windowEntry image := store_self
    rw [hroot, hwindow]
    exact windowEntry_spec image
  · intro i hi j _
    exact if_neg (hfree i (by omega))

/-! ## The first mappings -/

/-- The pages of the kernel and of the identity mapping. -/
def initialPages : Pages := fun page =>
  if page < 1024 then some ⟨Fin.ofNat (2 ^ 20) page, true⟩
  else if 1024 * 768 ≤ page ∧ page < 1024 * 769 then
    some ⟨Fin.ofNat (2 ^ 20) (page - 1024 * 768), true⟩
  else none

theorem foldl_initial : (range 0 0 true 1024).foldl Pages.put
    ((range 0xC0000000 0 true 1024).foldl Pages.put fun _ => none) = initialPages := by
  funext k
  rw [foldl_range _ (by decide) (by decide) (by decide),
    foldl_range _ (by decide) (by decide) (by decide)]
  have hlow : (0 : UInt32).toNat / pageSize = 0 := by decide
  have hhigh : (0xC0000000 : UInt32).toNat / pageSize = 1024 * 768 := by decide
  rw [hlow, hhigh, initialPages]
  simp only [Nat.zero_le, true_and, Nat.zero_add, Nat.sub_zero]

theorem index_of_mem {v p : UInt32} {c : Single} (hv : v.toNat = 2 ^ 22 * i) (hi : i < 1023)
    (hp : p.toNat = 0) (hc : c ∈ range v p true 1024) : c.Aligned ∧ c.index = i := by
  have hpages : pageSize * 1024 = 2 ^ 22 := by decide
  obtain ⟨haligned, hle, hlt⟩ := mem_range (n := 1024) (b := true)
    (by rw [hv, pageSize]; omega) (by rw [hp]; decide) (by rw [hv, hpages]; omega) hc
  refine ⟨haligned, ?_⟩
  have hpage : v.toNat / pageSize = 1024 * i := by
    rw [hv, pageSize]
    omega
  rw [hpage] at hle hlt
  rw [index_eq]
  omega

/-- The two ranges, through the directory of the boot. -/
theorem mapInitial_spec (h : Booted image s) (hfirst : s.blocks 0 ≠ 0) (hsecond : s.blocks 1 ≠ 0) :
    ∃ t, ((mapRange image (prepared image s) kernelVirtualBaseAddr 0 1024 true).bind fun s =>
        mapRange image s 0 0 1024 true) = some t ∧ Refines image t initialPages ∧
      (t.blocks = fun k => s.blocks (k + 2)) ∧ Extends image (prepared image s) t ∧
      ∀ k, HasTable image t.memory k → k < 1024 → k = 0 ∨ k = 768 := by
  have hhigh : ∀ c ∈ range 0xC0000000 0 true 1024, c.Aligned ∧ c.index = 768 := fun c hc =>
    index_of_mem (by decide) (by decide) rfl hc
  have hlow : ∀ c ∈ range 0 0 true 1024, c.Aligned ∧ c.index = 0 := fun c hc =>
    index_of_mem (by decide) (by decide) rfl hc
  obtain ⟨u, hu, hrefines, hroot, hblocks, hkeeps, htables⟩ := refines_newTable
    (range 0xC0000000 0 true 1024) (range_ne_nil (by decide)) (refines_prepared h)
    (fun c hc => (hhigh c hc).1) (by decide) (fun c hc => (hhigh c hc).2) h.root
    (not_hasTable_prepared (by decide)) hfirst
  have hfree : ¬HasTable image u.memory 0 := by
    intro htable
    rcases htables 0 htable with heq | hprepared
    · exact absurd heq (by decide)
    · exact not_hasTable_prepared (by decide) hprepared
  have hnext : u.blocks 0 ≠ 0 := by
    rw [hblocks]
    exact hsecond
  obtain ⟨t, ht, hafter, -, hblocks', hkeeps', htables'⟩ := refines_newTable
    (range 0 0 true 1024) (range_ne_nil (by decide)) hrefines
    (fun c hc => (hlow c hc).1) (by decide) (fun c hc => (hlow c hc).2) (hroot.trans h.root)
    hfree hnext
  have hbase : kernelVirtualBaseAddr = (0xC0000000 : UInt32).toNat := by decide
  have hzero : 0 = (0 : UInt32).toNat := by decide
  refine ⟨t, ?_, ?_, ?_, hkeeps.trans hkeeps', ?_⟩
  · have hkernel : mapRange image (prepared image s) kernelVirtualBaseAddr 0 1024 true = some u := by
      rw [hbase, hzero, mapRange_eq_run, hu]
    have hidentity : mapRange image u 0 0 1024 true = some t := by
      rw [hzero, mapRange_eq_run, ht]
    rw [hkernel, Option.bind_some, hidentity]
  · rwa [foldl_initial] at hafter
  · rw [hblocks', hblocks]
    rfl
  · intro k hk hlt
    rcases htables' k hk with heq | hearlier
    · exact Or.inl heq
    · rcases htables k hearlier with heq | hprepared
      · exact Or.inr heq
      · exact absurd hprepared (not_hasTable_prepared hlt)

/-! ## The switch -/

/-- Through its own directory the manager finds what the tables give. -/
theorem walk_directory (h : Tables image s) (hi : i < 1023) (j : ℕ) :
    walk s.memory image.directoryFrame i j = (lookup image s.memory i j).map frameOf := by
  by_cases htable : isPresent (s.memory image.etableFrame i) = true
  · obtain ⟨hsmall, -, hframe⟩ := h.same i hi htable
    have hpresent : isPresent (s.memory image.directoryFrame i) = true := by
      rwa [h.agree i hi]
    rw [walk_of_table hpresent hsmall, hframe, lookup, if_pos htable, pageIn]
  · have hnone : isPresent (s.memory image.directoryFrame i) = false := by
      rw [h.agree i hi]
      simpa using htable
    rw [walk_of_not_present hnone, lookup, if_neg htable]
    rfl

theorem tables_of_memory (h : Tables image s)
    (hdirectory : ∀ i < 1023, t.memory image.directoryFrame i = s.memory image.directoryFrame i)
    (hetable : ∀ i < 1024, t.memory image.etableFrame i = s.memory image.etableFrame i)
    (hblocks : t.blocks = s.blocks) : Tables image t := by
  have htable : ∀ i < 1024, HasTable image t.memory i ↔ HasTable image s.memory i := by
    intro i hi
    rw [HasTable, hetable i hi, HasTable]
  have hplace : ∀ i < 1024, tableOf image t.memory i = tableOf image s.memory i := by
    intro i hi
    rw [tableOf, hetable i hi, tableOf]
  have hpresent : ∀ i < 1023, HasTable image t.memory i → HasTable image s.memory i := fun i hi =>
    (htable i (by omega)).mp
  exact {
    agree := fun i hi => by
      rw [hdirectory i hi, hetable i (by omega)]
      exact h.agree i hi
    same := fun i hi hit => by
      rw [hdirectory i hi, hplace i (by omega)]
      exact h.same i hi (hpresent i hi hit)
    distinct := fun i hi k hk hit hkt heq => by
      rw [hplace i (by omega), hplace k (by omega)] at heq
      exact h.distinct i hi k hk (hpresent i hi hit) (hpresent k hk hkt) heq
    apart := fun i hi hit => by
      rw [hplace i (by omega)]
      exact h.apart i hi (hpresent i hi hit)
    nonNull := fun i hi hit => by
      rw [hplace i (by omega)]
      exact h.nonNull i hi (hpresent i hi hit)
    fresh := fun i hi hit k hk => by
      rw [hplace i (by omega), hblocks]
      rw [hblocks] at hk
      exact h.fresh i hi (hpresent i hi hit) k hk
    noWindow := fun hwindow => h.noWindow ((htable 1023 (by decide)).mp hwindow)
    blocks := by
      rw [hblocks]
      exact h.blocks }

/-- The manager's own directory, with the window. -/
def switched (image : Image) (s : State) : State :=
  (s.setCr3 (pageSize * image.directoryFrame)).withMemory
    (store s.memory image.directoryFrame 1023 (windowEntry image))

theorem switched_of_ne {f : ℕ} (hf : f ≠ image.directoryFrame) (k : ℕ) :
    (switched image s).memory f k = s.memory f k := store_of_ne hf

theorem switched_directory (hk : k < 1023) :
    (switched image s).memory image.directoryFrame k = s.memory image.directoryFrame k :=
  store_of_ne_word hk.ne

theorem refines_switched (h : Refines image s initialPages) :
    Refines image (switched image s) initialPages := by
  have hetable : ∀ k, (switched image s).memory image.etableFrame k =
      s.memory image.etableFrame k := switched_of_ne (directory_ne_etable image).symm
  have htables : Tables image (switched image s) := tables_of_memory h.tables
    (fun i hi => switched_directory hi) (fun i _ => hetable i) rfl
  have hroot : (switched image s).root = image.directoryFrame := root_of_cr3 rfl
  have hlookup : ∀ i < 1023, ∀ j < 1024, lookup image (switched image s).memory i j =
      (initialPages (1024 * i + j)).map Mapping.entry := by
    intro i hi j hj
    rw [← h.lookup i hi j hj, lookup, hetable, lookup]
    by_cases htable : isPresent (s.memory image.etableFrame i) = true
    · have hapart := h.tables.apart i hi htable
      have hplace : tableOf image (switched image s).memory i = tableOf image s.memory i := by
        rw [tableOf, hetable, tableOf]
      simp only [List.mem_cons, not_or] at hapart
      rw [if_pos htable, if_pos htable, hplace, entryIn_congr (switched_of_ne hapart.1 j)]
    · rw [if_neg htable, if_neg htable]
  refine ⟨htables, ⟨Or.inr hroot, ?_, ?_⟩, hlookup⟩
  · intro k hk
    have hlt : k < 1024 := by
      have hdirectory := image.directory_lt
      have hetable := image.etable_lt
      simp only [List.mem_cons, List.not_mem_nil, or_false] at hk
      rcases hk with rfl | rfl
      · exact hdirectory
      · exact hetable
    have hpage : initialPages (1024 * 768 + k) = some ⟨Fin.ofNat (2 ^ 20) k, true⟩ := by
      rw [initialPages, if_neg (by omega), if_pos (by omega), Nat.add_sub_cancel_left]
    rw [hroot, walk_directory htables (by decide), hlookup 768 (by decide) k hlt, hpage,
      Option.map_some, Option.map_some, frameOf_entry]
    exact congrArg some (Nat.mod_eq_of_lt (by omega))
  · have hwindow : (switched image s).memory image.directoryFrame 1023 = windowEntry image :=
      store_self
    rw [hroot, hwindow]
    exact windowEntry_spec image

theorem switch_eq (h : Refines image s initialPages) :
    putPageEtable image (s.setCr3 (kernelVirtualAddrToPhysical (pageDirectory image))) =
      some (switched image s) := by
  have hphysical : kernelVirtualAddrToPhysical (pageDirectory image) =
      pageSize * image.directoryFrame := kernelVirtualAddrToPhysical_eq image.directory_lt
  have hlt := image.directory_lt
  have hpage : initialPages (1024 * 0 + image.directoryFrame) =
      some ⟨Fin.ofNat (2 ^ 20) image.directoryFrame, true⟩ := by
    rw [initialPages, if_pos (by omega)]
    simp
  have hwalk : walk s.memory image.directoryFrame 0 image.directoryFrame =
      some image.directoryFrame := by
    rw [walk_directory h.tables (by decide), h.lookup 0 (by decide) _ hlt, hpage,
      Option.map_some, Option.map_some, frameOf_entry]
    exact congrArg some (Nat.mod_eq_of_lt (by omega))
  have hroot : (s.setCr3 (pageSize * image.directoryFrame)).root = image.directoryFrame :=
    root_of_cr3 rfl
  have hself : walk (s.setCr3 (pageSize * image.directoryFrame)).memory
      (s.setCr3 (pageSize * image.directoryFrame)).root 0 image.directoryFrame =
        some image.directoryFrame := by
    rw [hroot]
    exact hwalk
  rw [hphysical]
  exact putPageEtable_eq rfl hlt hself

/-- What initialization leaves. -/
theorem initialize_spec (h : Booted image s) (hfirst : s.blocks 0 ≠ 0) (hsecond : s.blocks 1 ≠ 0) :
    ∃ t, initializeX image s = some t ∧ Refines image t initialPages ∧
      t.root = image.directoryFrame ∧ (t.blocks = fun k => s.blocks (k + 2)) ∧
      (∀ k, HasTable image t.memory k → k < 1024 → k = 0 ∨ k = 768) ∧
      ∀ g ∉ [image.directoryFrame, image.etableFrame, image.bootFrame],
        (∀ k < 1023, HasTable image t.memory k → tableOf image t.memory k ≠ g) →
          ∀ l, t.memory g l = s.memory g l := by
  obtain ⟨u, hu, hrefines, hblocks, hkeeps, htables⟩ := mapInitial_spec h hfirst hsecond
  have hetable : ∀ k, (switched image u).memory image.etableFrame k =
      u.memory image.etableFrame k := switched_of_ne (directory_ne_etable image).symm
  refine ⟨switched image u, ?_, refines_switched hrefines, root_of_cr3 rfl, hblocks, ?_, ?_⟩
  · obtain ⟨v, hv, hmap⟩ := Option.bind_eq_some_iff.mp hu
    obtain ⟨w, hw, hput⟩ := Option.bind_eq_some_iff.mp (prepare_eq h)
    have hpages : 0x400000 / pageSize = 1024 := by decide
    unfold initializeX
    rw [hpages]
    simp only [Option.bind_eq_bind, hw, hput, hv, hmap, Option.bind_some]
    exact switch_eq hrefines
  · intro k hk hlt
    rw [HasTable, hetable] at hk
    exact htables k hk hlt
  · intro g hg hfree l
    have hg' := hg
    simp only [List.mem_cons, List.not_mem_nil, or_false, not_or] at hg
    have harrays : g ∉ [image.directoryFrame, image.etableFrame] := fun hmem =>
      hg' (List.mem_append_left [image.bootFrame] hmem)
    have hmapped : u.memory g l = (prepared image s).memory g l := by
      refine hkeeps.others g harrays (fun k hk htable => ?_) l
      have htable' := hfree k hk
      rw [HasTable, tableOf, hetable] at htable'
      exact htable' htable
    have hprepared : (prepared image s).memory g l =
        clearFirst s.memory image.etableFrame 1024 g l := store_of_ne hg.2.2
    rw [switched_of_ne hg.1, hmapped, hprepared, clearFirst_of_ne hg.2.1]

end AviKernel.VirtualMgr
