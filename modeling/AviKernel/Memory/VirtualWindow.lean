import AviKernel.Memory.VirtualProtection

/-!
# The window

The last entry of the directory is an entry like the others.  Mappings below it
leave it alone, whatever the blocks are and whichever pages of the kernel are
moved; a mapping at it replaces the window by a new table.
-/

namespace AviKernel.VirtualMgr

open Paging

variable {image : Image} {s s₀ t u : State} {pages : Pages} {c : Single} {i j k f g w : ℕ}

/-- The last entry of the directory is the window, through which each table is
reached. -/
structure WindowKept (image : Image) (s : State) : Prop where
  present : isPresent (s.memory image.directoryFrame 1023) = true
  small : isLarge (s.memory image.directoryFrame 1023) = false
  frame : frameOf (s.memory image.directoryFrame 1023) = image.etableFrame
  walk : ∀ i < 1024, s.walkPage (windowPage i) = pageIn s.memory image.etableFrame i

/-- No table is one of the two arrays. -/
structure Guarded (image : Image) (s : State) : Prop where
  root : s.root = image.directoryFrame
  present : isPresent (s.memory image.directoryFrame 1023) = true
  small : isLarge (s.memory image.directoryFrame 1023) = false
  frame : frameOf (s.memory image.directoryFrame 1023) = image.etableFrame
  apart : ∀ i < 1023, HasTable image s.memory i →
    tableOf image s.memory i ∉ [image.directoryFrame, image.etableFrame]
  blocks : FreshBlocks image s.blocks

theorem Guarded.walk_window (h : Guarded image s) (i : ℕ) :
    Paging.walk s.memory s.root 1023 i = pageIn s.memory image.etableFrame i := by
  rw [h.root, walk_of_table h.present h.small, h.frame]

theorem Guarded.windowKept (h : Guarded image s) : WindowKept image s where
  present := h.present
  small := h.small
  frame := h.frame
  walk i hi := by
    rw [State.walkPage, windowPage_div hi, windowPage_mod hi, h.walk_window]

/-! ## Stores -/

theorem State.store_some (hi : i < 1024) (hj : j < 1024) (hk : k < 1024)
    (h : s.store (address i j k) w = some t) : ∃ f, Paging.walk s.memory s.root i j = some f ∧
      t = s.withMemory (Paging.store s.memory f k w) := by
  obtain ⟨cpu, hcpu, ht⟩ := Option.map_eq_some_iff.mp h
  obtain ⟨f, hwalk, hstore⟩ := Cpu.store_some hi hj hk hcpu
  refine ⟨f, hwalk, ?_⟩
  rw [← ht, hstore]
  rfl

/-- A word that is not the last one of its frame may be stored, if no table of
the window becomes one of the arrays. -/
theorem guarded_store (h : Guarded image s) (hk : k < 1023)
    (hw : frameOf w ∉ [image.directoryFrame, image.etableFrame]) :
    Guarded image (s.withMemory (Paging.store s.memory f k w)) := by
  have hlast : Paging.store s.memory f k w image.directoryFrame 1023 =
      s.memory image.directoryFrame 1023 := store_of_ne_word hk.ne'
  refine ⟨h.root, ?_, ?_, ?_, fun i hi htable => ?_, h.blocks⟩
  · rw [State.memory_withMemory, hlast]
    exact h.present
  · rw [State.memory_withMemory, hlast]
    exact h.small
  · rw [State.memory_withMemory, hlast]
    exact h.frame
  · by_cases hword : image.etableFrame = f ∧ i = k
    · have hself : Paging.store s.memory f k w image.etableFrame i = w := if_pos hword
      rw [tableOf, State.memory_withMemory, hself]
      exact hw
    · have hkeep : Paging.store s.memory f k w image.etableFrame i =
          s.memory image.etableFrame i := if_neg hword
      rw [HasTable, State.memory_withMemory, hkeep] at htable
      rw [tableOf, State.memory_withMemory, hkeep]
      exact h.apart i hi htable

/-- Any word of a frame other than the arrays may be stored. -/
theorem guarded_store_of_ne (h : Guarded image s)
    (hf : f ∉ [image.directoryFrame, image.etableFrame]) :
    Guarded image (s.withMemory (Paging.store s.memory f k w)) := by
  simp only [List.mem_cons, List.not_mem_nil, or_false, not_or] at hf
  have hdirectory : ∀ l, Paging.store s.memory f k w image.directoryFrame l =
      s.memory image.directoryFrame l := fun l => store_of_ne (Ne.symm hf.1)
  have hetable : ∀ l, Paging.store s.memory f k w image.etableFrame l =
      s.memory image.etableFrame l := fun l => store_of_ne (Ne.symm hf.2)
  refine ⟨h.root, ?_, ?_, ?_, fun i hi htable => ?_, h.blocks⟩
  · rw [State.memory_withMemory, hdirectory]
    exact h.present
  · rw [State.memory_withMemory, hdirectory]
    exact h.small
  · rw [State.memory_withMemory, hdirectory]
    exact h.frame
  · rw [HasTable, State.memory_withMemory, hetable] at htable
    rw [tableOf, State.memory_withMemory, hetable]
    exact h.apart i hi htable

/-- Through the window only tables are written. -/
theorem guarded_window_store (h : Guarded image s) (hi : i < 1023) (hk : k < 1024)
    (hstore : s.store (address 1023 i k) w = some t) : Guarded image t := by
  obtain ⟨f, hwalk, rfl⟩ := State.store_some (by decide) (by omega) hk hstore
  apply guarded_store_of_ne h
  rw [h.walk_window] at hwalk
  by_cases htable : isPresent (s.memory image.etableFrame i) = true
  · rw [pageIn_of_present htable] at hwalk
    rw [← Option.some.inj hwalk]
    exact h.apart i hi htable
  · rw [pageIn, entryIn_of_not_present (by simpa using htable)] at hwalk
    exact absurd hwalk.symm (Option.some_ne_none f)

theorem guarded_clearWords {n : ℕ} (h : Guarded image s) (hi : i < 1023) (hn : n ≤ 1024)
    (hclear : s.clearWords (address 1023 i 0) n = some t) : Guarded image t := by
  induction n generalizing t with
  | zero =>
      rw [← Option.some.inj hclear]
      exact h
  | succ n ih =>
      obtain ⟨u, hu, hstore⟩ := Option.bind_eq_some_iff.mp hclear
      rw [add32_address (by decide) (by omega) (by omega)] at hstore
      exact guarded_window_store (ih (by omega) hu) hi (by omega) hstore

/-! ## Calls -/

theorem Guarded.allocate (h : Guarded image s) :
    Guarded image { s with blocks := fun k => s.blocks (k + 1) } :=
  ⟨h.root, h.present, h.small, h.frame, h.apart, h.blocks.tail⟩

theorem FreshBlocks.frame_notMem_arrays {blocks : ℕ → ℕ} (h : FreshBlocks image blocks) (k : ℕ) :
    blocks k / 4096 ∉ [image.directoryFrame, image.etableFrame] := fun hmem =>
  h.frame_notMem k (List.mem_append_left [image.bootFrame] hmem)

theorem guarded_createTable (h : Guarded image s) (hi : i < 1023)
    (hcreate : createTable image s i = some t) : Guarded image t := by
  have hi' : i < 1024 := by omega
  have hblock := h.blocks.frame_notMem_arrays 0
  have hlt := h.blocks.lt 0
  unfold createTable at hcreate
  rw [pageEtable_add, pageDirectory_add, getPageTableVirtualAddress_eq hi'] at hcreate
  obtain ⟨u, hetable, hcreate⟩ := Option.bind_eq_some_iff.mp hcreate
  obtain ⟨v, hdirectory, hclear⟩ := Option.bind_eq_some_iff.mp hcreate
  obtain ⟨f, -, rfl⟩ := State.store_some (by decide) image.etable_lt hi' hetable
  obtain ⟨g, -, rfl⟩ := State.store_some (by decide) image.directory_lt hi' hdirectory
  have hentry : frameOf (PageTableEntry.create true true true (s.blocks 0)) =
      s.blocks 0 / 4096 := PagingEntry.frameOf_create hlt
  have hentry' : frameOf (PageDirectoryEntry.create true true true false (s.blocks 0)) =
      s.blocks 0 / 4096 := PagingEntry.frameOf_directory_create hlt
  have hfirst := guarded_store h.allocate (f := f) hi (by rw [hentry]; exact hblock)
  have hsecond := guarded_store hfirst (f := g) hi (by rw [hentry']; exact hblock)
  exact guarded_clearWords hsecond hi le_rfl hclear

/-- A mapping that returns has put the page into its table. -/
theorem map_some {v p : ℕ} {b : Bool} (h : map image s v p b = some t) :
    ∃ u, (u = s ∨ createTable image s (getPageDirectoryIndex v) = some u) ∧
      u.store (address 1023 (getPageDirectoryIndex v) (getPageTableIndex v))
        (PageTableEntry.create true true b p) = some t := by
  have haddress : getPageTableVirtualAddress (getPageDirectoryIndex v) + 4 * getPageTableIndex v =
      address 1023 (getPageDirectoryIndex v) (getPageTableIndex v) := by
    rw [getPageTableVirtualAddress_eq (getPageDirectoryIndex_lt v)]
    rfl
  unfold map at h
  split_ifs at h
  obtain ⟨e, -, h⟩ := Option.bind_eq_some_iff.mp h
  dsimp only at h
  rw [haddress] at h
  split_ifs at h
  · exact ⟨s, Or.inl rfl, h⟩
  · obtain ⟨u, hu, hstore⟩ := Option.bind_eq_some_iff.mp h
    exact ⟨u, Or.inr hu, hstore⟩

theorem guarded_step (h : Guarded image s) (hindex : c.index ≠ 1023)
    (hmap : mapSingle image s c = some t) : Guarded image t := by
  have hi : c.index < 1023 := by
    have hlt : c.index < 1024 := getPageDirectoryIndex_lt _
    omega
  obtain ⟨u, hu, hstore⟩ := map_some hmap
  have hguarded : Guarded image u := by
    rcases hu with rfl | hcreate
    · exact h
    · exact guarded_createTable h hi hcreate
  exact guarded_window_store hguarded hi (getPageTableIndex_lt _) hstore

theorem guarded_of_refines (h : Refines image s pages) (hroot : s.root = image.directoryFrame) :
    Guarded image s := by
  obtain ⟨hpresent, hsmall, hframe⟩ := h.reach.window
  rw [hroot] at hpresent hsmall hframe
  exact ⟨hroot, hpresent, hsmall, hframe, fun i hi htable hmem =>
    h.tables.apart i hi htable (List.mem_append_left [image.bootFrame] hmem), h.tables.blocks⟩

theorem windowKept_of_run (h : Booted image s₀) (hfirst : s₀.blocks 0 ≠ 0)
    (hsecond : s₀.blocks 1 ≠ 0) : ∃ s, initializeX image s₀ = some s ∧
      ∀ calls : List Call, (∀ c ∈ calls.flatMap Call.singles, c.index ≠ 1023) →
        ∀ t, run (fun s c => c.step image s) s calls = some t → WindowKept image t := by
  obtain ⟨s, hs, hrefines, hroot, -⟩ := initialize_spec h hfirst hsecond
  refine ⟨s, hs, fun calls hbelow t ht => ?_⟩
  rw [run_calls] at ht
  have hrun : RunAll (mapSingle image) (fun _ c => c.index ≠ 1023) s
      (calls.flatMap Call.singles) := runAll_of_forall hbelow
  have hguarded : Guarded image t := run_preserves (fun _ _ _ hI hok hmap =>
    guarded_step hI hok hmap) (guarded_of_refines hrefines hroot) hrun ht
  exact hguarded.windowKept

theorem windowKept_of_run_somePage : ∃ s, initializeX someImage someBoot = some s ∧
    ∀ t, run (fun s (c : Call) => c.step someImage s) s [Call.map 0x400000 0x5000 true] = some t →
      WindowKept someImage t := by
  obtain ⟨s, hs, hcalls⟩ := windowKept_of_run booted_someBoot (by decide) (by decide)
  exact ⟨s, hs, hcalls [Call.map 0x400000 0x5000 true] (by decide)⟩

/-! ## The last index -/

section LastIndex

variable (h : Refines image s pages) (hroot : s.root = image.directoryFrame)
  (hpresent : isPresent (s.memory (s.blocks 0 / 4096) 1023) = true)
  (hframe : frameOf (s.memory (s.blocks 0 / 4096) 1023) = g)
  (hg : g ∉ [image.directoryFrame, s.blocks 0 / 4096])

include hg

theorem last_directory (n : ℕ) :
    clearFirst (withNamed image s 1023).memory g n image.directoryFrame 1023 =
      PageDirectoryEntry.create true true true false (s.blocks 0) := by
  simp only [List.mem_cons, List.not_mem_nil, or_false, not_or] at hg
  rw [clearFirst_of_ne (Ne.symm hg.1)]
  exact named_directory _

include h hroot hpresent hframe

/-- The page at the end of the window is what the last word of the new table
says. -/
theorem walk_last (n : ℕ) : Paging.walk (clearFirst (withNamed image s 1023).memory g n)
    (withNamed image s 1023).root 1023 1023 = some g := by
  have hlt := h.tables.blocks.lt 0
  have hentry := last_directory hg n
  simp only [List.mem_cons, List.not_mem_nil, or_false, not_or] at hg
  have hroot' : (withNamed image s 1023).root = image.directoryFrame := hroot
  have htable : frameOf (PageDirectoryEntry.create true true true false (s.blocks 0)) =
      s.blocks 0 / 4096 := PagingEntry.frameOf_directory_create hlt
  have hword : clearFirst (withNamed image s 1023).memory g n (s.blocks 0 / 4096) 1023 =
      s.memory (s.blocks 0 / 4096) 1023 := by
    rw [clearFirst_of_ne (Ne.symm hg.2)]
    exact named_of_ne_frame _ (block_ne_directory h.tables.blocks) (block_ne_etable h.tables.blocks)
  have hpresent' : isPresent (clearFirst (withNamed image s 1023).memory g n
      image.directoryFrame 1023) = true := by
    rw [hentry]
    exact PagingEntry.isPresent_directory_create
  have hsmall : isLarge (clearFirst (withNamed image s 1023).memory g n
      image.directoryFrame 1023) = false := by
    rw [hentry]
    exact PagingEntry.isLarge_directory_create
  rw [hroot', walk_of_table hpresent' hsmall, hentry, htable, pageIn_congr hword,
    pageIn_of_present hpresent, hframe]

/-- A mapping at the last index puts a new table in the place of the window. -/
theorem map_last (haligned : c.Aligned) (hindex : c.index = 1023) :
    ∃ t, mapSingle image s c = some t ∧
      frameOf (t.memory image.directoryFrame 1023) = s.blocks 0 / 4096 := by
  have hwalk := walk_last h hroot hpresent hframe hg
  have hentry := last_directory hg 1024
  have hlt := h.tables.blocks.lt 0
  have hj : getPageTableIndex c.vAddr.toNat < 1024 := getPageTableIndex_lt _
  have hindex' : getPageDirectoryIndex c.vAddr.toNat = 1023 := hindex
  have haddress : getPageTableVirtualAddress 1023 + 4 * getPageTableIndex c.vAddr.toNat =
      address 1023 1023 (getPageTableIndex c.vAddr.toNat) := by
    rw [getPageTableVirtualAddress_eq (by decide)]
    rfl
  simp only [List.mem_cons, List.not_mem_nil, or_false, not_or] at hg
  have hfree : ¬isPresent (s.memory image.etableFrame 1023) = true := h.tables.noWindow
  have hcleared : Paging.walk ((withNamed image s 1023).withMemory
      (clearFirst (withNamed image s 1023).memory g 1024)).memory
        (withNamed image s 1023).root 1023 1023 = some g := hwalk 1024
  have hmap : mapSingle image s c = some ((withNamed image s 1023).withMemory
      (Paging.store (clearFirst (withNamed image s 1023).memory g 1024) g
        (getPageTableIndex c.vAddr.toNat)
        (PageTableEntry.create true true c.requiresSupervisor c.pAddr.toNat))) := by
    rw [mapSingle, map_eq_bind h.reach haligned.1 haligned.2, hindex', if_neg hfree,
      createTable_eq_clear h.reach h.tables (by decide),
      State.clearWords_address (by decide) (by decide) le_rfl fun n _ => hwalk n,
      Option.bind_some, haddress, State.store_address (by decide) (by decide) hj hcleared]
    rfl
  refine ⟨_, hmap, ?_⟩
  rw [State.memory_withMemory, store_of_ne (Ne.symm hg.1), hentry]
  exact PagingEntry.frameOf_directory_create hlt

end LastIndex

/-- A boot with words left in memory: the last word of each block names the
frame at eight megabytes. -/
def dirtyBoot : State where
  cpu :=
    { memory := fun f k =>
        if f = 0x112 ∧ (k = 0 ∨ k = 768) then 0x83
        else if 0x400 ≤ f ∧ k = 1023 then 0x800003
        else 0
      cr3 := 0x112000 }
  blocks := someBoot.blocks

theorem booted_dirtyBoot : Booted someImage dirtyBoot where
  cr3 := rfl
  low := rfl
  kernel := rfl
  directory k _ := by
    simp only [State.memory, dirtyBoot, someImage]
    rw [if_neg (by omega), if_neg (by omega)]
  blocks := booted_someBoot.blocks

/-- The page at the end of memory. -/
def lastPage : Single := ⟨0xFFFFF000, 0x5000, true⟩

theorem not_windowKept_lastPage : ∃ s t, initializeX someImage dirtyBoot = some s ∧
    WindowKept someImage s ∧ mapSingle someImage s lastPage = some t ∧
    frameOf (t.memory someImage.directoryFrame 1023) = 0x402 ∧ ¬WindowKept someImage t := by
  obtain ⟨s, hs, hrefines, hroot, hblocks, htables, hothers⟩ :=
    initialize_spec booted_dirtyBoot (by decide) (by decide)
  have hblock : s.blocks 0 / 4096 = 0x402 := by
    rw [hblocks]
    decide
  have hword : s.memory (s.blocks 0 / 4096) 1023 = 0x800003 := by
    rw [hothers _ (hrefines.tables.blocks.frame_notMem 0)
      (fun k hk htable => (hrefines.tables.block_ne_table hk htable).symm), hblock]
    rfl
  obtain ⟨t, ht, hframe⟩ := map_last (c := lastPage) hrefines hroot (by rw [hword]; decide) rfl
    (by rw [hword, hblock]; decide) (by decide) (by decide)
  rw [hblock] at hframe
  refine ⟨s, t, hs, (guarded_of_refines hrefines hroot).windowKept, ht, hframe, fun hkept => ?_⟩
  rw [hkept.frame] at hframe
  exact absurd hframe (by decide)

end AviKernel.VirtualMgr
