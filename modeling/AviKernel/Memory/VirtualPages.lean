import AviKernel.Memory.VirtualBoot

/-!
# The walk after any calls

After initialization and after every call the processor finds each page where
it was last mapped, and in the window the table of each directory index.  A page
of the window is thus mapped together with the table that it shows.
-/

namespace AviKernel.VirtualMgr

open Paging

variable {image : Image} {s s₀ t : State} {pages : Pages} {c : Single} {i : ℕ}

/-- The frame that the processor finds for a page. -/
def State.walkPage (s : State) (page : ℕ) : Option ℕ :=
  walk s.memory s.root (page / 1024) (page % 1024)

/-- The page of the window that shows the table of a directory index. -/
def windowPage (i : ℕ) : ℕ := 1024 * 1023 + i

/-- The table that the directory in use has for an index. -/
def State.table (s : State) (i : ℕ) : Option ℕ :=
  if isPresent (s.memory s.root i) then some (frameOf (s.memory s.root i)) else none

/-- The processor finds the pages, and the tables in the window. -/
structure Gives (s : State) (pages : Pages) : Prop where
  pages : ∀ page < 1024 * 1023, s.walkPage page = (pages page).map fun m => m.frame.val
  window : ∀ i < 1023, s.walkPage (windowPage i) = s.table i
  last : s.walkPage (windowPage 1023) = none

/-- A page that may be mapped after initialization. -/
def Allowed (c : Single) : Prop := c.Aligned ∧ c.index ≠ 1023 ∧ c.index ≠ 768

instance (c : Single) : Decidable (Allowed c) := inferInstanceAs (Decidable (_ ∧ _ ∧ _))

theorem Allowed.index_lt (h : Allowed c) : c.index < 1023 := by
  have hlt : c.index < 1024 := getPageDirectoryIndex_lt _
  have hne := h.2.1
  omega

theorem Allowed.keepsArrays (h : Allowed c) (image : Image) : KeepsArrays image c := by
  intro harray
  have hdirectory := image.directory_lt
  have hetable := image.etable_lt
  have hindex := index_eq c
  have hne := h.2.2
  omega

theorem windowPage_div (hi : i < 1024) : windowPage i / 1024 = 1023 := by
  unfold windowPage
  omega

theorem windowPage_mod (hi : i < 1024) : windowPage i % 1024 = i := by
  unfold windowPage
  omega

theorem walkPage_window (hr : Reach image s) (hi : i < 1024) :
    s.walkPage (windowPage i) = pageIn s.memory image.etableFrame i := by
  rw [State.walkPage, windowPage_div hi, windowPage_mod hi, hr.walk_window]

theorem gives_of_refines (h : Refines image s pages) (hroot : s.root = image.directoryFrame) :
    Gives s pages where
  pages page hpage := by
    have hi : page / 1024 < 1023 := by omega
    have hj : page % 1024 < 1024 := Nat.mod_lt _ (by decide)
    have hsplit : 1024 * (page / 1024) + page % 1024 = page := Nat.div_add_mod page 1024
    rw [State.walkPage, hroot, walk_directory h.tables hi, h.lookup _ hi _ hj, hsplit,
      Option.map_map]
    cases pages page with
    | none => rfl
    | some m => exact congrArg some (frameOf_entry m)
  window i hi := by
    rw [walkPage_window h.reach (by omega), State.table, hroot, h.tables.agree i hi, pageIn,
      entryIn]
    by_cases htable : isPresent (s.memory image.etableFrame i) = true
    · rw [if_pos htable, if_pos htable, (h.tables.same i hi htable).2.2]
      rfl
    · rw [if_neg htable, if_neg htable]
      rfl
  last := by
    have hnone : isPresent (s.memory image.etableFrame 1023) = false := by
      simpa [HasTable] using h.tables.noWindow
    rw [walkPage_window h.reach (by decide), pageIn, entryIn_of_not_present hnone]
    rfl

/-- The pages of the boot stay where they were. -/
theorem walkPage_booted (h : Booted image s) {page : ℕ}
    (hpage : page / 1024 = 0 ∨ page / 1024 = 768) :
    s.walkPage page = (initialPages page).map fun m => m.frame.val := by
  have hsplit := Nat.div_add_mod page 1024
  have hlt : page % 1024 < 1024 := Nat.mod_lt _ (by decide)
  rcases hpage with hlow | hhigh
  · have hinitial : initialPages page = some ⟨Fin.ofNat (2 ^ 20) page, true⟩ := if_pos (by omega)
    rw [State.walkPage, h.root, hlow, walk_large h.low, hinitial]
    have hpage : page % 2 ^ 20 = page % 1024 := by omega
    exact congrArg some hpage.symm
  · have hinitial : initialPages page = some ⟨Fin.ofNat (2 ^ 20) (page - 1024 * 768), true⟩ := by
      rw [initialPages, if_neg (by omega), if_pos (by omega)]
    rw [State.walkPage, h.root, hhigh, walk_large h.kernel, hinitial]
    have hpage : (page - 1024 * 768) % 2 ^ 20 = page % 1024 := by omega
    exact congrArg some hpage.symm

theorem gives_of_run (h : Booted image s₀) (hfirst : s₀.blocks 0 ≠ 0) (hsecond : s₀.blocks 1 ≠ 0) :
    ∃ s, initializeX image s₀ = some s ∧ Gives s initialPages ∧
      (∀ page, page / 1024 = 0 ∨ page / 1024 = 768 → s.walkPage page = s₀.walkPage page) ∧
      ∀ calls : List Call, (∀ c ∈ calls.flatMap Call.singles, Allowed c) →
        RunAll (mapSingle image) (Answered image) s (calls.flatMap Call.singles) →
        ∃ t, run (fun s c => c.step image s) s calls = some t ∧
          Gives t ((calls.flatMap Call.singles).foldl Pages.put initialPages) := by
  obtain ⟨s, hs, hrefines, hroot, -, -⟩ := initialize_spec h hfirst hsecond
  have hgives := gives_of_refines hrefines hroot
  refine ⟨s, hs, hgives, fun page hpage => ?_, fun calls hallowed hanswered => ?_⟩
  · rw [walkPage_booted h hpage, hgives.pages page (by omega)]
  · obtain ⟨t, ht, hafter, hkeep⟩ := refines_run _ hrefines (fun c hc => (hallowed c hc).1)
      (fun c hc => (hallowed c hc).index_lt)
      (Or.inr fun c hc => (hallowed c hc).keepsArrays image) hanswered
    rw [← run_calls] at ht
    exact ⟨t, ht, gives_of_refines hafter (hkeep.trans hroot)⟩

/-! ## A machine -/

/-- The arrays in the second megabyte. -/
def someImage : Image := ⟨0x110, 0x111, 0x112, by decide, by decide, by decide, by decide, by decide⟩

/-- The directory of the boot, and blocks from the fifth megabyte on. -/
def bootWith (blocks : ℕ) : State where
  cpu :=
    { memory := fun f k => if f = 0x112 ∧ (k = 0 ∨ k = 768) then 0x83 else 0
      cr3 := 0x112000 }
  blocks k := if k < blocks then 4096 * (0x400 + k) else 0

theorem booted_bootWith {blocks : ℕ} (h : blocks ≤ 0x10000) : Booted someImage (bootWith blocks) where
  cr3 := rfl
  low := rfl
  kernel := rfl
  directory k _ := rfl
  blocks := by
    refine ⟨?_, ?_, ?_, ?_⟩
    · intro k
      simp only [bootWith]
      split_ifs <;> omega
    · intro k
      simp only [bootWith]
      split_ifs <;> omega
    · intro k l hk heq
      simp only [bootWith] at hk heq
      split_ifs at hk heq <;> omega
    · intro k hk
      simp only [bootWith] at hk ⊢
      split_ifs at hk ⊢ with hlt
      · simp only [someImage, List.mem_cons, List.not_mem_nil, or_false]
        omega
      · exact absurd rfl hk

/-- The boot with four megabytes of blocks. -/
def someBoot : State := bootWith 1024

theorem booted_someBoot : Booted someImage someBoot := booted_bootWith (by decide)

/-- The page at four megabytes. -/
def somePage : Single := ⟨0x400000, 0x5000, true⟩

theorem gives_of_run_somePage : ∃ s t, initializeX someImage someBoot = some s ∧
    run (fun s (c : Call) => c.step someImage s) s [Call.map 0x400000 0x5000 true] = some t ∧
    Gives t (initialPages.put somePage) := by
  obtain ⟨s, hs, -, -, hcalls⟩ := gives_of_run booted_someBoot (by decide) (by decide)
  obtain ⟨u, hu, -, -, hblocks, -⟩ := initialize_spec booted_someBoot (by decide) (by decide)
  have hsame : u = s := Option.some.inj (hu.symm.trans hs)
  obtain ⟨t, ht, hgives⟩ := hcalls [Call.map 0x400000 0x5000 true] (by decide)
    ⟨Or.inr (by rw [← hsame, hblocks]; decide), fun _ _ => trivial⟩
  exact ⟨s, t, hs, ht, hgives⟩

/-- Mapping the page at four megabytes also maps the page of the window that
shows its table. -/
theorem not_only_page : ¬∀ (image : Image) (s₀ s : State) (c : Single) (t : State),
    Booted image s₀ → (∀ k < 1023, s₀.blocks k ≠ 0) → initializeX image s₀ = some s →
    Allowed c → mapSingle image s c = some t →
      ∀ page, page ≠ c.page → t.walkPage page = s.walkPage page := by
  intro h
  obtain ⟨s, hs, hrefines, hroot, hblocks, htables, -⟩ :=
    initialize_spec booted_someBoot (by decide) (by decide)
  have hnone : ¬HasTable someImage s.memory 1 := fun htable =>
    absurd (htables 1 htable (by decide)) (by decide)
  have hblock : s.blocks 0 ≠ 0 := by
    rw [hblocks]
    decide
  obtain ⟨t, ht, hafter, hspec⟩ := refines_step (c := somePage) hrefines (by decide) (by decide)
    (Or.inr hblock) (Or.inr ((by decide : Allowed somePage).keepsArrays someImage))
  have hsame := h someImage someBoot s somePage t booted_someBoot
    (fun k hk => by
      have hpos : someBoot.blocks k = 4096 * (0x400 + k) := if_pos (by omega)
      omega) hs (by decide) ht (windowPage 1) (by decide)
  have hbefore : isPresent (s.memory someImage.etableFrame 1) = false := by
    simpa [HasTable] using hnone
  have hpresent : isPresent (t.memory someImage.etableFrame 1) = true :=
    (hspec.hasTable 1).mpr (Or.inl (by decide))
  rw [walkPage_window hafter.reach (by decide), walkPage_window hrefines.reach (by decide), pageIn,
    pageIn, entryIn_of_present hpresent, entryIn_of_not_present hbefore] at hsame
  exact Option.some_ne_none _ hsame

end AviKernel.VirtualMgr
