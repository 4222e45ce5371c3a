import AviKernel.Memory.VirtualPages

/-!
# Users of pages, and memory without blocks

The bit that is set for a page which requires the supervisor is the one that
lets the user in.  Without a block a table is put at the null frame, which the
two arrays then name.
-/

namespace AviKernel.VirtualMgr

open Paging

variable {image : Image} {s s₀ t u : State} {pages : Pages} {c : Single} {i page : ℕ}
  {m : Mapping}

/-- The pages after some calls. -/
def pagesAfter (calls : List Call) : Pages :=
  (calls.flatMap Call.singles).foldl Pages.put initialPages

/-- The states after initialization and some calls, with their pages. -/
def Reached (image : Image) (s : State) (pages : Pages) : Prop :=
  ∃ s₀ s₁ calls, Booted image s₀ ∧ s₀.blocks 0 ≠ 0 ∧ s₀.blocks 1 ≠ 0 ∧
    initializeX image s₀ = some s₁ ∧
    (∀ c ∈ calls.flatMap Call.singles, c.Aligned ∧ c.index < 1023 ∧ KeepsArrays image c) ∧
    RunAll (mapSingle image) (Answered image) s₁ (calls.flatMap Call.singles) ∧
    run (fun s c => c.step image s) s₁ calls = some s ∧ pages = pagesAfter calls

theorem Reached.refines (h : Reached image s pages) :
    Refines image s pages ∧ s.root = image.directoryFrame := by
  obtain ⟨s₀, s₁, calls, hbooted, hfirst, hsecond, hs, hallowed, hanswered, hrun, rfl⟩ := h
  obtain ⟨u, hu, hrefines, hroot, -⟩ := initialize_spec hbooted hfirst hsecond
  have hsame : u = s₁ := Option.some.inj (hu.symm.trans hs)
  rw [hsame] at hrefines hroot
  obtain ⟨t, ht, hafter, hkeep⟩ := refines_run _ hrefines (fun c hc => (hallowed c hc).1)
    (fun c hc => (hallowed c hc).2.1) (Or.inr fun c hc => (hallowed c hc).2.2) hanswered
  rw [← run_calls, hrun] at ht
  rw [Option.some.inj ht]
  exact ⟨hafter, hkeep.trans hroot⟩

/-- May the user use a page? -/
def State.userMay (s : State) (page : ℕ) : Bool :=
  Paging.userMay s.memory s.root (page / 1024) (page % 1024)

/-- The pages of the user are those that do not require the supervisor. -/
def Protected (s : State) (pages : Pages) : Prop :=
  ∀ page < 1024 * 1023, ∀ m, pages page = some m → s.userMay page = !m.requiresSupervisor

theorem isUser_entry (m : Mapping) : isUser m.entry = m.requiresSupervisor :=
  PagingEntry.isUser_create

theorem userMay_of_refines (h : Refines image s pages) (hroot : s.root = image.directoryFrame)
    (hpage : page < 1024 * 1023) :
    s.userMay page = (pages page).any Mapping.requiresSupervisor := by
  have hi : page / 1024 < 1023 := by omega
  have hj : page % 1024 < 1024 := Nat.mod_lt _ (by decide)
  have hsplit : 1024 * (page / 1024) + page % 1024 = page := Nat.div_add_mod page 1024
  have hlookup := h.lookup _ hi _ hj
  rw [hsplit, lookup] at hlookup
  by_cases htable : isPresent (s.memory image.etableFrame (page / 1024)) = true
  · obtain ⟨hsmall, huser, hframe⟩ := h.tables.same _ hi htable
    have hpresent : isPresent (s.memory image.directoryFrame (page / 1024)) = true := by
      rwa [h.tables.agree _ hi]
    rw [if_pos htable] at hlookup
    rw [State.userMay, hroot, userMay_of_table hpresent huser hsmall, hframe, hlookup]
    cases pages page with
    | none => rfl
    | some m => exact isUser_entry m
  · have hnone : isPresent (s.memory image.directoryFrame (page / 1024)) = false := by
      rw [h.tables.agree _ hi]
      simpa using htable
    rw [if_neg htable] at hlookup
    have hunmapped : pages page = none := Option.map_eq_none_iff.mp hlookup.symm
    rw [State.userMay, hroot, Paging.userMay, hnone, hunmapped]
    rfl

/-- A page that is mapped has the wrong users. -/
theorem not_protected_of_refines (h : Refines image s pages) (hroot : s.root = image.directoryFrame)
    (hpage : page < 1024 * 1023) (hm : pages page = some m) : ¬Protected s pages := by
  intro hprotected
  have huser := userMay_of_refines h hroot hpage
  rw [hprotected page hpage m hm, hm, Option.any_some] at huser
  cases hm' : m.requiresSupervisor <;> rw [hm'] at huser <;> exact absurd huser (by decide)

theorem put_isSome (hpages : ∃ m, pages page = some m) (c : Single) :
    ∃ m, pages.put c page = some m := by
  rw [Pages.put, Function.update_apply]
  split_ifs
  · exact ⟨c.mapping, rfl⟩
  · exact hpages

/-- Pages stay mapped. -/
theorem foldl_put_isSome (singles : List Single) (hpages : ∃ m, pages page = some m) :
    ∃ m, singles.foldl Pages.put pages page = some m := by
  induction singles generalizing pages with
  | nil => exact hpages
  | cons c singles ih => exact ih (put_isSome hpages c)

theorem initialPages_zero : initialPages 0 = some ⟨0, true⟩ := by decide

theorem not_protected_of_run (h : Booted image s₀) (hfirst : s₀.blocks 0 ≠ 0)
    (hsecond : s₀.blocks 1 ≠ 0) : ∃ s, initializeX image s₀ = some s ∧
      (∀ calls : List Call, ¬∀ n t, run (fun s c => c.step image s) s (calls.take n) = some t →
        Protected t (pagesAfter (calls.take n))) ∧
      ∀ calls : List Call,
        (∀ c ∈ calls.flatMap Call.singles, c.Aligned ∧ c.index < 1023 ∧ KeepsArrays image c) →
        RunAll (mapSingle image) (Answered image) s (calls.flatMap Call.singles) →
        ∃ t, run (fun s c => c.step image s) s calls = some t ∧ ¬Protected t (pagesAfter calls) ∧
          ∀ page < 1024 * 1023,
            t.userMay page = (pagesAfter calls page).any Mapping.requiresSupervisor := by
  obtain ⟨s, hs, hrefines, hroot, -, -⟩ := initialize_spec h hfirst hsecond
  refine ⟨s, hs, fun calls hall => ?_, fun calls hallowed hanswered => ?_⟩
  · have hfirst : Protected s initialPages := hall 0 s (by rw [List.take_zero]; rfl)
    exact not_protected_of_refines hrefines hroot (by decide) initialPages_zero hfirst
  · obtain ⟨t, ht, hafter, hkeep⟩ := refines_run _ hrefines (fun c hc => (hallowed c hc).1)
      (fun c hc => (hallowed c hc).2.1) (Or.inr fun c hc => (hallowed c hc).2.2) hanswered
    rw [← run_calls] at ht
    obtain ⟨m, hm⟩ := foldl_put_isSome (calls.flatMap Call.singles) ⟨_, initialPages_zero⟩
    have hroott := hkeep.trans hroot
    exact ⟨t, ht, not_protected_of_refines hafter hroott (by decide) hm,
      fun page hpage => userMay_of_refines hafter hroott hpage⟩

/-- A page for the supervisor and one for the user. -/
def twoPages : List Call := [.map 0x400000 0x5000 true, .map 0x401000 0x6000 false]

theorem allowed_twoPages : ∀ c ∈ twoPages.flatMap Call.singles, Allowed c := by decide

theorem booted_blocks (hs : initializeX someImage someBoot = some s) : s.blocks 0 ≠ 0 := by
  obtain ⟨u, hu, -, -, hblocks, -⟩ := initialize_spec booted_someBoot (by decide) (by decide)
  have hsame : u = s := Option.some.inj (hu.symm.trans hs)
  rw [← hsame, hblocks]
  decide

/-- The second page is in the table of the first one. -/
theorem answered_twoPages (hs : initializeX someImage someBoot = some s) :
    RunAll (mapSingle someImage) (Answered someImage) s (twoPages.flatMap Call.singles) := by
  obtain ⟨u, hu, hrefines, -, -, -⟩ := initialize_spec booted_someBoot (by decide) (by decide)
  have hsame : u = s := Option.some.inj (hu.symm.trans hs)
  rw [hsame] at hrefines
  have hblock : Answered someImage s somePage := Or.inr (booted_blocks hs)
  have hkeeps : KeepsArrays someImage somePage := (by decide : Allowed somePage).keepsArrays _
  obtain ⟨t, ht, -, hspec⟩ := refines_step hrefines (by decide) (by decide) hblock (Or.inr hkeeps)
  refine ⟨hblock, fun t' ht' => ⟨Or.inl ?_, fun _ _ => trivial⟩⟩
  have hsame' : t = t' := Option.some.inj (ht.symm.trans ht')
  rw [← hsame']
  exact (hspec.hasTable 1).mpr (Or.inl rfl)

theorem not_protected_twoPages : ∃ s t, initializeX someImage someBoot = some s ∧
    run (fun s (c : Call) => c.step someImage s) s twoPages = some t ∧
    ¬Protected t (pagesAfter twoPages) := by
  obtain ⟨s, hs, -, hcalls⟩ := not_protected_of_run booted_someBoot (by decide) (by decide)
  obtain ⟨t, ht, hnot, -⟩ := hcalls twoPages
    (fun c hc => ⟨(allowed_twoPages c hc).1, (allowed_twoPages c hc).index_lt,
      (allowed_twoPages c hc).keepsArrays _⟩) (answered_twoPages hs)
  exact ⟨s, t, hs, ht, hnot⟩

theorem userMay_twoPages : ∃ s t, initializeX someImage someBoot = some s ∧
    run (fun s (c : Call) => c.step someImage s) s twoPages = some t ∧
    pagesAfter twoPages 1024 = some ⟨5, true⟩ ∧ t.userMay 1024 = true ∧
    pagesAfter twoPages 1025 = some ⟨6, false⟩ ∧ t.userMay 1025 = false := by
  obtain ⟨s, hs, hrefines, hroot, -, -⟩ :=
    initialize_spec booted_someBoot (by decide) (by decide)
  obtain ⟨t, ht, hafter, hkeep⟩ := refines_run _ hrefines
    (fun c hc => (allowed_twoPages c hc).1) (fun c hc => (allowed_twoPages c hc).index_lt)
    (Or.inr fun c hc => (allowed_twoPages c hc).keepsArrays _) (answered_twoPages hs)
  rw [← run_calls] at ht
  have hsupervisor : pagesAfter twoPages 1024 = some ⟨5, true⟩ := by decide
  have huser : pagesAfter twoPages 1025 = some ⟨6, false⟩ := by decide
  refine ⟨s, t, hs, ht, hsupervisor, ?_, huser, ?_⟩
  · have hmay : t.userMay 1024 = _ := userMay_of_refines hafter (hkeep.trans hroot) (by decide)
    rw [hmay]
    exact congrArg (Option.any Mapping.requiresSupervisor) hsupervisor
  · have hmay : t.userMay 1025 = _ := userMay_of_refines hafter (hkeep.trans hroot) (by decide)
    rw [hmay]
    exact congrArg (Option.any Mapping.requiresSupervisor) huser

/-! ## Without blocks -/

/-- The two arrays name the same tables, no two indexes share one, and none is at
the null frame. -/
structure Consistent (image : Image) (s : State) : Prop where
  present : ∀ i < 1023, isPresent (s.memory image.directoryFrame i) =
    isPresent (s.memory image.etableFrame i)
  frame : ∀ i < 1023, HasTable image s.memory i →
    frameOf (s.memory image.directoryFrame i) = tableOf image s.memory i
  distinct : ∀ i < 1023, ∀ k < 1023, HasTable image s.memory i → HasTable image s.memory k →
    tableOf image s.memory i = tableOf image s.memory k → i = k
  nonNull : ∀ i < 1023, HasTable image s.memory i → tableOf image s.memory i ≠ 0

theorem Tables.consistent (h : Tables image s) : Consistent image s where
  present := h.agree
  frame i hi htable := (h.same i hi htable).2.2
  distinct := h.distinct
  nonNull := h.nonNull

/-- The table that is made without a block. -/
theorem map_null (h : Refines image s pages) (haligned : c.Aligned) (hindex : c.index < 1023)
    (hnull : ¬Answered image s c) : ∃ u, mapSingle image s c = some u ∧
      HasTable image u.memory c.index ∧ tableOf image u.memory c.index = 0 ∧
      u.memory 0 (c.page % 1024) = c.mapping.entry := by
  obtain ⟨hfree, hblock⟩ := not_or.mp hnull
  have hzero : s.blocks 0 / 4096 = 0 := by
    rw [not_not.mp hblock]
  have hmap : mapSingle image s c = some (mapped image s c.index (c.page % 1024)
      c.mapping.entry) := by
    rw [← entry_mapping haligned, ← tableIndex_eq]
    exact map_eq h.reach h.tables haligned.1 haligned.2 hindex
  have htable : tableOf image (withTable image s c.index).memory c.index = 0 := by
    rw [tableOf_withTable_self h.tables.blocks, hzero]
  have hmapped : mapped image s c.index (c.page % 1024) c.mapping.entry =
      withPage image (withTable image s c.index) c.index (c.page % 1024) c.mapping.entry :=
    if_neg hfree
  have hetable : image.etableFrame ≠ tableOf image (withTable image s c.index).memory c.index := by
    have hlinked := image.linked image.etableFrame (by simp)
    omega
  refine ⟨_, hmap, ?_, ?_, ?_⟩
  · rw [hmapped, HasTable, withPage_of_ne hetable]
    exact (hasTable_withTable h.tables.blocks c.index).mpr (Or.inl rfl)
  · rw [hmapped, tableOf, withPage_of_ne hetable]
    exact htable
  · rw [hmapped, withPage, htable]
    exact store_self

theorem consistent_step_iff (h : Refines image s pages) (haligned : c.Aligned)
    (hindex : c.index < 1023) :
    (∀ u, mapSingle image s c = some u → Consistent image u) ↔ Answered image s c := by
  constructor
  · intro hconsistent
    by_contra hnull
    obtain ⟨u, hu, htable, hzero, -⟩ := map_null h haligned hindex hnull
    exact (hconsistent u hu).nonNull c.index hindex htable hzero
  · intro hanswered u hu
    obtain ⟨t, ht, hspec⟩ := map_spec h.reach h.tables haligned.1 haligned.2 hindex hanswered
      c.requiresSupervisor
    have hsame : t = u := Option.some.inj (ht.symm.trans hu)
    rw [← hsame]
    exact hspec.tables.consistent

theorem consistent_of_run (h : Booted image s₀) (hfirst : s₀.blocks 0 ≠ 0)
    (hsecond : s₀.blocks 1 ≠ 0) : ∃ s, initializeX image s₀ = some s ∧
      ∀ singles : List Single,
        (∀ c ∈ singles, c.Aligned ∧ c.index < 1023 ∧ KeepsArrays image c) →
        RunAll (mapSingle image) (Answered image) s singles →
        ∃ t, run (mapSingle image) s singles = some t ∧ Consistent image t ∧
          ∀ c : Single, c.Aligned → c.index < 1023 →
            ((∀ u, mapSingle image t c = some u → Consistent image u) ↔ Answered image t c) := by
  obtain ⟨s, hs, hrefines, hroot, -, -⟩ := initialize_spec h hfirst hsecond
  refine ⟨s, hs, fun singles hallowed hanswered => ?_⟩
  obtain ⟨t, ht, hafter, -⟩ := refines_run _ hrefines (fun c hc => (hallowed c hc).1)
    (fun c hc => (hallowed c hc).2.1) (Or.inr fun c hc => (hallowed c hc).2.2) hanswered
  exact ⟨t, ht, hafter.tables.consistent, fun c haligned hindex =>
    consistent_step_iff hafter haligned hindex⟩

theorem consistent_of_run_somePage : ∃ s t, initializeX someImage someBoot = some s ∧
    mapSingle someImage s somePage = some t ∧ Consistent someImage t := by
  obtain ⟨s, hs, hcalls⟩ := consistent_of_run booted_someBoot (by decide) (by decide)
  have hallowed : ∀ c ∈ [somePage], Allowed c := by decide
  obtain ⟨t, ht, hconsistent, -⟩ := hcalls [somePage]
    (fun c hc => ⟨(hallowed c hc).1, (hallowed c hc).index_lt, (hallowed c hc).keepsArrays _⟩)
    ⟨Or.inr (booted_blocks hs), fun _ _ => trivial⟩
  rw [run_cons] at ht
  obtain ⟨u, hu, hrest⟩ := Option.bind_eq_some_iff.mp ht
  have hsame : u = t := Option.some.inj hrest
  rw [← hsame] at hconsistent
  exact ⟨s, u, hs, hu, hconsistent⟩

/-- The two blocks of the boot are the last ones.  The next table is at the null
frame, and so is its page. -/
theorem not_consistent_of_two_blocks : ∃ s t, initializeX someImage (bootWith 2) = some s ∧
    mapSingle someImage s somePage = some t ∧ ¬Consistent someImage t ∧
    HasTable someImage t.memory 1 ∧ tableOf someImage t.memory 1 = 0 ∧
    t.memory 0 0 = somePage.mapping.entry := by
  obtain ⟨s, hs, hrefines, -, hblocks, htables, -⟩ :=
    initialize_spec (booted_bootWith (by decide : 2 ≤ 0x10000)) (by decide) (by decide)
  have hnull : ¬Answered someImage s somePage := by
    rintro (htable | hblock)
    · exact absurd (htables 1 htable (by decide)) (by decide)
    · rw [hblocks] at hblock
      exact absurd hblock (by decide)
  obtain ⟨t, ht, htable, hzero, hpage⟩ := map_null hrefines (by decide) (by decide) hnull
  exact ⟨s, t, hs, ht, fun hconsistent => hconsistent.nonNull 1 (by decide) htable hzero, htable,
    hzero, hpage⟩

end AviKernel.VirtualMgr
