import AviKernel.Memory.HeapRelease
import AviKernel.Memory.VirtualTables

/-!
# Growing the heap

`extend_heap` asks for a frame for each page, and `VirtualMgr::map` for one more where the
page table of the page is not there yet.  The first page whose own frame is `NULL` ends the
loop; the pages before it become a hole.
-/

namespace AviKernel.Heap

open State Holds
open VirtualMgr (getPageDirectoryIndex getPageDirectoryIndex_eq getPageDirectoryIndex_lt
  getPageTableIndex)

variable {s s' t : State} {holes live lost : List Extent} {e : Extent}
  {f i k n p page r : ℕ} {fs : List ℕ} {m : List (ℕ × ℕ)}

/-- How many pages `extend_heap` asks for. -/
def desiredPages (requiredSize : ℕ) : ℕ := add32 requiredSize 12 / 4096 + 1

/-! ## Counting frames -/

/-- The directory entries of consecutive pages. -/
def indices (page n : ℕ) : Finset ℕ :=
  (Finset.range n).image fun k => getPageDirectoryIndex (page + 4096 * k)

/-- How many frames consecutive pages take: one each, and one for each new page table. -/
def framesFor (s : State) (page n : ℕ) : ℕ :=
  n + ((indices page n).filter fun i => ¬ s.HasTable i).card

theorem mem_indices : i ∈ indices page n ↔
    ∃ k < n, getPageDirectoryIndex (page + 4096 * k) = i := by simp [indices]

theorem indices_succ (page n : ℕ) :
    indices page (n + 1) = insert (getPageDirectoryIndex (page + 4096 * n)) (indices page n) := by
  rw [indices, Finset.range_add_one, Finset.image_insert]
  rfl

theorem framesFor_congr (htables : s'.tables = s.tables) (page n : ℕ) :
    framesFor s' page n = framesFor s page n := by
  rw [framesFor, framesFor]
  congr 2
  exact Finset.filter_congr fun i _ => by rw [HasTable, HasTable, htables]

@[simp] theorem framesFor_zero (s : State) (page : ℕ) : framesFor s page 0 = 0 := rfl

/-- The next page takes a second frame unless its table is there or is that of a page before. -/
theorem framesFor_succ (s : State) (page n : ℕ) :
    framesFor s page (n + 1) = framesFor s page n + 1 +
      if s.HasTable (getPageDirectoryIndex (page + 4096 * n)) ∨
        getPageDirectoryIndex (page + 4096 * n) ∈ indices page n then 0 else 1 := by
  rw [framesFor, framesFor, indices_succ, Finset.filter_insert]
  generalize getPageDirectoryIndex (page + 4096 * n) = i
  by_cases htable : s.HasTable i
  · rw [if_neg (not_not.mpr htable), if_pos (Or.inl htable)]
    omega
  · rw [if_pos htable]
    by_cases hmem : i ∈ indices page n
    · have hfilter : i ∈ (indices page n).filter fun i => ¬ s.HasTable i :=
        Finset.mem_filter.mpr ⟨hmem, htable⟩
      rw [if_pos (Or.inr hmem), Finset.insert_eq_of_mem hfilter]
      omega
    · have hfilter : i ∉ (indices page n).filter fun i => ¬ s.HasTable i :=
        fun h => hmem (Finset.mem_of_mem_filter i h)
      rw [if_neg (not_or.mpr ⟨htable, hmem⟩), Finset.card_insert_of_notMem hfilter]
      omega

theorem framesFor_strictMono (s : State) (page : ℕ) : StrictMono (framesFor s page) := by
  refine strictMono_nat_of_lt_succ fun n => ?_
  rw [framesFor_succ]
  omega

theorem le_framesFor (s : State) (page n : ℕ) : n ≤ framesFor s page n := Nat.le_add_right n _

/-- There are no more page tables than directory entries. -/
theorem framesFor_le (s : State) (page n : ℕ) : framesFor s page n ≤ n + 1024 := by
  apply Nat.add_le_add_left
  have hsub : (indices page n).filter (fun i => ¬ s.HasTable i) ⊆ Finset.range 1024 := by
    intro i hi
    obtain ⟨k, -, rfl⟩ := mem_indices.mp (Finset.mem_of_mem_filter i hi)
    exact Finset.mem_range.mpr (getPageDirectoryIndex_lt _)
  exact (Finset.card_le_card hsub).trans_eq (Finset.card_range 1024)

/-- The frames that can still be delivered. -/
def delivered (s : State) : List ℕ := s.frames.takeWhile fun f => decide (f ≠ 0)

theorem delivered_nonzero (hf : f ∈ delivered s) : f ≠ 0 := by
  have hall := List.all_eq_true.mp List.all_takeWhile f hf
  exact of_decide_eq_true hall

theorem frames_eq (s : State) :
    s.frames = delivered s ++ s.frames.dropWhile fun f => decide (f ≠ 0) :=
  (List.takeWhile_append_dropWhile).symm

theorem getD_drop (l : List ℕ) (n k : ℕ) : (l.drop n).getD k 0 = l.getD (n + k) 0 := by
  rw [List.getD_eq_getElem?_getD, List.getElem?_drop, ← List.getD_eq_getElem?_getD]

theorem getD_tail (l : List ℕ) (k : ℕ) : l.tail.getD k 0 = l.getD (k + 1) 0 := by
  rw [← List.drop_one, getD_drop, Nat.add_comm]

theorem headD_dropWhile (l : List ℕ) : (l.dropWhile fun f => decide (f ≠ 0)).headD 0 = 0 := by
  induction l with
  | nil => rfl
  | cons f l ih =>
      by_cases hf : f = 0
      · simp [hf]
      · simpa [hf] using ih

theorem frame_ne_zero (hk : k < (delivered s).length) : s.frames.getD k 0 ≠ 0 := by
  rw [frames_eq s, List.getD_append _ _ _ _ hk, List.getD_eq_getElem _ _ hk]
  exact delivered_nonzero (List.getElem_mem hk)

theorem frame_delivered (s : State) : s.frames.getD (delivered s).length 0 = 0 := by
  have hzero := headD_dropWhile s.frames
  rw [List.headD_eq_getD, List.getD_eq_getElem?_getD] at hzero
  rw [List.getD_eq_getElem?_getD, frames_eq s, List.getElem?_append_right le_rfl, Nat.sub_self]
  exact hzero

/-! ## The pages that get a frame -/

/-- How many pages an extension gets: those before the first whose own frame is `NULL`. -/
def pagesDone (s : State) (r : ℕ) : ℕ :=
  Nat.findGreatest (fun n => ∀ k < n, s.frames.getD (framesFor s (s.lastPage + 4096) k) 0 ≠ 0)
    (min s.frames.length (desiredPages r))

theorem pagesDone_le (s : State) (r : ℕ) : pagesDone s r ≤ desiredPages r :=
  (Nat.findGreatest_le _).trans (min_le_right _ _)

theorem frame_of_lt_pagesDone (hk : k < pagesDone s r) :
    s.frames.getD (framesFor s (s.lastPage + 4096) k) 0 ≠ 0 := by
  have hspec := Nat.findGreatest_spec (P := fun n => ∀ k < n,
      s.frames.getD (framesFor s (s.lastPage + 4096) k) 0 ≠ 0)
    (Nat.zero_le (min s.frames.length (desiredPages r))) fun k hk => absurd hk (Nat.not_lt_zero k)
  exact hspec k hk

theorem le_pagesDone (hn : n ≤ desiredPages r)
    (hgot : ∀ k < n, s.frames.getD (framesFor s (s.lastPage + 4096) k) 0 ≠ 0) :
    n ≤ pagesDone s r := by
  refine Nat.le_findGreatest (le_min ?_ hn) hgot
  by_contra hlong
  obtain ⟨n, rfl⟩ := Nat.exists_eq_add_one_of_ne_zero (show n ≠ 0 by omega)
  refine hgot n (Nat.lt_succ_self n) (List.getD_eq_default _ _ ?_)
  have := le_framesFor s (s.lastPage + 4096) n
  omega

theorem frame_pagesDone (hfew : pagesDone s r < desiredPages r) :
    s.frames.getD (framesFor s (s.lastPage + 4096) (pagesDone s r)) 0 = 0 := by
  by_contra hgot
  refine absurd (le_pagesDone hfew fun k hk => ?_) (Nat.not_succ_le_self _)
  rcases Nat.lt_succ_iff_lt_or_eq.mp hk with hk | rfl
  · exact frame_of_lt_pagesDone hk
  · exact hgot

/-- With frames for all pages and their tables, no page is missing. -/
theorem pagesDone_eq
    (hall : framesFor s (s.lastPage + 4096) (desiredPages r) ≤ (delivered s).length) :
    pagesDone s r = desiredPages r := by
  refine le_antisymm (pagesDone_le s r) (le_pagesDone le_rfl fun k hk => frame_ne_zero ?_)
  exact (framesFor_strictMono s _ hk).trans_le hall

/-- No page is done exactly if the first frame is `NULL`. -/
theorem pagesDone_eq_zero : pagesDone s r = 0 ↔ delivered s = [] := by
  constructor
  · intro hnone
    have hfirst := frame_pagesDone (s := s) (r := r) (hnone ▸ Nat.succ_pos _)
    rw [hnone, framesFor_zero] at hfirst
    by_contra hne
    exact frame_ne_zero (List.length_pos_iff.mpr hne) hfirst
  · intro hnone
    by_contra hne
    have hfirst := frame_of_lt_pagesDone (Nat.pos_of_ne_zero hne)
    have hzero := frame_delivered s
    rw [hnone] at hzero
    exact hfirst hzero

/-! ## Mapping one page -/

theorem allocateBlock_eq (s : State) :
    s.allocateBlock = (s.frames.headD 0, { s with frames := s.frames.tail }) := by
  obtain ⟨memory, head, tail, lastPage, frames, tables, mapped⟩ := s
  cases frames <;> rfl

section Map

variable (s : State) (page frame : ℕ)

@[simp] theorem lastPage_map : (s.map page frame).lastPage = s.lastPage := by
  simp only [State.map, createTable, allocateBlock_eq]
  split_ifs <;> rfl

@[simp] theorem head_map : (s.map page frame).holesListHead = s.holesListHead := by
  simp only [State.map, createTable, allocateBlock_eq]
  split_ifs <;> rfl

@[simp] theorem tail_map : (s.map page frame).holesListTail = s.holesListTail := by
  simp only [State.map, createTable, allocateBlock_eq]
  split_ifs <;> rfl

@[simp] theorem mapped_map : (s.map page frame).mapped = (page, frame) :: s.mapped := by
  simp only [State.map, createTable, allocateBlock_eq]
  split_ifs <;> rfl

theorem frames_map : (s.map page frame).frames =
    if s.HasTable (getPageDirectoryIndex page) then s.frames else s.frames.tail := by
  simp only [State.map, createTable, allocateBlock_eq]
  split_ifs <;> rfl

theorem tables_map : (s.map page frame).tables =
    if s.HasTable (getPageDirectoryIndex page) then s.tables
    else (getPageDirectoryIndex page, s.frames.headD 0) :: s.tables := by
  simp only [State.map, createTable, allocateBlock_eq]
  split_ifs <;> rfl

theorem hasTable_map (i : ℕ) : (s.map page frame).HasTable i ↔
    s.HasTable i ∨ i = getPageDirectoryIndex page := by
  rw [HasTable, tables_map]
  split_ifs with htable
  · refine ⟨Or.inl, fun h => h.elim id ?_⟩
    rintro rfl
    exact htable
  · simp only [HasTable, List.map_cons, List.mem_cons]
    tauto

/-- A page table at address zero takes the page there and nothing else. -/
theorem byte_map {a : ℕ} (ha : 4096 ≤ a) :
    (s.map page frame).memory.byte a = s.memory.byte a := by
  have hindex : getPageTableIndex page < 1024 := VirtualMgr.getPageTableIndex_lt page
  have hclear : ∀ m : Memory, (m.clear 0 4096).byte a = m.byte a := fun m =>
    if_neg fun h => absurd h.2 (by omega)
  have hstore : ∀ (m : Memory) (w : ℕ),
      (m.store (4 * getPageTableIndex page) w).byte a = m.byte a := fun m w =>
    Memory.byte_store_of_not_mem (by omega)
  simp only [State.map, createTable, allocateBlock_eq]
  split_ifs <;> simp only [hclear, hstore]

end Map

/-- Mapping stores nothing as long as the page table is not at address zero. -/
theorem map_of_framed (page f : ℕ) (hframed : Framed s)
    (hgot : s.HasTable (getPageDirectoryIndex page) ∨ s.frames.headD 0 ≠ 0) :
    (s.map page f).memory = s.memory ∧ Framed (s.map page f) := by
  have hframed' : Framed (s.map page f) := by
    rw [Framed, tables_map]
    split_ifs with htable
    · exact hframed
    · exact List.forall_mem_cons.mpr ⟨hgot.resolve_left htable, hframed⟩
  refine ⟨?_, hframed'⟩
  have hzero : ∀ i, (i, 0) ∉ (s.map page f).tables := fun i hi => hframed' _ hi rfl
  by_cases htable : s.HasTable (getPageDirectoryIndex page)
  · have hnot : (getPageDirectoryIndex page, 0) ∉ s.tables := fun hi => hframed _ hi rfl
    simp only [State.map, if_pos htable, if_neg hnot]
  · have hne := hgot.resolve_left htable
    have hnot := hzero (getPageDirectoryIndex page)
    rw [tables_map, if_neg htable] at hnot
    simp only [State.map, createTable, allocateBlock_eq, if_neg htable, if_neg hne, if_neg hnot]

/-- One turn of the loop of `extend_heap`, its frame being there. -/
def mapPage (s : State) : State :=
  let (frame, s) := s.allocateBlock
  let s := s.map s.lastPage frame
  { s with lastPage := add32 s.lastPage 4096 }

theorem mapPage_eq (s : State) : mapPage s =
    { State.map { s with frames := s.frames.tail } s.lastPage (s.frames.headD 0) with
      lastPage := add32 s.lastPage 4096 } := by
  simp only [mapPage, allocateBlock_eq, lastPage_map]

theorem extendLoop_succ (s : State) (todo header done : ℕ) :
    extendLoop (todo + 1) s header done =
      if s.frames.headD 0 = 0 then (false, header, done, { s with frames := s.frames.tail })
      else extendLoop todo (mapPage s) (if header = 0 then s.lastPage else header) (done + 1) := by
  simp only [extendLoop, mapPage, allocateBlock_eq, lastPage_map]

section MapPage

variable (s : State)

@[simp] theorem lastPage_mapPage : (mapPage s).lastPage = add32 s.lastPage 4096 := by
  rw [mapPage_eq]

@[simp] theorem head_mapPage : (mapPage s).holesListHead = s.holesListHead := by
  simp only [mapPage_eq, head_map]

@[simp] theorem tail_mapPage : (mapPage s).holesListTail = s.holesListTail := by
  simp only [mapPage_eq, tail_map]

theorem byte_mapPage {a : ℕ} (ha : 4096 ≤ a) :
    (mapPage s).memory.byte a = s.memory.byte a := by
  simp only [mapPage_eq, byte_map _ _ _ ha]

theorem mapped_mapPage : (mapPage s).mapped = (s.lastPage, s.frames.headD 0) :: s.mapped := by
  simp only [mapPage_eq, mapped_map]

theorem frames_mapPage : (mapPage s).frames =
    s.frames.drop (1 + if s.HasTable (getPageDirectoryIndex s.lastPage) then 0 else 1) := by
  simp only [mapPage_eq, frames_map]
  by_cases htable : s.HasTable (getPageDirectoryIndex s.lastPage)
  · have htable' : State.HasTable { s with frames := s.frames.tail }
        (getPageDirectoryIndex s.lastPage) := htable
    rw [if_pos htable', if_pos htable, List.drop_one]
  · have htable' : ¬ State.HasTable { s with frames := s.frames.tail }
        (getPageDirectoryIndex s.lastPage) := htable
    rw [if_neg htable', if_neg htable, ← List.drop_one, ← List.drop_one, List.drop_drop]

theorem hasTable_mapPage (i : ℕ) : (mapPage s).HasTable i ↔
    s.HasTable i ∨ i = getPageDirectoryIndex s.lastPage := by
  have hmap := hasTable_map { s with frames := s.frames.tail } s.lastPage (s.frames.headD 0) i
  simpa only [HasTable, mapPage_eq] using hmap

end MapPage

/-- Mapping stores nothing as long as the second frame is there if it is asked for. -/
theorem mapPage_of_framed (hframed : Framed s)
    (hgot : s.HasTable (getPageDirectoryIndex s.lastPage) ∨ s.frames.getD 1 0 ≠ 0) :
    (mapPage s).memory = s.memory ∧ Framed (mapPage s) := by
  have hsecond : s.frames.tail.headD 0 = s.frames.getD 1 0 := by
    rw [List.headD_eq_getD, getD_tail]
  have hmap := map_of_framed (s := { s with frames := s.frames.tail }) s.lastPage
    (s.frames.headD 0) hframed
  rw [hsecond] at hmap
  obtain ⟨hmemory, hframed'⟩ := hmap hgot
  rw [Framed, mapPage_eq]
  exact ⟨hmemory, hframed'⟩

/-! ## Mapping consecutive pages -/

theorem indices_mod (page n : ℕ) : indices (page % 2 ^ 32) n = indices page n := by
  refine Finset.image_congr fun k _ => ?_
  simp only [getPageDirectoryIndex_eq]
  omega

theorem framesFor_mod (s : State) (page n : ℕ) :
    framesFor s (page % 2 ^ 32) n = framesFor s page n := by rw [framesFor, framesFor, indices_mod]

theorem lastPage_iterate (hlt : s.lastPage < 2 ^ 32) :
    (mapPage^[n] s).lastPage = (s.lastPage + 4096 * n) % 2 ^ 32 := by
  induction n with
  | zero => exact (Nat.mod_eq_of_lt hlt).symm
  | succ n ih =>
      rw [Function.iterate_succ_apply', lastPage_mapPage, ih, add32]
      omega

theorem index_iterate (hlt : s.lastPage < 2 ^ 32) :
    getPageDirectoryIndex (mapPage^[n] s).lastPage =
      getPageDirectoryIndex (s.lastPage + 4096 * n) := by
  rw [lastPage_iterate hlt, getPageDirectoryIndex_eq, getPageDirectoryIndex_eq]
  omega

theorem hasTable_iterate (hlt : s.lastPage < 2 ^ 32) :
    (mapPage^[n] s).HasTable i ↔ s.HasTable i ∨ i ∈ indices s.lastPage n := by
  induction n with
  | zero => simp [indices]
  | succ n ih =>
      rw [Function.iterate_succ_apply', hasTable_mapPage, ih, index_iterate hlt, indices_succ,
        Finset.mem_insert]
      tauto

/-- The pages have used up their frames and those of the new tables. -/
theorem frames_iterate (hlt : s.lastPage < 2 ^ 32) :
    (mapPage^[n] s).frames = s.frames.drop (framesFor s s.lastPage n) := by
  induction n with
  | zero => rfl
  | succ n ih =>
      rw [Function.iterate_succ_apply', frames_mapPage, ih, List.drop_drop, framesFor_succ,
        index_iterate hlt, Nat.add_assoc]
      simp only [hasTable_iterate hlt]

theorem own_frame (hlt : s.lastPage < 2 ^ 32) :
    (mapPage^[n] s).frames.headD 0 = s.frames.getD (framesFor s s.lastPage n) 0 := by
  rw [frames_iterate hlt, List.headD_eq_getD, getD_drop, Nat.add_zero]

/-- A page without a table takes two frames, and the second is the table's. -/
theorem second_frame (hlt : s.lastPage < 2 ^ 32)
    (henough : framesFor s s.lastPage (n + 1) ≤ (delivered s).length)
    (htable : ¬ (mapPage^[n] s).HasTable (getPageDirectoryIndex (mapPage^[n] s).lastPage)) :
    (mapPage^[n] s).frames.getD 1 0 ≠ 0 := by
  rw [hasTable_iterate hlt, index_iterate hlt] at htable
  rw [framesFor_succ, if_neg htable] at henough
  rw [frames_iterate hlt, getD_drop]
  exact frame_ne_zero (by omega)

/-- As long as every page and every new table gets a frame, nothing is stored. -/
theorem framed_iterate (hlt : s.lastPage < 2 ^ 32) (hframed : Framed s)
    (henough : framesFor s s.lastPage n ≤ (delivered s).length) :
    (mapPage^[n] s).memory = s.memory ∧ Framed (mapPage^[n] s) := by
  induction n with
  | zero => exact ⟨rfl, hframed⟩
  | succ n ih =>
      have hbefore := (framesFor_strictMono s s.lastPage (Nat.lt_succ_self n)).le
      obtain ⟨hmemory, hframed'⟩ := ih (hbefore.trans henough)
      rw [Function.iterate_succ_apply', ← hmemory]
      exact mapPage_of_framed hframed' (or_iff_not_imp_left.mpr (second_frame hlt henough))

@[simp] theorem head_iterate (s : State) (n : ℕ) :
    (mapPage^[n] s).holesListHead = s.holesListHead := by
  induction n with
  | zero => rfl
  | succ n ih => rw [Function.iterate_succ_apply', head_mapPage, ih]

@[simp] theorem tail_iterate (s : State) (n : ℕ) :
    (mapPage^[n] s).holesListTail = s.holesListTail := by
  induction n with
  | zero => rfl
  | succ n ih => rw [Function.iterate_succ_apply', tail_mapPage, ih]

theorem byte_iterate {a : ℕ} (s : State) (n : ℕ) (ha : 4096 ≤ a) :
    (mapPage^[n] s).memory.byte a = s.memory.byte a := by
  induction n with
  | zero => rfl
  | succ n ih => rw [Function.iterate_succ_apply', byte_mapPage _ ha, ih]

/-- The mappings of consecutive pages to the frames, from a first page on. -/
def mapFrames : ℕ → List ℕ → List (ℕ × ℕ) → List (ℕ × ℕ)
  | _, [], m => m
  | page, frame :: frames, m => mapFrames (page + 4096) frames ((page, frame) :: m)

theorem mapFrames_concat (page : ℕ) (fs : List ℕ) (f : ℕ) (m : List (ℕ × ℕ)) :
    mapFrames page (fs ++ [f]) m = (page + 4096 * fs.length, f) :: mapFrames page fs m := by
  induction fs generalizing page m with
  | nil => rfl
  | cons g fs ih =>
      rw [List.cons_append, mapFrames, ih, mapFrames, List.length_cons, Nat.mul_succ]
      congr 2
      omega

theorem mapped_iterate (htop : s.lastPage + 4096 * n ≤ 2 ^ 32) :
    ∃ fs, fs.length = n ∧ (mapPage^[n] s).mapped = mapFrames s.lastPage fs s.mapped := by
  induction n with
  | zero => exact ⟨[], rfl, rfl⟩
  | succ n ih =>
      obtain ⟨fs, hlength, hmapped⟩ := ih (by omega)
      have hlast : (mapPage^[n] s).lastPage = s.lastPage + 4096 * fs.length := by
        rw [lastPage_iterate (by omega), hlength]
        exact Nat.mod_eq_of_lt (by omega)
      refine ⟨fs ++ [(mapPage^[n] s).frames.headD 0], by simp [hlength], ?_⟩
      rw [Function.iterate_succ_apply', mapped_mapPage, hmapped, hlast, mapFrames_concat]

theorem mem_mapFrames {v : ℕ × ℕ} (hv : v ∈ mapFrames p fs m) :
    v ∈ m ∨ p ≤ v.1 ∧ v.1 + 4096 ≤ p + 4096 * fs.length := by
  induction fs generalizing p m with
  | nil => exact Or.inl hv
  | cons frame fs ih =>
      rw [List.length_cons]
      rcases ih hv with hv | ⟨hlow, hhigh⟩
      · rcases List.mem_cons.mp hv with rfl | hv
        · right
          show p ≤ p ∧ p + 4096 ≤ p + 4096 * (fs.length + 1)
          omega
        · exact Or.inl hv
      · right
        omega

theorem cover_mapFrames (p : ℕ) (fs : List ℕ) (m : List (ℕ × ℕ)) (a : ℕ) :
    cover ((mapFrames p fs m).map fun v => ⟨v.1, 4096⟩) a =
    cover (m.map fun v => ⟨v.1, 4096⟩) a + cover [⟨p, 4096 * fs.length⟩] a := by
  induction fs generalizing p m with
  | nil => simp [mapFrames, cover_cons]
  | cons frame fs ih =>
      have hsplit := indicator_split p 4096 (4096 * fs.length) a
      have hlength : 4096 * (frame :: fs).length = 4096 + 4096 * fs.length := by
        rw [List.length_cons]
        ring
      rw [mapFrames, ih, hlength]
      simp only [List.map_cons, cover_cons, cover_nil, hsplit]
      omega

/-! ## The loop -/

/-- The pages before the first `NULL` are mapped one after the other.  The first of them is
the header, unless it is the page at address zero. -/
theorem extendLoop_iterate (todo : ℕ) (hlt : s.lastPage < 2 ^ 32)
    (hgot : ∀ k < n, s.frames.getD (framesFor s s.lastPage k) 0 ≠ 0) :
    ∃ header, (s.lastPage ≠ 0 → header = if n = 0 then 0 else s.lastPage) ∧
      extendLoop (n + todo) s 0 0 = extendLoop todo (mapPage^[n] s) header n := by
  induction n generalizing todo with
  | zero => exact ⟨0, fun _ => rfl, by rw [Nat.zero_add, Function.iterate_zero_apply]⟩
  | succ n ih =>
      obtain ⟨header, hheader, hloop⟩ :=
        ih (todo + 1) fun k hk => hgot k (hk.trans (Nat.lt_succ_self n))
      have hne : (mapPage^[n] s).frames.headD 0 ≠ 0 := by
        rw [own_frame hlt]
        exact hgot n (Nat.lt_succ_self n)
      refine ⟨if header = 0 then (mapPage^[n] s).lastPage else header, fun hpos => ?_, ?_⟩
      · rw [hheader hpos, if_neg (Nat.succ_ne_zero n)]
        rcases Nat.eq_zero_or_pos n with rfl | hn
        · rfl
        · rw [if_neg hn.ne', if_neg hpos]
      · rw [Nat.succ_add_eq_add_succ, hloop, extendLoop_succ, if_neg hne,
          ← Function.iterate_succ_apply' mapPage]

/-- What the loop of `extend_heap` leaves; a `NULL` frame is used up, too. -/
def extended (s : State) (r : ℕ) : State :=
  let t := mapPage^[pagesDone s r] { s with lastPage := add32 s.lastPage 4096 }
  if pagesDone s r = desiredPages r then t else { t with frames := t.frames.tail }

theorem extendLoop_eq (s : State) (r : ℕ) :
    ∃ header, (add32 s.lastPage 4096 ≠ 0 →
        header = if pagesDone s r = 0 then 0 else add32 s.lastPage 4096) ∧
      extendLoop (desiredPages r) { s with lastPage := add32 s.lastPage 4096 } 0 0 =
        (decide (pagesDone s r = desiredPages r), header, pagesDone s r, extended s r) := by
  rw [extended]
  obtain ⟨s₁, hs₁⟩ : ∃ s₁ : State, { s with lastPage := add32 s.lastPage 4096 } = s₁ := ⟨_, rfl⟩
  have hlast : s₁.lastPage = add32 s.lastPage 4096 := by rw [← hs₁]
  have hlt : s₁.lastPage < 2 ^ 32 := hlast ▸ add32_lt
  have hown : ∀ k, s₁.frames.getD (framesFor s₁ s₁.lastPage k) 0 =
      s.frames.getD (framesFor s (s.lastPage + 4096) k) 0 := by
    intro k
    have htables : s₁.tables = s.tables := by rw [← hs₁]
    rw [framesFor_congr htables, hlast, add32, framesFor_mod, ← hs₁]
  have hgot : ∀ k < pagesDone s r, s₁.frames.getD (framesFor s₁ s₁.lastPage k) 0 ≠ 0 := by
    intro k hk
    rw [hown]
    exact frame_of_lt_pagesDone hk
  rw [hs₁, ← hlast]
  rcases (pagesDone_le s r).eq_or_lt with hall | hfew
  · obtain ⟨header, hheader, hloop⟩ := extendLoop_iterate 0 hlt hgot
    refine ⟨header, hheader, ?_⟩
    rw [Nat.add_zero, extendLoop] at hloop
    rw [if_pos hall, decide_eq_true hall, ← hloop, hall]
  · obtain ⟨todo, htodo⟩ := Nat.exists_eq_add_of_lt hfew
    have hnull : (mapPage^[pagesDone s r] s₁).frames.headD 0 = 0 := by
      rw [own_frame hlt, hown]
      exact frame_pagesDone hfew
    obtain ⟨header, hheader, hloop⟩ := extendLoop_iterate (todo + 1) hlt hgot
    refine ⟨header, hheader, ?_⟩
    rw [if_neg hfew.ne, decide_eq_false hfew.ne, htodo, Nat.add_assoc, hloop, extendLoop_succ,
      if_pos hnull]

/-- The header of the new hole is `NULL` if there was no frame at all. -/
theorem extendHeap_eq (s : State) (r : ℕ) :
    ∃ header, (add32 s.lastPage 4096 ≠ 0 →
        header = if pagesDone s r = 0 then 0 else add32 s.lastPage 4096) ∧
      s.extendHeap r = (((extended s r).setSize header
        (pagesDone s r * 4096 % 2 ^ 32)).insertToHolesList header).map
          fun s' => (decide (pagesDone s r = desiredPages r), s') := by
  obtain ⟨header, hheader, hloop⟩ := extendLoop_eq s r
  have hpages : add32 r 12 / 4096 + 1 = desiredPages r := rfl
  refine ⟨header, hheader, ?_⟩
  rw [State.extendHeap]
  simp only [hpages, hloop, Option.bind_eq_bind]
  cases insertToHolesList _ _ <;> rfl

/-! ## The new hole -/

/-- The extent of the hole that `extend_heap` adds. -/
def newHole (s : State) (pages : ℕ) : Extent := ⟨s.lastPage + 4096, 4096 * pages⟩

/-- There are frames for the next pages and their new page tables, the tables that are there
have got theirs, and the pages end below the page tables. -/
structure Mappable (s : State) (n : ℕ) : Prop where
  framed : Framed s
  frames : framesFor s (s.lastPage + 4096) n ≤ (delivered s).length
  room : s.lastPage + 4096 + 4096 * n ≤ windowStart

/-- Consecutive pages are mapped above the others. -/
structure Grows (s : State) (n : ℕ) (t : State) : Prop where
  memory : ∀ a, 4096 ≤ a → t.memory.byte a = s.memory.byte a
  head : t.holesListHead = s.holesListHead
  tail : t.holesListTail = s.holesListTail
  lastPage : t.lastPage = s.lastPage + 4096 + 4096 * n
  mapped : ∃ fs, fs.length = n ∧ t.mapped = mapFrames (s.lastPage + 4096) fs s.mapped

section Extended

variable (s : State) (r : ℕ)

@[simp] theorem head_extended : (extended s r).holesListHead = s.holesListHead := by
  rw [extended]
  split_ifs <;> rw [head_iterate]

@[simp] theorem tail_extended : (extended s r).holesListTail = s.holesListTail := by
  rw [extended]
  split_ifs <;> rw [tail_iterate]

theorem byte_extended {a : ℕ} (ha : 4096 ≤ a) :
    (extended s r).memory.byte a = s.memory.byte a := by
  rw [extended]
  split_ifs <;> rw [byte_iterate _ _ ha]

theorem lastPage_extended : (extended s r).lastPage =
    (s.lastPage + 4096 + 4096 * pagesDone s r) % 2 ^ 32 := by
  have hlast := lastPage_iterate (s := { s with lastPage := add32 s.lastPage 4096 })
    (n := pagesDone s r) add32_lt
  have hsplit : (extended s r).lastPage = (mapPage^[pagesDone s r]
      { s with lastPage := add32 s.lastPage 4096 }).lastPage := by
    rw [extended]
    split_ifs <;> rfl
  rw [hsplit, hlast, add32]
  exact Nat.mod_add_mod _ _ _

theorem mapped_extended : (extended s r).mapped = (mapPage^[pagesDone s r]
    { s with lastPage := add32 s.lastPage 4096 }).mapped := by
  rw [extended]
  split_ifs <;> rfl

variable {s r} in
theorem extended_of_none (hnone : pagesDone s r = 0) : extended s r =
    { s with lastPage := add32 s.lastPage 4096, frames := s.frames.tail } := by
  have hfew : (0 : ℕ) ≠ desiredPages r := (Nat.succ_ne_zero _).symm
  simp only [extended, hnone, Function.iterate_zero_apply, if_neg hfew]

end Extended

theorem grows_extended (hroom : s.lastPage + 4096 + 4096 * pagesDone s r ≤ windowStart) :
    Grows s (pagesDone s r) (extended s r) := by
  simp only [windowStart] at hroom
  have hwrap : add32 s.lastPage 4096 = s.lastPage + 4096 := add32_of_lt (by omega)
  have hmapped := mapped_iterate (s := { s with lastPage := s.lastPage + 4096 })
    (n := pagesDone s r) (show s.lastPage + 4096 + 4096 * pagesDone s r ≤ 2 ^ 32 by omega)
  refine ⟨fun a ha => byte_extended s r ha, head_extended s r, tail_extended s r, ?_, ?_⟩
  · rw [lastPage_extended]
    exact Nat.mod_eq_of_lt (by omega)
  · rw [mapped_extended, hwrap]
    exact hmapped

theorem framed_extended (hm : Mappable s (pagesDone s r)) :
    (extended s r).memory = s.memory ∧ Framed (extended s r) := by
  obtain ⟨hframed, hframes, hroom⟩ := hm
  simp only [windowStart] at hroom
  have hwrap : add32 s.lastPage 4096 = s.lastPage + 4096 := add32_of_lt (by omega)
  rw [extended, hwrap]
  generalize pagesDone s r = n at *
  obtain ⟨s₁, hs₁⟩ : ∃ s₁ : State, { s with lastPage := s.lastPage + 4096 } = s₁ := ⟨_, rfl⟩
  have hlast₁ : s₁.lastPage = s.lastPage + 4096 := by rw [← hs₁]
  obtain ⟨hmemory, hframed'⟩ := framed_iterate (s := s₁) (n := n) (by omega)
    (by rw [← hs₁]; exact hframed) (by rw [← hs₁]; exact hframes)
  rw [hs₁, show s.memory = s₁.memory by rw [← hs₁]]
  split_ifs
  · exact ⟨hmemory, hframed'⟩
  · exact ⟨hmemory, hframed'⟩

/-- The new hole comes after the others and ends below the page tables. -/
theorem Sound.newHole (hs : Sound holes) (hstart : heapStartAddr ≤ s.lastPage)
    (hends : ∀ e ∈ holes, e.start + e.size ≤ s.lastPage + 4096) (hone : 1 ≤ n)
    (hroom : s.lastPage + 4096 + 4096 * n ≤ windowStart) : Sound (holes ++ [newHole s n]) := by
  have hholes : Sound (holes ++ []) := by simpa using hs
  apply hholes.insert
  · show 12 ≤ 4096 * n
    omega
  · exact ⟨hstart.trans (Nat.le_add_right _ _), hroom⟩
  · exact hends
  · simp

/-- Consecutive pages above the others are linked in as one more hole. -/
theorem Holds.grow (hs : Holds s holes) (hsound : Sound (holes ++ [newHole s n]))
    (ht : Grows s n t) :
    ∃ s', (t.setSize (s.lastPage + 4096) (4096 * n)).insertToHolesList (s.lastPage + 4096) =
        some s' ∧
      Holds s' (holes ++ [newHole s n]) ∧ Touches (bytesOf (holes ++ [newHole s n])) t s' := by
  obtain ⟨hlow, htop⟩ := hsound.bounds (newHole s n) (by simp)
  simp only [newHole, heapStartAddr] at hlow
  simp only [newHole, windowStart] at htop
  have hbelow : ∀ e ∈ holes, e.start + 12 ≤ (newHole s n).start := by
    intro e he
    have hbig := hsound.big e (List.mem_append_left _ he)
    have hend := (List.pairwise_append.mp hsound.apart).2.2 e he _ (List.mem_singleton_self _)
    omega
  have hlisted : Holds t (holes ++ []) := by
    rw [List.append_nil]
    refine hs.congr (fun e he a hge _ => ht.memory a ?_) ht.head ht.tail
    have hstart := (hsound.bounds e (List.mem_append_left _ he)).1
    simp only [heapStartAddr] at hstart
    omega
  exact hlisted.listed (e := newHole s n) (show 0 < s.lastPage + 4096 by omega)
    (show s.lastPage + 4096 < 2 ^ 32 by omega) (show 4096 * n < 2 ^ 32 by omega) hbelow (by simp)
    (headersIn_bytesOf hsound.big)

/-- `extend_heap` links the pages that get a frame in as one more hole. -/
theorem Holds.extendHeap (hs : Holds s holes) (hone : 1 ≤ pagesDone s r)
    (hsound : Sound (holes ++ [newHole s (pagesDone s r)])) :
    ∃ s', s.extendHeap r = some (decide (pagesDone s r = desiredPages r), s') ∧
      Holds s' (holes ++ [newHole s (pagesDone s r)]) ∧
      Touches (bytesOf (holes ++ [newHole s (pagesDone s r)])) (extended s r) s' := by
  obtain ⟨-, hroom⟩ := hsound.bounds (newHole s (pagesDone s r)) (by simp)
  have htop := hroom
  simp only [newHole, windowStart] at htop
  have hwrap : add32 s.lastPage 4096 = s.lastPage + 4096 := add32_of_lt (by omega)
  have hsize : pagesDone s r * 4096 % 2 ^ 32 = 4096 * pagesDone s r := by
    rw [Nat.mul_comm]
    exact Nat.mod_eq_of_lt (by omega)
  obtain ⟨header, hheader, hextend⟩ := extendHeap_eq s r
  rw [hwrap, if_neg (by omega)] at hheader
  rw [hsize, hheader (by omega)] at hextend
  obtain ⟨s', hinsert, hs', ht⟩ := hs.grow hsound (grows_extended hroom)
  refine ⟨s', ?_, hs', ht⟩
  rw [hextend, hinsert]
  rfl

namespace Layout

theorem page_end (hl : Layout s holes live lost) {a : ℕ} (ha : 0 < cover s.pages a) :
    a < s.lastPage + 4096 := by
  obtain ⟨g, hg, hin⟩ := cover_pos_iff.mp ha
  obtain ⟨v, hv, rfl⟩ := List.mem_map.mp hg
  have := hl.mapped v hv
  rw [Extent.mem_mk] at hin
  omega

theorem member_end (hl : Layout s holes live lost) (he : e ∈ holes ++ live) :
    12 ≤ e.size ∧ e.start + e.size ≤ s.lastPage + 4096 := by
  have hbig : 12 ≤ e.size := by
    rcases List.mem_append.mp he with he | he
    · exact hl.sound.big e he
    · exact hl.liveBig e he
  have hlast : e.start + e.size - 1 ∈ e := by
    rw [Extent.mem_def]
    omega
  have hcov := hl.covered (e.start + e.size - 1)
  have hpos := cover_pos_of_mem he hlast
  rw [cover_append] at hpos
  have hend := hl.page_end (a := e.start + e.size - 1) (by omega)
  exact ⟨hbig, by omega⟩

theorem sound_newHole (hl : Layout s holes live lost) (hone : 1 ≤ k)
    (hroom : s.lastPage + 4096 + 4096 * k ≤ windowStart) : Sound (holes ++ [newHole s k]) :=
  hl.sound.newHole hl.lastPage.1 (fun _ he => (hl.member_end (List.mem_append_left live he)).2)
    hone hroom

/-- It lies where no page was. -/
theorem newHole_unmapped {a : ℕ} (hl : Layout s holes live lost) (ha : a ∈ newHole s k) :
    cover s.pages a = 0 := by
  by_contra hne
  have hlt := hl.page_end (Nat.pos_of_ne_zero hne)
  exact absurd ha.1 (Nat.not_le.mpr hlt)

/-- `extend_heap` adds the pages that get a frame to the layout. -/
theorem extendHeap (hl : Layout s holes live lost) (hone : 1 ≤ pagesDone s r)
    (hm : Mappable s (pagesDone s r)) :
    ∃ s', s.extendHeap r = some (decide (pagesDone s r = desiredPages r), s') ∧
      Layout s' (holes ++ [newHole s (pagesDone s r)]) live lost ∧
      (∀ a, cover s'.pages a = cover s.pages a + cover [newHole s (pagesDone s r)] a) ∧
      (∃ fs, fs.length = pagesDone s r ∧
        s'.mapped = mapFrames (s.lastPage + 4096) fs s.mapped) ∧
      Memory.Confined (bytesOf (holes ++ [newHole s (pagesDone s r)])) s.memory s'.memory := by
  have hsound := hl.sound_newHole hone hm.room
  obtain ⟨hmemory, -⟩ := framed_extended hm
  obtain ⟨-, -, -, hlast, fs, hlength, hmapped⟩ := grows_extended hm.room
  obtain ⟨s', hextend, hholds, ht⟩ := hl.holds.extendHeap hone hsound
  have hroom := hm.room
  generalize pagesDone s r = n at *
  have hconf : Memory.Confined (bytesOf (holes ++ [newHole s n])) s.memory s'.memory := by
    rw [← hmemory]
    exact ht.confined
  have hcovers := cover_mapFrames (s.lastPage + 4096) fs s.mapped
  have hmems : ∀ v ∈ mapFrames (s.lastPage + 4096) fs s.mapped, v ∈ s.mapped ∨
      s.lastPage + 4096 ≤ v.1 ∧ v.1 + 4096 ≤ s.lastPage + 4096 + 4096 * fs.length :=
    fun v hv => mem_mapFrames hv
  rw [hlength, ← hmapped] at hcovers hmems
  have hpages : ∀ a, cover s'.pages a = cover s.pages a + cover [newHole s n] a := by
    intro a
    rw [pages, ht.mapped]
    exact hcovers a
  refine ⟨s', hextend, ⟨hholds, hsound, ?_, hl.liveBig, ?_, ?_, ?_, ?_⟩, hpages,
    ⟨fs, hlength, ht.mapped.trans hmapped⟩, hconf⟩
  · intro c hc
    have hcend := hl.member_end (List.mem_append_right holes hc)
    have hdisj : ∀ e ∈ holes ++ [newHole s n], e.Disjoint c := by
      intro e he
      rcases List.mem_append.mp he with he | he
      · exact hl.hole_disjoint_live he hc
      · obtain rfl := List.mem_singleton.mp he
        exact Or.inr hcend.2
    rw [size_eq_of_confined hconf hdisj hcend.1]
    exact hl.recorded c hc
  · intro a
    have hcov := hl.covered a
    rw [hpages, cover_append]
    omega
  · intro a
    have honce := hl.once a
    rw [hpages]
    by_cases ha : a ∈ newHole s n
    · rw [hl.newHole_unmapped ha, cover_cons, if_pos ha, cover_nil]
    · rw [cover_cons, if_neg ha, cover_nil]
      exact honce
  · rw [ht.mapped, ht.lastPage, hlast]
    intro v hv
    rcases hmems v hv with hv | ⟨hlow, hhigh⟩
    · have hold := hl.mapped v hv
      exact ⟨hold.1, by omega, hold.2.2⟩
    · exact ⟨hl.lastPage.1.trans (by omega), by omega, hhigh.trans hroom⟩
  · rw [ht.lastPage, hlast]
    exact ⟨hl.lastPage.1.trans (by omega), hroom⟩

end Layout

/-! ## Enough frames, or too few -/

/-- The frames and the addresses that `extend_heap` needs are there. -/
def Supplied (s : State) (requiredSize : ℕ) : Prop := Mappable s (desiredPages requiredSize)

theorem Supplied.pagesDone_eq (hsup : Supplied s r) : pagesDone s r = desiredPages r :=
  Heap.pagesDone_eq hsup.frames

/-- With the frames it needs `extend_heap` is successful. -/
theorem Layout.extendHeap_supplied (hl : Layout s holes live lost) (hsup : Supplied s r) :
    ∃ s', s.extendHeap r = some (true, s') ∧
      Layout s' (holes ++ [newHole s (desiredPages r)]) live lost ∧
      (∀ a, cover s'.pages a = cover s.pages a + cover [newHole s (desiredPages r)] a) ∧
      Memory.Confined (bytesOf (holes ++ [newHole s (desiredPages r)])) s.memory s'.memory := by
  have hall := hsup.pagesDone_eq
  have hone : 1 ≤ pagesDone s r := hall ▸ Nat.succ_pos _
  obtain ⟨s', hextend, hl', hpages, -, hconf⟩ := hl.extendHeap hone (hall ▸ hsup)
  rw [decide_eq_true hall] at hextend
  rw [hall] at hl' hpages hconf
  exact ⟨s', hextend, hl', hpages, hconf⟩

/-- There are frames for some pages of the extension, and not for all of them. -/
structure Short (s : State) (r : ℕ) : Prop where
  some : 1 ≤ pagesDone s r
  few : pagesDone s r < desiredPages r
  mappable : Mappable s (pagesDone s r)

/-- The pages that got a frame become a hole. -/
theorem Layout.extendHeap_short (hl : Layout s holes live lost) (hshort : Short s r) :
    ∃ s', s.extendHeap r = some (false, s') ∧
      Layout s' (holes ++ [newHole s (pagesDone s r)]) live lost ∧
      (∀ a, cover s'.pages a = cover s.pages a + cover [newHole s (pagesDone s r)] a) ∧
      (∃ fs, fs.length = pagesDone s r ∧
        s'.mapped = mapFrames (s.lastPage + 4096) fs s.mapped) ∧
      Memory.Confined (bytesOf (holes ++ [newHole s (pagesDone s r)])) s.memory s'.memory := by
  have hextend := hl.extendHeap hshort.some hshort.mappable
  rw [decide_eq_false hshort.few.ne] at hextend
  exact hextend

instance (s : State) (n : ℕ) : Decidable (Mappable s n) :=
  decidable_of_iff (Framed s ∧ framesFor s (s.lastPage + 4096) n ≤ (delivered s).length ∧
      s.lastPage + 4096 + 4096 * n ≤ windowStart)
    ⟨fun h => ⟨h.1, h.2.1, h.2.2⟩, fun h => ⟨h.framed, h.frames, h.room⟩⟩

instance (s : State) (r : ℕ) : Decidable (Supplied s r) :=
  inferInstanceAs (Decidable (Mappable s (desiredPages r)))

instance (s : State) (r : ℕ) : Decidable (Short s r) :=
  decidable_of_iff (1 ≤ pagesDone s r ∧ pagesDone s r < desiredPages r ∧
      Mappable s (pagesDone s r))
    ⟨fun h => ⟨h.1, h.2.1, h.2.2⟩, fun h => ⟨h.some, h.few, h.mappable⟩⟩

end AviKernel.Heap
