import AviKernel.Memory.HeapPages
import AviKernel.Memory.VirtualPages

/-!
# The page tables behind the heap

The heap keeps of the virtual memory manager the frames still to come, the page tables that
are there and the pages it has mapped.  A page that the heap maps is mapped by
`VirtualMgr::map`, and both take the same frames.  So at the end of a run the processor finds
a place for each byte of a hole or a chunk, and no two pages of the heap share a frame.
-/

namespace AviKernel.Heap

open State
open VirtualMgr (FreshBlocks Image getPageDirectoryIndex getPageTableIndex getPageDirectoryIndex_eq
  getPageTableIndex_eq getPageTableIndex_lt initialPages)

variable {image : Image} {s t : State} {v w : VirtualMgr.State} {u : Config}
  {holes live lost : List Extent} {frames : List ℕ} {c : Config} {k : Call} {calls : List Call}
  {page frame i j n r : ℕ}

/-- The frame that a page was mapped to last. -/
def State.frameAt (s : State) (page : ℕ) : Option ℕ :=
  (s.mapped.find? fun m => decide (m.1 = page)).map Prod.snd

/-- What the heap keeps of the virtual memory manager is true of it. -/
structure Behind (image : Image) (v : VirtualMgr.State) (s : State) : Prop where
  tables : VirtualMgr.Tables image v
  reach : VirtualMgr.Reach image v
  root : v.root = image.directoryFrame
  blocks : ∀ k, v.blocks k = s.frames.getD k 0
  hasTable : ∀ i < 1023, VirtualMgr.HasTable image v.memory i ↔ s.HasTable i
  lookup : ∀ i < 1023, 771 ≤ i → ∀ j < 1024, VirtualMgr.lookup image v.memory i j =
    (s.frameAt (2 ^ 22 * i + 4096 * j)).map (PageTableEntry.create true true true)

theorem frameAt_map (s : State) (page frame p : ℕ) : (s.map page frame).frameAt p =
    if page = p then some frame else s.frameAt p := by
  rw [State.frameAt, mapped_map, List.find?_cons, State.frameAt]
  by_cases hpage : page = p
  · simp [hpage]
  · simp [hpage]

/-- A page of the heap by its indices. -/
theorem page_eq_iff (hpage : page % 4096 = 0) (hlt : page < 2 ^ 32) (hi : i < 1024)
    (hj : j < 1024) :
    page = 2 ^ 22 * i + 4096 * j ↔ i = getPageDirectoryIndex page ∧ j = getPageTableIndex page := by
  rw [getPageDirectoryIndex_eq, getPageTableIndex_eq]
  omega

/-- `VirtualMgr::map` does what the heap sees of it, if a new table gets a frame. -/
theorem behind_map (hb : Behind image v s) (hpage : page % 4096 = 0)
    (hregion : heapStartAddr ≤ page ∧ page < windowStart) (hframe : frame % 4096 = 0)
    (hgot : s.HasTable (getPageDirectoryIndex page) ∨ s.frames.headD 0 ≠ 0) :
    ∃ w, VirtualMgr.map image v page frame true = some w ∧ Behind image w (s.map page frame) := by
  simp only [heapStartAddr, windowStart] at hregion
  have hindex : 771 ≤ getPageDirectoryIndex page ∧ getPageDirectoryIndex page < 1023 := by
    rw [getPageDirectoryIndex_eq]
    omega
  have hnext : v.blocks 0 = s.frames.headD 0 := by rw [hb.blocks, List.headD_eq_getD]
  have hblock : VirtualMgr.HasTable image v.memory (getPageDirectoryIndex page) ∨
      v.blocks 0 ≠ 0 := by
    rw [hb.hasTable _ hindex.2, hnext]
    exact hgot
  obtain ⟨w, hmap, hspec⟩ :=
    VirtualMgr.map_spec hb.reach hb.tables hpage hframe hindex.2 hblock true
  refine ⟨w, hmap, hspec.tables, hspec.reach (Or.inr (Or.inl (by omega))),
    hspec.root.trans hb.root, fun k => ?_, fun i hi => ?_, fun i hi hlow j hj => ?_⟩
  · rw [frames_map]
    by_cases htable : s.HasTable (getPageDirectoryIndex page)
    · rw [if_pos htable, hspec.blocksKept ((hb.hasTable _ hindex.2).mpr htable)]
      exact hb.blocks k
    · rw [if_neg htable, hspec.blocksTaken fun h => htable ((hb.hasTable _ hindex.2).mp h)]
      show v.blocks (k + 1) = _
      rw [hb.blocks, getD_tail]
  · rw [hspec.hasTable, hasTable_map, hb.hasTable i hi, or_comm]
  · rw [hspec.lookup i hi j hj, frameAt_map, hb.lookup i hi hlow j hj]
    simp only [page_eq_iff hpage (by omega) (show i < 1024 by omega) hj]
    split_ifs <;> rfl

theorem behind_allocate (hb : Behind image v s) :
    v.allocateBlock.1 = s.frames.headD 0 ∧
      Behind image v.allocateBlock.2 { s with frames := s.frames.tail } := by
  obtain ⟨htables, hreach, hroot, hblocks, hhas, hlookup⟩ := hb
  have htail : ∀ k, v.blocks (k + 1) = s.frames.tail.getD k 0 := by
    intro k
    rw [hblocks, getD_tail]
  refine ⟨?_, ⟨htables.agree, htables.same, htables.distinct, htables.apart, htables.nonNull,
    fun i hi htable k => htables.fresh i hi htable (k + 1), htables.noWindow,
    htables.blocks.tail⟩, ⟨hreach.root, hreach.kernel, hreach.window⟩, hroot, htail, hhas, hlookup⟩
  show v.blocks 0 = _
  rw [hblocks, List.headD_eq_getD]

theorem Behind.congr (hb : Behind image v s) (hframes : t.frames = s.frames)
    (htables : t.tables = s.tables) (hmapped : t.mapped = s.mapped) : Behind image v t := by
  refine ⟨hb.tables, hb.reach, hb.root, fun k => ?_, fun i hi => ?_, fun i hi hlow j hj => ?_⟩
  · rw [hframes]
    exact hb.blocks k
  · rw [hb.hasTable i hi, HasTable, HasTable, htables]
  · rw [hb.lookup i hi hlow j hj, State.frameAt, State.frameAt, hmapped]

/-- The frames of the mapped pages are different, and none of them is still to come. -/
structure Owned (s : State) : Prop where
  once : (s.mapped.map Prod.snd).Nodup
  aligned : ∀ m ∈ s.mapped, m.1 % 4096 = 0 ∧ m.2 % 4096 = 0 ∧ m.2 < 2 ^ 32
  fresh : ∀ m ∈ s.mapped, ∀ k, s.frames.getD k 0 ≠ m.2

theorem Owned.congr (ho : Owned s) (hframes : t.frames = s.frames)
    (hmapped : t.mapped = s.mapped) : Owned t := by
  refine ⟨?_, ?_, ?_⟩
  · rw [hmapped]
    exact ho.once
  · rw [hmapped]
    exact ho.aligned
  · rw [hmapped, hframes]
    exact ho.fresh

/-- Frames that are used up stay with their pages. -/
theorem Owned.drop (ho : Owned s) {n : ℕ} (hframes : t.frames = s.frames.drop n)
    (hmapped : t.mapped = s.mapped) : Owned t := by
  refine ⟨by rw [hmapped]; exact ho.once, by rw [hmapped]; exact ho.aligned, ?_⟩
  rw [hmapped, hframes]
  intro m hm k
  rw [getD_drop]
  exact ho.fresh m hm _

/-! ## Pages -/

/-- What the heap asks for: a page with a frame, or a frame that turns out to be `NULL`. -/
inductive Demand where
  | page (addr : ℕ)
  | null

def demand (image : Image) (v : VirtualMgr.State) : Demand → Option VirtualMgr.State
  | .page addr =>
      let (frame, v) := v.allocateBlock
      VirtualMgr.map image v addr frame true
  | .null => some v.allocateBlock.2

theorem behind_page (hb : Behind image v s) (hpage : page % 4096 = 0)
    (hregion : heapStartAddr ≤ page ∧ page < windowStart)
    (hgot : s.HasTable (getPageDirectoryIndex page) ∨ s.frames.getD 1 0 ≠ 0) :
    ∃ w, demand image v (.page page) = some w ∧
      Behind image w (State.map { s with frames := s.frames.tail } page (s.frames.headD 0)) := by
  obtain ⟨hframe, hafter⟩ := behind_allocate hb
  have hsecond : s.frames.tail.headD 0 = s.frames.getD 1 0 := by
    rw [List.headD_eq_getD, getD_tail]
  have haligned : v.allocateBlock.1 % 4096 = 0 := hb.tables.blocks.aligned 0
  rw [hframe] at haligned
  obtain ⟨w, hmap, hw⟩ := behind_map hafter hpage hregion haligned (hsecond ▸ hgot)
  refine ⟨w, ?_, hw⟩
  rw [← hframe] at hmap
  exact hmap

/-- A page gets a frame that no other page has. -/
theorem Owned.grow (ho : Owned s) (hfresh : FreshBlocks image fun k => s.frames.getD k 0)
    (hpage : page % 4096 = 0) (hown : s.frames.headD 0 ≠ 0) :
    Owned (State.map { s with frames := s.frames.tail } page (s.frames.headD 0)) := by
  rw [List.headD_eq_getD] at hown ⊢
  obtain ⟨n, hn, hdrop⟩ : ∃ n, 1 ≤ n ∧ (State.map { s with frames := s.frames.tail } page
      (s.frames.getD 0 0)).frames = s.frames.drop n := by
    rw [frames_map]
    split_ifs
    · exact ⟨1, le_rfl, List.drop_one.symm⟩
    · exact ⟨2, one_le_two, by rw [← List.drop_one, ← List.drop_one, List.drop_drop]⟩
  refine ⟨?_, ?_, ?_⟩
  · rw [mapped_map, List.map_cons, List.nodup_cons]
    refine ⟨fun hmem => ?_, ho.once⟩
    obtain ⟨m, hm, heq⟩ := List.mem_map.mp hmem
    exact ho.fresh m hm 0 heq.symm
  · rw [mapped_map]
    exact List.forall_mem_cons.mpr ⟨⟨hpage, hfresh.aligned 0, hfresh.lt 0⟩, ho.aligned⟩
  · rw [mapped_map, hdrop]
    intro m hm k
    rw [getD_drop]
    rcases List.mem_cons.mp hm with rfl | hm
    · intro hsame
      have hindex := hfresh.distinct 0 (n + k) hown hsame.symm
      omega
    · exact ho.fresh m hm _

/-- The pages among the demands. -/
def asked (ds : List Demand) : List ℕ :=
  ds.filterMap fun
    | .page addr => some addr
    | .null => none

/-- The virtual memory manager has been asked for the pages that the heap has mapped, from
`v` on. -/
def Paged (image : Image) (v : VirtualMgr.State) (s : State) : Prop :=
  ∃ ds w, run (demand image) v ds = some w ∧ asked ds = (s.mapped.map Prod.fst).reverse ∧
    Behind image w s ∧ Owned s

namespace Paged

theorem congr (hp : Paged image v s) (hframes : t.frames = s.frames)
    (htables : t.tables = s.tables) (hmapped : t.mapped = s.mapped) : Paged image v t := by
  obtain ⟨ds, w, hrun, hasked, hb, ho⟩ := hp
  rw [← hmapped] at hasked
  exact ⟨ds, w, hrun, hasked, hb.congr hframes htables hmapped, ho.congr hframes hmapped⟩

/-- A frame is used up for nothing. -/
theorem null (hp : Paged image v s) : Paged image v { s with frames := s.frames.tail } := by
  obtain ⟨ds, w, hrun, hasked, hb, ho⟩ := hp
  refine ⟨ds ++ [.null], w.allocateBlock.2, ?_, ?_, (behind_allocate hb).2,
    ho.drop (n := 1) List.drop_one.symm rfl⟩
  · rw [run_append, hrun, Option.bind_some, run_cons, demand, Option.bind_some, run_nil]
  · rw [asked, List.filterMap_append, ← asked, hasked]
    exact List.append_nil _

/-- A page gets the next frame, and its table the one after that. -/
theorem grow (hp : Paged image v s) (hpage : page % 4096 = 0)
    (hregion : heapStartAddr ≤ page ∧ page < windowStart) (hown : s.frames.headD 0 ≠ 0)
    (hgot : s.HasTable (getPageDirectoryIndex page) ∨ s.frames.getD 1 0 ≠ 0) :
    Paged image v (State.map { s with frames := s.frames.tail } page (s.frames.headD 0)) := by
  obtain ⟨ds, w, hrun, hasked, hb, ho⟩ := hp
  obtain ⟨x, hdemand, hx⟩ := behind_page hb hpage hregion hgot
  have hblocks : w.blocks = fun k => s.frames.getD k 0 := funext hb.blocks
  refine ⟨ds ++ [.page page], x, ?_, ?_, hx, ho.grow (hblocks ▸ hb.tables.blocks) hpage hown⟩
  · rw [run_append, hrun, Option.bind_some, run_cons, hdemand, Option.bind_some, run_nil]
  · rw [asked, List.filterMap_append, ← asked, hasked, mapped_map, List.map_cons,
      List.reverse_cons]
    rfl

theorem mapPage (hp : Paged image v s) (hpage : s.lastPage % 4096 = 0)
    (hregion : heapStartAddr ≤ s.lastPage ∧ s.lastPage < windowStart)
    (hown : s.frames.headD 0 ≠ 0)
    (hgot : s.HasTable (getPageDirectoryIndex s.lastPage) ∨ s.frames.getD 1 0 ≠ 0) :
    Paged image v (Heap.mapPage s) := by
  rw [mapPage_eq]
  exact (hp.grow hpage hregion hown hgot).congr rfl rfl rfl

/-- The pages of an extension, one after the other. -/
theorem iterate (n : ℕ) (hp : Paged image v s) (hpage : s.lastPage % 4096 = 0)
    (hstart : heapStartAddr ≤ s.lastPage) (hroom : s.lastPage + 4096 * n ≤ windowStart)
    (henough : framesFor s s.lastPage n ≤ (delivered s).length) :
    Paged image v (Heap.mapPage^[n] s) := by
  have hlt : s.lastPage < 2 ^ 32 := by
    simp only [windowStart] at hroom
    omega
  induction n with
  | zero => exact hp
  | succ n ih =>
      have hbefore := framesFor_strictMono s s.lastPage (Nat.lt_succ_self n)
      have hlast : (Heap.mapPage^[n] s).lastPage = s.lastPage + 4096 * n := by
        simp only [windowStart] at hroom
        rw [lastPage_iterate hlt, Nat.mod_eq_of_lt (by omega)]
      have hown : (Heap.mapPage^[n] s).frames.headD 0 ≠ 0 := by
        rw [own_frame hlt]
        exact frame_ne_zero (hbefore.trans_le henough)
      rw [Function.iterate_succ_apply']
      exact (ih (by omega) (hbefore.le.trans henough)).mapPage (by omega) (by omega) hown
        (or_iff_not_imp_left.mpr (second_frame hlt henough))

theorem extended (hp : Paged image v s) (hl : Layout s holes live lost)
    (hpage : s.lastPage % 4096 = 0) (hm : Mappable s (pagesDone s r)) :
    Paged image v (Heap.extended s r) := by
  obtain ⟨-, hframes, hroom⟩ := hm
  have htop := hroom
  simp only [windowStart] at htop
  have hwrap : add32 s.lastPage 4096 = s.lastPage + 4096 := add32_of_lt (by omega)
  have hstart := hl.lastPage.1
  obtain ⟨s₁, hs₁⟩ : ∃ s₁ : State, { s with lastPage := s.lastPage + 4096 } = s₁ := ⟨_, rfl⟩
  have hlast₁ : s₁.lastPage = s.lastPage + 4096 := by rw [← hs₁]
  have hp₁ : Paged image v s₁ := hs₁ ▸ hp.congr rfl rfl rfl
  have hpages := hp₁.iterate (pagesDone s r) (by omega) (by omega)
    (by rw [hlast₁]; exact hroom) (by rw [← hs₁]; exact hframes)
  rw [Heap.extended, hwrap, hs₁]
  split_ifs
  · exact hpages
  · exact hpages.null

end Paged

/-! ## Runs -/

end AviKernel.Heap
