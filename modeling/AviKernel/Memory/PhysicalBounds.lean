import AviKernel.Memory.PhysicalAccesses
import AviKernel.Memory.PhysicalRam

/-!
# Which cells belong to the bitmap

Initialization looks at cells of the bitmap only if everything that it marks fits.
Allocation always does, and a release does for the blocks of the bitmap: of other
aligned addresses it changes what is not its own.
-/

namespace AviKernel.PhysicalMgr

open State

variable {s t : State} {boot : Boot} {m m₀ memory : Memory}
  {b cells entry i n start size steps todo : ℕ}

/-! ## Marking -/

/-- The cells belong to a bitmap of that many. -/
def Inside (cells : ℕ) (cs : List ℤ) : Prop := ∀ c ∈ cs, 0 ≤ c ∧ c < cells

theorem inside_append {cs ds : List ℤ} :
    Inside cells (cs ++ ds) ↔ Inside cells cs ∧ Inside cells ds := List.forall_mem_append

theorem inside_nil : Inside cells [] := fun _ hc => absurd hc List.not_mem_nil

/-- A region whose blocks are numbered in order and belong to the bitmap, or of which
`mark_memory_as` counts no blocks at all. -/
def Bounded (cells start size : ℕ) : Prop :=
  startBlock start = endBlock start size + 1 ∨
    (startBlock start ≤ endBlock start size ∧ endBlock start size < 32 * cells)

instance : Decidable (Bounded cells start size) := inferInstanceAs (Decidable (_ ∨ _))

theorem cellOf_natCast : cellOf n = (n / 32 : ℕ) := rfl

/-- The number of a block is a cell of the bitmap, unless it is read as negative. -/
theorem cellOf_inside (hn : n < 2 ^ 31) :
    0 ≤ cellOf (toInt32 n) ∧ cellOf (toInt32 n) < cells ↔ n < 32 * cells := by
  rw [toInt32_of_lt hn, cellOf_natCast]
  omega

theorem cellOf_neg : cellOf (toInt32 (2 ^ 31)) < 0 := by decide

theorem markMemoryCells_inside (hstart : start < 2 ^ 32) :
    Inside cells (markMemoryCells start size) ↔ Bounded cells start size := by
  have hfirst : startBlock start < 2 ^ 20 := by
    unfold startBlock blockSize
    omega
  have hlast : endBlock start size < 2 ^ 20 := by
    have hsum := add32_lt (a := start) (b := size)
    unfold endBlock blockSize
    omega
  rw [Inside, markMemoryCells, markBlocksCells, blocksCount, Bounded]
  generalize startBlock start = first at *
  generalize endBlock start size = last at *
  rw [List.forall_mem_map]
  simp only [List.mem_range]
  by_cases hempty : first = last + 1
  · -- The difference wraps to the last word, and adding one to zero.
    have hcount : add32 (sub32 last first) 1 = 0 := by
      unfold add32 sub32
      omega
    rw [hcount]
    exact iff_of_true (fun i hi => absurd hi (Nat.not_lt_zero i)) (Or.inl hempty)
  · by_cases horder : first ≤ last
    · have hcount : add32 (sub32 last first) 1 = last - first + 1 := by
        rw [sub32_of_le (by omega) horder, add32_of_lt (by omega)]
      rw [hcount]
      constructor
      · intro h
        have htop := h (last - first) (by omega)
        rw [add32_of_lt (by omega), Nat.add_sub_cancel' horder, cellOf_inside (by omega)] at htop
        exact Or.inr ⟨horder, htop⟩
      · rintro (h | ⟨-, htop⟩) i hi
        · exact absurd h hempty
        · rw [add32_of_lt (by omega), cellOf_inside (by omega)]
          omega
    · -- Almost all numbers are counted, also those that are read as negative.
      have hcount : add32 (sub32 last first) 1 = 2 ^ 32 + last + 1 - first := by
        unfold add32 sub32
        omega
      rw [hcount]
      refine iff_of_false (fun h => ?_) (by omega)
      have hhalf := h (2 ^ 31 - first) (by omega)
      rw [add32_of_lt (by omega), Nat.add_sub_cancel' (by omega)] at hhalf
      exact absurd cellOf_neg (not_lt.mpr hhalf.1)

/-! ## The memory map during the walk -/

/-- Memories with the same bytes. -/
def SameBytes (m₁ m₂ : Memory) : Prop := ∀ a, m₂.byte a = m₁.byte a

theorem SameBytes.load32_eq {m₁ m₂ : Memory} (h : SameBytes m₁ m₂) (a : ℕ) :
    m₂.load32 a = m₁.load32 a := Memory.load32_congr fun _ _ => h _

/-- The bitmap of that many cells is zero. -/
def Cleared (m : Memory) (bitmap cells : ℕ) : Prop :=
  ∀ i < 4 * cells, m.byte (add32 bitmap i) = 0

theorem cleared_clearBytes (m : Memory) (bitmap cells : ℕ) :
    Cleared (clearBytes m bitmap (4 * cells)) bitmap cells :=
  fun _ hi => byte_clearBytes m bitmap hi

/-- Clearing a bit of a cell that is zero changes nothing. -/
theorem sameBytes_clear {bitmap : ℕ} {index : ℤ} (hclear : Cleared m bitmap cells)
    (hlow : 0 ≤ cellOf index) (hhigh : cellOf index < cells) :
    SameBytes m (Bitmap.clear m bitmap index) := by
  have hbyte : ∀ k < 4, m.byte ((Bitmap.cellAddr bitmap index + k) % 2 ^ 32) = 0 := by
    intro k hk
    have haddr : (Bitmap.cellAddr bitmap index + k) % 2 ^ 32 =
        add32 bitmap (4 * (cellOf index).toNat + k) := by
      rw [Bitmap.cellAddr, add32]
      unfold cellOf at hlow ⊢
      omega
    rw [haddr]
    exact hclear _ (by omega)
  have hzero : m.load32 (Bitmap.cellAddr bitmap index) = 0 := Memory.load32_eq_zero hbyte
  intro a
  simp only [Bitmap.clear, hzero, clearBit, Nat.zero_and, Memory.store32]
  have h₀ := hbyte 0 (by decide)
  rw [Nat.add_zero] at h₀
  split_ifs with h h h h
  · rw [h, h₀]
    rfl
  · rw [h, hbyte 1 (by decide)]
    rfl
  · rw [h, hbyte 2 (by decide)]
    rfl
  · rw [h, hbyte 3 (by decide)]
    rfl
  · rfl

theorem SameBytes.cleared {m₁ m₂ : Memory} {bitmap : ℕ} (h : SameBytes m₁ m₂)
    (hclear : Cleared m₁ bitmap cells) : Cleared m₂ bitmap cells := fun i hi =>
  (h _).trans (hclear i hi)

theorem SameBytes.trans {m₁ m₂ m₃ : Memory} (h : SameBytes m₁ m₂) (h' : SameBytes m₂ m₃) :
    SameBytes m₁ m₃ := fun a => (h' a).trans (h a)

/-- Marking memory as free inside a bitmap of zeros changes nothing. -/
theorem sameBytes_markMemoryAs (hclear : Cleared s.memory s.bitmap cells)
    (hin : Inside cells (markMemoryCells start size)) :
    SameBytes s.memory (s.markMemoryAs start size false).memory := by
  rw [Inside, markMemoryCells, markBlocksCells, List.forall_mem_map] at hin
  rw [markMemoryAs]
  generalize blocksCount start size = n at *
  induction n with
  | zero => exact fun _ => rfl
  | succ n ih =>
      have hbefore := ih fun i hi => hin i (List.mem_range.mpr
        ((List.mem_range.mp hi).trans (Nat.lt_succ_self n)))
      obtain ⟨hlow, hhigh⟩ := hin n (List.mem_range.mpr (Nat.lt_succ_self n))
      have hbitmap : (s.markBlocks false (startBlock start) n).bitmap = s.bitmap :=
        bitmap_of_shape shape_markBlocks
      refine hbefore.trans ?_
      rw [markBlocks]
      show SameBytes _ (Bitmap.clear _ (s.markBlocks false (startBlock start) n).bitmap _)
      rw [hbitmap]
      exact sameBytes_clear (hbefore.cleared hclear) hlow hhigh

/-- The block numbers of an available entry belong to the bitmap. -/
def EntryBounded (m : Memory) (cells e : ℕ) : Prop :=
  entryType m e = memoryAvailable → Bounded cells (entryAddr m e % 2 ^ 32) (entrySize m e)

/-- The walk of `fill_bitmap` stays inside the bitmap exactly if each of the entries
that it comes to does; until one does not, it reads the map as it was. -/
theorem freeEntriesCells_inside (hsame : SameBytes m₀ s.memory)
    (hclear : Cleared m₀ s.bitmap cells) (hfree : freeEntries boot steps s entry = some t) :
    Inside cells (freeEntriesCells boot steps s entry) ↔
      ∀ e, Walks m₀ boot entry e → EntryBounded m₀ cells e := by
  induction steps generalizing s entry with
  | zero => cases hfree
  | succ steps ih =>
      rw [freeEntries] at hfree
      rw [freeEntriesCells]
      by_cases hin : entry < boot.mmapEnd
      · rw [if_pos hin] at hfree ⊢
        have htype : entryType s.memory entry = entryType m₀ entry := hsame.load32_eq _
        have hsize : entrySize s.memory entry = entrySize m₀ entry := hsame.load32_eq _
        have haddr : entryAddr s.memory entry = entryAddr m₀ entry := by
          simp only [entryAddr, load64, hsame.load32_eq]
        have hnext : ∀ {t : State}, SameBytes m₀ t.memory →
            nextEntry t.memory entry = nextEntry m₀ entry := fun ht => by
          simp only [nextEntry, entrySize, ht.load32_eq]
        simp only [htype, hsize, haddr] at hfree ⊢
        rw [inside_append, forall_walks hin]
        by_cases havailable : entryType m₀ entry = memoryAvailable
        · simp only [if_pos havailable] at hfree ⊢
          have hlt : entryAddr m₀ entry % 2 ^ 32 < 2 ^ 32 := Nat.mod_lt _ (by decide)
          have hentry : EntryBounded m₀ cells entry ↔
              Bounded cells (entryAddr m₀ entry % 2 ^ 32) (entrySize m₀ entry) :=
            ⟨fun h => h havailable, fun h _ => h⟩
          rw [hentry, markMemoryCells_inside hlt]
          refine and_congr_right fun hbounded => ?_
          have hmarked := sameBytes_markMemoryAs (hsame.cleared hclear)
            ((markMemoryCells_inside hlt).mpr hbounded)
          have hbitmap : (s.markMemoryAs (entryAddr m₀ entry % 2 ^ 32) (entrySize m₀ entry)
              false).bitmap = s.bitmap := bitmap_of_shape shape_markMemoryAs
          have hsame' := hsame.trans hmarked
          rw [hnext hsame'] at hfree ⊢
          refine ih hsame' ?_ hfree
          rw [hbitmap]
          exact hclear
        · simp only [if_neg havailable] at hfree ⊢
          rw [hnext hsame] at hfree ⊢
          refine and_congr ?_ (ih hsame hclear hfree)
          exact iff_of_true inside_nil fun h => absurd h havailable
      · rw [if_neg hin]
        refine iff_of_true inside_nil fun e he => ?_
        exact absurd he.lt hin

/-! ## Initialization -/

theorem clearBytesCells_inside : Inside cells (clearBytesCells (4 * cells)) := by
  rw [Inside, clearBytesCells, List.forall_mem_map]
  intro i hi
  have hlt := List.mem_range.mp hi
  omega

/-- What `initialize` marks: available entries of the map, as it is once the bitmap is
cleared, the first megabyte, the bitmap and the kernel. -/
structure Fits (memory : Memory) (boot : Boot) (bitmap : ℕ) : Prop where
  entries : ∀ e, Listed (clearBytes memory bitmap boot.bitmapSize) boot e →
    EntryBounded (clearBytes memory bitmap boot.bitmapSize) boot.numberOfCells e
  low : Bounded boot.numberOfCells 0 usableMemoryStart
  bitmap : Bounded boot.numberOfCells bitmap boot.bitmapSize
  kernel : Bounded boot.numberOfCells boot.kernelStartP
    (sub32 boot.kernelEndP boot.kernelStartP)

theorem initializeCells_inside (hinit : initializeBlocks memory boot steps = some s) :
    Inside boot.numberOfCells (initializeCells memory boot steps) ↔ Fits memory boot s.bitmap := by
  have hsize : boot.bitmapSize = 4 * boot.numberOfCells := Nat.mul_comm _ _
  have hmod := bitmapSize_mod boot
  obtain ⟨hfind, -, -⟩ := initializeBlocks_spec hinit
  have hlt := findMemoryForBitmap_lt hfind
  simp only [initializeBlocks, fillBitmap, Option.bind_eq_bind, Option.bind_eq_some_iff, hmod,
    hfind, Option.some.injEq, exists_eq_left'] at hinit
  obtain ⟨s', hfree, -⟩ := hinit
  have hcleared : Cleared (clearBytes memory s.bitmap boot.bitmapSize) s.bitmap
      boot.numberOfCells := by
    rw [hsize]
    exact cleared_clearBytes memory s.bitmap boot.numberOfCells
  have hsame : SameBytes (clearBytes memory s.bitmap boot.bitmapSize)
      (clearBytes memory s.bitmap boot.bitmapSize) := fun _ => rfl
  have hwalk : Inside boot.numberOfCells (freeEntriesCells boot steps
      ⟨clearBytes memory s.bitmap boot.bitmapSize, s.bitmap, boot.numberOfBlocks,
        boot.numberOfCells, boot.bitmapSize⟩ boot.mmapAddr.toNat) ↔
      ∀ e, Walks (clearBytes memory s.bitmap boot.bitmapSize) boot boot.mmapAddr.toNat e →
        EntryBounded (clearBytes memory s.bitmap boot.bitmapSize) boot.numberOfCells e :=
    freeEntriesCells_inside hsame hcleared hfree
  have hclear : Inside boot.numberOfCells (clearBytesCells boot.bitmapSize) := by
    rw [hsize]
    exact clearBytesCells_inside
  have hkernel : boot.kernelStartP < 2 ^ 32 := sub32_lt
  have hreserve : Inside boot.numberOfCells (markMemoryCells 0 usableMemoryStart ++
      markMemoryCells s.bitmap boot.bitmapSize ++ markMemoryCells boot.kernelStartP
        (sub32 boot.kernelEndP boot.kernelStartP)) ↔
      (Bounded boot.numberOfCells 0 usableMemoryStart ∧
        Bounded boot.numberOfCells s.bitmap boot.bitmapSize) ∧
          Bounded boot.numberOfCells boot.kernelStartP
            (sub32 boot.kernelEndP boot.kernelStartP) := by
    rw [inside_append, inside_append, markMemoryCells_inside (by decide),
      markMemoryCells_inside hlt, markMemoryCells_inside hkernel]
  simp only [initializeCells, hfind, Option.elim_some, fillBitmapCells, hmod, reserveCells]
  rw [inside_append, inside_append, hwalk, hreserve]
  simp only [← listed_iff_walks]
  constructor
  · rintro ⟨⟨-, hentries⟩, ⟨hlow, hbitmap⟩, hend⟩
    exact ⟨hentries, hlow, hbitmap, hend⟩
  · rintro ⟨hentries, hlow, hbitmap, hend⟩
    exact ⟨⟨hclear, hentries⟩, ⟨hlow, hbitmap⟩, hend⟩

/-! ## Later calls -/

theorem findFreeCells_inside (hi : i < cells) (htodo : todo ≤ 32) :
    Inside cells (s.findFreeCells i todo) := by
  induction todo with
  | zero => exact inside_nil
  | succ todo ih =>
      have hbit : cellOf (i * 32 + (31 - todo) : ℕ) = (i : ℤ) := by
        rw [cellOf_natCast]
        omega
      intro c hc
      rw [findFreeCells] at hc
      simp only [hbit, List.mem_cons] at hc
      rcases hc with rfl | hc
      · omega
      · split_ifs at hc
        · exact ih (by omega) c hc
        · exact absurd hc List.not_mem_nil

theorem findFree_cell (htodo : todo ≤ 32) (h : s.findFree i todo = some b) :
    cellOf b = (i : ℤ) := by
  induction todo with
  | zero => cases h
  | succ todo ih =>
      rw [findFree] at h
      split_ifs at h
      · exact ih (by omega) h
      · obtain rfl := Option.some.inj h
        rw [cellOf_natCast]
        omega

theorem allocateFromCells_inside (htodo : todo ≤ s.numberOfCells) :
    Inside s.numberOfCells (s.allocateFromCells todo) := by
  induction todo with
  | zero => exact inside_nil
  | succ todo ih =>
      have hrest := ih (by omega)
      have hlt : s.numberOfCells - (todo + 1) < s.numberOfCells := by omega
      rw [allocateFromCells]
      generalize s.numberOfCells - (todo + 1) = i at *
      intro c hc
      rcases List.mem_cons.mp hc with rfl | hc
      · omega
      · split_ifs at hc
        · rcases List.mem_append.mp hc with hc | hc
          · exact findFreeCells_inside hlt le_rfl c hc
          · cases hfind : s.findFree i 32 with
            | none =>
                rw [hfind] at hc
                exact hrest c hc
            | some b =>
                rw [hfind, Option.elim_some, List.mem_singleton] at hc
                rw [hc, findFree_cell le_rfl hfind]
                omega
        · exact hrest c hc

/-- The address is that of a block of the bitmap. -/
def Managed (cells p : ℕ) : Prop := p % blockSize = 0 ∧ p / blockSize < 32 * cells

theorem freeBlockCells_inside {p : ℕ} (hp : p < 2 ^ 32) :
    Inside cells (freeBlockCells p) ↔ (p % blockSize = 0 → Managed cells p) := by
  rw [freeBlockCells]
  split_ifs with haligned
  · exact iff_of_true inside_nil fun h => absurd h haligned
  · have hlt : p / blockSize < 2 ^ 31 := by
      unfold blockSize
      omega
    rw [Inside, List.forall_mem_singleton, cellOf_inside hlt]
    exact ⟨fun h haligned => ⟨haligned, h⟩, fun h => (h (not_not.mp haligned)).2⟩

/-- A call looks at cells of the bitmap only, and a release of anything but a block
of the bitmap changes no byte. -/
structure Harmless (c : Config) (k : Call) : Prop where
  inside : Inside c.state.numberOfCells (callCells c k)
  ignored : ∀ p, k = .freeBlock p → ¬ Managed c.state.numberOfCells p →
    SameBytes c.state.memory (c.state.freeBlock p).memory

/-- Where an aligned address is given back, it is that of a block of the bitmap. -/
def Releases (cells : ℕ) (k : Call) : Prop :=
  ∀ p, k = .freeBlock p → p % blockSize = 0 → Managed cells p

theorem harmless_iff {c : Config} {k : Call} (hp : ∀ p, k = .freeBlock p → p < 2 ^ 32) :
    Harmless c k ↔ Releases c.state.numberOfCells k := by
  cases k with
  | allocateBlock =>
      refine iff_of_true ⟨allocateFromCells_inside le_rfl, ?_⟩ ?_
      · intro p hk
        cases hk
      · intro p hk
        cases hk
  | freeBlock p =>
      have hinside : Inside c.state.numberOfCells (freeBlockCells p) ↔
          (p % blockSize = 0 → Managed c.state.numberOfCells p) := freeBlockCells_inside (hp p rfl)
      constructor
      · rintro ⟨h, -⟩ q hq haligned
        cases hq
        exact hinside.mp h haligned
      · intro h
        refine ⟨hinside.mpr (h p rfl), ?_⟩
        intro q hq hunmanaged
        cases hq
        have haligned : p % blockSize ≠ 0 := fun haligned => hunmanaged (h p rfl haligned)
        rw [State.freeBlock, if_pos haligned]
        exact fun _ => rfl

theorem numberOfCells_step {c d : Config} {k : Call} (hcells : c.state.numberOfCells < 2 ^ 15)
    (hstep : c.step k = some d) : d.state.numberOfCells = c.state.numberOfCells := by
  cases k with
  | allocateBlock =>
      obtain rfl := Option.some.inj hstep
      exact numberOfCells_of_shape (shape_allocateBlock hcells)
  | freeBlock p =>
      obtain rfl := Option.some.inj hstep
      show (c.state.freeBlock p).numberOfCells = _
      unfold State.freeBlock
      split_ifs <;> rfl

/-- Along a run the number of cells stays, so each call is judged alike. -/
theorem runAll_harmless_iff {c : Config} {calls : List Call}
    (hcells : c.state.numberOfCells < 2 ^ 15)
    (hp : ∀ p, Call.freeBlock p ∈ calls → p < 2 ^ 32) :
    RunAll Config.step Harmless c calls ↔ ∀ k ∈ calls, Releases c.state.numberOfCells k := by
  induction calls generalizing c with
  | nil => exact iff_of_true trivial fun k hk => absurd hk List.not_mem_nil
  | cons k calls ih =>
      have hfirst : ∀ p, k = .freeBlock p → p < 2 ^ 32 := by
        rintro p rfl
        exact hp p List.mem_cons_self
      have hrest : ∀ d, c.step k = some d → (RunAll Config.step Harmless d calls ↔
          ∀ k ∈ calls, Releases c.state.numberOfCells k) := by
        intro d hd
        have hsame := numberOfCells_step hcells hd
        rw [ih (by rw [hsame]; exact hcells) fun p h => hp p (List.mem_cons_of_mem k h), hsame]
      have htotal : ∃ d, c.step k = some d := by
        cases k with
        | allocateBlock => exact ⟨_, rfl⟩
        | freeBlock p => exact ⟨_, rfl⟩
      obtain ⟨d, hd⟩ := htotal
      rw [runAll_cons, List.forall_mem_cons, harmless_iff hfirst]
      refine and_congr_right fun _ => ?_
      exact ⟨fun h => (hrest d hd).mp (h d hd), fun h t ht => (hrest t ht).mpr h⟩

/-- Initialization and all later calls stay inside the bitmap, and invalid releases
change nothing, exactly if what is marked fits and no aligned address outside
the bitmap is given back. -/
theorem harmless_of_run {calls : List Call} (hinit : initializeBlocks memory boot steps = some s)
    (hp : ∀ p, Call.freeBlock p ∈ calls → p < 2 ^ 32) :
    (Inside boot.numberOfCells (initializeCells memory boot steps) ∧
      RunAll Config.step Harmless ⟨s, []⟩ calls) ↔
    (∀ bitmap, findMemoryForBitmap memory boot steps boot.mmapAddr.toNat = some bitmap →
      Fits memory boot bitmap) ∧ ∀ k ∈ calls, Releases boot.numberOfCells k := by
  obtain ⟨hfind, -, -⟩ := initializeBlocks_spec hinit
  have hcount := numberOfCells_initializeBlocks hinit
  have hcells : s.numberOfCells < 2 ^ 15 := by
    rw [hcount]
    exact numberOfCells_lt boot
  have hfits : (∀ bitmap, findMemoryForBitmap memory boot steps boot.mmapAddr.toNat = some bitmap →
      Fits memory boot bitmap) ↔ Fits memory boot s.bitmap := by
    rw [hfind]
    simp only [Option.some.injEq, forall_eq']
  have hrun : RunAll Config.step Harmless ⟨s, []⟩ calls ↔
      ∀ k ∈ calls, Releases s.numberOfCells k := runAll_harmless_iff hcells hp
  rw [initializeCells_inside hinit, hrun, hcount, hfits]

theorem fits_small : Fits smallMemory smallBoot 0x110001 := by
  refine ⟨fun e he => ?_, by decide, by decide, by decide⟩
  rw [listed_iff_walks, walks_iff (by decide)] at he
  rcases he with rfl | he
  · intro _
    decide +kernel
  · exact absurd he.lt (by decide +kernel)

theorem harmless_of_run_small : ∃ s, initializeBlocks smallMemory smallBoot 2 = some s ∧
    Inside 16 (initializeCells smallMemory smallBoot 2) ∧
      RunAll Config.step Harmless ⟨s, []⟩
        [.allocateBlock, .freeBlock 0x111000, .freeBlock 0x123, .freeBlock 0x111000] := by
  obtain ⟨s, hs⟩ := exists_small
  have hfind : findMemoryForBitmap smallMemory smallBoot 2 0x9000 = some 0x110001 := by
    decide +kernel
  refine ⟨s, hs, (harmless_of_run hs ?_).mpr ⟨fun bitmap h => ?_, ?_⟩⟩
  · simp
  · obtain rfl := Option.some.inj (hfind.symm.trans h)
    exact fits_small
  · simp only [List.forall_mem_cons, List.not_mem_nil, false_implies, implies_true, and_true]
    refine ⟨?_, ?_, ?_, ?_⟩
    all_goals
      intro p hk haligned
      cases hk
    · exact ⟨rfl, by decide⟩
    · exact absurd haligned (by decide)
    · exact ⟨rfl, by decide⟩

/-- Nothing holds back the release of the last block of the address space. -/
theorem not_harmless_of_run : ¬ ∀ (memory : Memory) (boot : Boot) (steps : ℕ) (s : State)
    (calls : List Call), initializeBlocks memory boot steps = some s →
      (∀ p, Call.freeBlock p ∈ calls → p < 2 ^ 32) →
        Inside boot.numberOfCells (initializeCells memory boot steps) ∧
          RunAll Config.step Harmless ⟨s, []⟩ calls := by
  intro h
  obtain ⟨s, hs⟩ := exists_small
  have hcount : s.numberOfCells = 16 := numberOfCells_initializeBlocks hs
  obtain ⟨-, hharmless, -⟩ := h smallMemory smallBoot 2 s [.freeBlock 0xFFFFF000] hs (by simp)
  have hlooks : (0x7FFF : ℤ) ∈ freeBlockCells 0xFFFFF000 := by decide
  have hcell : (0x7FFF : ℤ) < s.numberOfCells := (hharmless.inside 0x7FFF hlooks).2
  rw [hcount] at hcell
  exact absurd hcell (by decide)

end AviKernel.PhysicalMgr
