import AviKernel.Memory.PhysicalRuns

/-!
# The cells that are looked at

The functions of the physical memory manager, with the cells of the bitmap that they
read or write.  Nothing in them compares an index with the number of cells: marking
goes where the memory map says, and `free_block` where its caller says.
-/

namespace AviKernel.PhysicalMgr

open State

variable {s t : State} {boot : Boot} {m memory : Memory} {entry start size steps : ℕ}

/-! ## Traces -/

/-- The cell of an index. -/
def cellOf (index : ℤ) : ℤ := index.tdiv 32

namespace State

def markBlocksCells (startBlock n : ℕ) : List ℤ :=
  (List.range n).map fun i => cellOf (toInt32 (add32 startBlock i))

def markMemoryCells (startAddress size : ℕ) : List ℤ :=
  markBlocksCells (startBlock startAddress) (blocksCount startAddress size)

/-- The cells of the bytes that `memset` clears. -/
def clearBytesCells (n : ℕ) : List ℤ := (List.range n).map fun i => ((i / 4 : ℕ) : ℤ)

def freeEntriesCells (boot : Boot) : ℕ → State → ℕ → List ℤ
  | 0, _, _ => []
  | steps + 1, s, entry =>
      if entry < boot.mmapEnd then
        let addr := entryAddr s.memory entry % 2 ^ 32
        let size := entrySize s.memory entry
        let available := entryType s.memory entry = memoryAvailable
        let s' := if available then s.markMemoryAs addr size false else s
        (if available then markMemoryCells addr size else []) ++
          freeEntriesCells boot steps s' (nextEntry s'.memory entry)
      else []

def reserveCells (boot : Boot) (s : State) : List ℤ :=
  markMemoryCells 0 usableMemoryStart ++ markMemoryCells s.bitmap (s.bitmapSize % 2 ^ 32) ++
    markMemoryCells boot.kernelStartP (sub32 boot.kernelEndP boot.kernelStartP)

def fillBitmapCells (boot : Boot) (steps : ℕ) (s : State) : List ℤ :=
  let s' := { s with memory := clearBytes s.memory s.bitmap (s.bitmapSize % 2 ^ 32) }
  clearBytesCells (s.bitmapSize % 2 ^ 32) ++
    freeEntriesCells boot steps s' boot.mmapAddr.toNat ++ reserveCells boot s

def findFreeCells (s : State) (i : ℕ) : ℕ → List ℤ
  | 0 => []
  | todo + 1 =>
      let bit := i * 32 + (31 - todo)
      cellOf bit :: if Bitmap.test s.memory s.bitmap bit then s.findFreeCells i todo else []

def allocateFromCells (s : State) : ℕ → List ℤ
  | 0 => []
  | todo + 1 =>
      let i := s.numberOfCells - (todo + 1)
      let cell := s.memory.load32 (s.bitmap + 4 * i)
      (i : ℤ) ::
        if cell ≠ 2 ^ 32 - 1 then
          s.findFreeCells i 32 ++
            (s.findFree i 32).elim (s.allocateFromCells todo) fun bit => [cellOf bit]
        else s.allocateFromCells todo

def allocateBlockCells (s : State) : List ℤ := s.allocateFromCells s.numberOfCells

def freeBlockCells (block : ℕ) : List ℤ :=
  if block % blockSize ≠ 0 then [] else [cellOf (toInt32 (block / blockSize))]

end State

/-- The cells that `PhysicalMgr::initialize` looks at. -/
def initializeCells (memory : Memory) (boot : Boot) (steps : ℕ) : List ℤ :=
  (findMemoryForBitmap memory boot steps boot.mmapAddr.toNat).elim [] fun bitmap =>
    State.fillBitmapCells boot steps
      ⟨memory, bitmap, boot.numberOfBlocks, boot.numberOfCells, boot.bitmapSize⟩

def callCells (c : Config) : Call → List ℤ
  | .allocateBlock => c.state.allocateBlockCells
  | .freeBlock p => freeBlockCells p

/-! ## Nothing else is written -/

/-- Apart from the four bytes of each of the cells the memories agree. -/
def Untouched (bitmap : ℕ) (cs : List ℤ) (m₁ m₂ : Memory) : Prop :=
  ∀ a, (∀ c ∈ cs, ∀ k < 4, a ≠ (((bitmap + 4 * c) % 2 ^ 32).toNat + k) % 2 ^ 32) →
    m₂.byte a = m₁.byte a

namespace Untouched

variable {m₁ m₂ m₃ : Memory} {bitmap : ℕ} {index : ℤ} {cs ds : List ℤ}

theorem refl : Untouched bitmap cs m m := fun _ _ => rfl

theorem append (h : Untouched bitmap cs m₁ m₂) (h' : Untouched bitmap ds m₂ m₃) :
    Untouched bitmap (cs ++ ds) m₁ m₃ := by
  intro a ha
  obtain ⟨hcs, hds⟩ := List.forall_mem_append.mp ha
  exact (h' a hds).trans (h a hcs)

theorem mono (h : Untouched bitmap cs m₁ m₂) (hsub : ∀ c ∈ cs, c ∈ ds) :
    Untouched bitmap ds m₁ m₂ := fun a ha => h a fun c hc => ha c (hsub c hc)

theorem store32 (w : ℕ) : Untouched bitmap [cellOf index] m
    (m.store32 (Bitmap.cellAddr bitmap index) w) := by
  intro a ha
  exact Memory.byte_store32_of_ne (ha _ List.mem_cons_self)

end Untouched

namespace State

theorem untouched_markBlock (used : Bool) (index : ℤ) :
    Untouched s.bitmap [cellOf index] s.memory (s.markBlock used index).memory := by
  cases used with
  | true => exact Untouched.store32 _
  | false => exact Untouched.store32 _

theorem untouched_markMemoryAs (s : State) (start size : ℕ) (used : Bool) :
    Untouched s.bitmap (markMemoryCells start size) s.memory
      (s.markMemoryAs start size used).memory := by
  rw [markMemoryCells, markBlocksCells, markMemoryAs]
  generalize startBlock start = first
  induction blocksCount start size with
  | zero => exact Untouched.refl
  | succ n ih =>
      have hmark := untouched_markBlock (s := s.markBlocks used first n) used
        (toInt32 (add32 first n))
      rw [bitmap_of_shape shape_markBlocks] at hmark
      rw [List.range_succ, List.map_append]
      exact ih.append hmark

theorem untouched_freeEntries (h : freeEntries boot steps s entry = some t) :
    Untouched s.bitmap (freeEntriesCells boot steps s entry) s.memory t.memory := by
  induction steps generalizing s entry with
  | zero => cases h
  | succ steps ih =>
      rw [freeEntries] at h
      rw [freeEntriesCells]
      by_cases hin : entry < boot.mmapEnd
      · rw [if_pos hin] at h ⊢
        by_cases havailable : entryType s.memory entry = memoryAvailable
        · simp only [if_pos havailable] at h ⊢
          have hrest := ih h
          rw [bitmap_of_shape shape_markMemoryAs] at hrest
          exact (untouched_markMemoryAs s _ _ false).append hrest
        · simp only [if_neg havailable] at h ⊢
          exact ih h
      · rw [if_neg hin] at h ⊢
        obtain rfl := Option.some.inj h
        exact Untouched.refl

theorem untouched_reserve (boot : Boot) (s : State) :
    Untouched s.bitmap (reserveCells boot s) s.memory (reserve boot s).memory := by
  have hlow := untouched_markMemoryAs s 0 usableMemoryStart true
  have hbitmap := untouched_markMemoryAs (s.markMemoryAs 0 usableMemoryStart true) s.bitmap
    (s.bitmapSize % 2 ^ 32) true
  have hkernel := untouched_markMemoryAs ((s.markMemoryAs 0 usableMemoryStart true).markMemoryAs
    s.bitmap (s.bitmapSize % 2 ^ 32) true) boot.kernelStartP
      (sub32 boot.kernelEndP boot.kernelStartP) true
  rw [bitmap_of_shape shape_markMemoryAs] at hbitmap
  rw [bitmap_of_shape shape_markMemoryAs, bitmap_of_shape shape_markMemoryAs] at hkernel
  have hsize : (s.markMemoryAs 0 usableMemoryStart true).bitmapSize = s.bitmapSize :=
    bitmapSize_of_shape shape_markMemoryAs
  have hbase : (s.markMemoryAs 0 usableMemoryStart true).bitmap = s.bitmap :=
    bitmap_of_shape shape_markMemoryAs
  simp only [reserve, hsize, hbase]
  exact (hlow.append hbitmap).append hkernel

theorem untouched_clearBytes (bitmap n : ℕ) :
    Untouched bitmap (clearBytesCells n) m (clearBytes m bitmap n) := by
  induction n with
  | zero => exact Untouched.refl
  | succ n ih =>
      have hbyte : Untouched bitmap [((n / 4 : ℕ) : ℤ)] (clearBytes m bitmap n)
          (clearBytes m bitmap (n + 1)) := by
        intro a ha
        have hne := ha _ List.mem_cons_self (n % 4) (Nat.mod_lt n (by decide))
        refine Memory.byte_storeByte_of_ne fun heq => hne ?_
        rw [heq, add32]
        omega
      rw [clearBytesCells, List.range_succ, List.map_append]
      exact ih.append hbyte

theorem untouched_allocateFrom (todo : ℕ) : Untouched s.bitmap (s.allocateFromCells todo)
    s.memory (s.allocateFrom todo).2.memory := by
  induction todo with
  | zero => exact Untouched.refl
  | succ todo ih =>
      rw [allocateFromCells, allocateFrom]
      generalize s.numberOfCells - (todo + 1) = i
      by_cases hcell : s.memory.load32 (s.bitmap + 4 * i) ≠ 2 ^ 32 - 1
      · simp only [if_pos hcell]
        cases s.findFree i 32 with
        | none => exact ih.mono fun c hc => List.mem_cons_of_mem _ (List.mem_append_right _ hc)
        | some b =>
            have hset := untouched_markBlock (s := s) true b
            exact hset.mono fun c hc => List.mem_cons_of_mem _ (List.mem_append_right _ hc)
      · simp only [if_neg hcell]
        exact ih.mono fun c hc => List.mem_cons_of_mem _ hc

end State

/-- Initialization writes to the cells of its trace only. -/
theorem untouched_initializeBlocks (hinit : initializeBlocks memory boot steps = some s) :
    Untouched s.bitmap (initializeCells memory boot steps) memory s.memory := by
  obtain ⟨hfind, -, -⟩ := initializeBlocks_spec hinit
  simp only [initializeBlocks, fillBitmap, Option.bind_eq_bind, Option.bind_eq_some_iff, hfind,
    Option.some.injEq, exists_eq_left'] at hinit
  obtain ⟨s', hfree, hs⟩ := hinit
  have hshape := shape_freeEntries hfree
  have hbitmap : s'.bitmap = s.bitmap := congrArg (fun shape => shape.1) hshape
  have hsize : s'.bitmapSize = boot.bitmapSize := bitmapSize_of_shape hshape
  have hreserve := untouched_reserve boot s'
  have hentries := untouched_freeEntries hfree
  have hclear := untouched_clearBytes (m := memory) s.bitmap (boot.bitmapSize % 2 ^ 32)
  have hcells : reserveCells boot s' = reserveCells boot
      ⟨memory, s.bitmap, boot.numberOfBlocks, boot.numberOfCells, boot.bitmapSize⟩ := by
    simp only [reserveCells, hbitmap, hsize]
  rw [hs, hbitmap, hcells] at hreserve
  simp only [initializeCells, hfind, Option.elim_some, fillBitmapCells]
  exact (hclear.append hentries).append hreserve

/-- So does each later call. -/
theorem untouched_step {c d : Config} {k : Call} (hstep : c.step k = some d) :
    Untouched c.state.bitmap (callCells c k) c.state.memory d.state.memory := by
  cases k with
  | allocateBlock =>
      obtain rfl := Option.some.inj hstep
      exact untouched_allocateFrom _
  | freeBlock p =>
      obtain rfl := Option.some.inj hstep
      show Untouched _ (freeBlockCells p) _ (c.state.freeBlock p).memory
      rw [freeBlockCells, State.freeBlock]
      split_ifs with haligned
      · exact Untouched.refl
      · exact untouched_markBlock false _

end AviKernel.PhysicalMgr
