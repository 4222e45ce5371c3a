import AviKernel.Memory.PhysicalMgr

/-!
# Blocks in use

What marking, allocating and freeing do to the bits of the bitmap.  `test`
misreads the last bit of a cell as clear; `allocate_block` skips cells of all
ones, so when the last bit is set it always finds an earlier clear one.
-/

namespace AviKernel.PhysicalMgr

open State

variable {s : State} {boot : Boot} {i j n b start size steps entry : ℕ} {index : ℤ} {used : Bool}

namespace State

/-- The bit of a block. -/
def inUse (s : State) (b : ℕ) : Bool := Bitmap.bit s.memory s.bitmap b

theorem inUse_setUsed (hi : i < 2 ^ 31) (hj : j < 2 ^ 31) :
    (s.setUsed i).inUse j = (s.inUse j || decide (j = i)) := Bitmap.bit_set hi hj

theorem inUse_setFree (hi : i < 2 ^ 31) (hj : j < 2 ^ 31) :
    (s.setFree i).inUse j = (s.inUse j && !decide (j = i)) := Bitmap.bit_clear hi hj

/-! ## Marking -/

/-- The fields that only initialization sets. -/
def shape (s : State) : ℕ × ℕ × ℕ × ℕ :=
  (s.bitmap, s.numberOfBlocks, s.numberOfCells, s.bitmapSize)

theorem bitmap_of_shape {s' : State} (h : s'.shape = s.shape) : s'.bitmap = s.bitmap :=
  congrArg Prod.fst h

theorem numberOfCells_of_shape {s' : State} (h : s'.shape = s.shape) :
    s'.numberOfCells = s.numberOfCells := congrArg (fun shape => shape.2.2.1) h

theorem bitmapSize_of_shape {s' : State} (h : s'.shape = s.shape) :
    s'.bitmapSize = s.bitmapSize := congrArg (fun shape => shape.2.2.2) h

@[simp] theorem shape_setUsed : (s.setUsed index).shape = s.shape := rfl

@[simp] theorem shape_setFree : (s.setFree index).shape = s.shape := rfl

@[simp] theorem shape_markBlock : (s.markBlock used index).shape = s.shape := by
  cases used <;> rfl

@[simp] theorem shape_markBlocks : (s.markBlocks used start n).shape = s.shape := by
  induction n with
  | zero => rfl
  | succ n ih => rw [markBlocks, shape_markBlock, ih]

@[simp] theorem shape_markMemoryAs : (s.markMemoryAs start size used).shape = s.shape :=
  shape_markBlocks

theorem inUse_markBlock_true (hj : j < 2 ^ 31) (h : s.inUse j = true) :
    (s.markBlock true (toInt32 n)).inUse j = true := by
  obtain ⟨hlow, hhigh⟩ := toInt32_bounds (a := n)
  exact Bitmap.bit_set_of_set hlow hhigh hj h

theorem inUse_markBlock_false (hj : j < 2 ^ 31) (h : s.inUse j = false) :
    (s.markBlock false (toInt32 n)).inUse j = false := by
  obtain ⟨hlow, hhigh⟩ := toInt32_bounds (a := n)
  exact Bitmap.bit_clear_of_clear hlow hhigh hj h

theorem inUse_markBlock_self (hn : n < 2 ^ 31) : (s.markBlock true (toInt32 n)).inUse n = true := by
  have hset := inUse_setUsed (s := s) hn hn
  rw [toInt32_of_lt hn]
  rw [decide_eq_true rfl, Bool.or_true] at hset
  exact hset

/-- Marking one block beyond the first cell marks that block only. -/
theorem inUse_markBlock_iff (hn : n < 2 ^ 32) (hj : j < 2 ^ 31) (hfirst : 32 ≤ j) :
    (s.markBlock true (toInt32 n)).inUse j = true ↔ s.inUse j = true ∨ n = j := by
  by_cases hsign : n < 2 ^ 31
  · have hset := inUse_setUsed (s := s) hsign hj
    rw [toInt32_of_lt hsign]
    show (s.setUsed n).inUse j = true ↔ _
    rw [hset, Bool.or_eq_true, decide_eq_true_eq]
    tauto
  · have hneg : toInt32 n < 0 := by
      rw [toInt32_of_ge hn (by omega)]
      omega
    have hkeep : (s.markBlock true (toInt32 n)).inUse j = s.inUse j :=
      Bitmap.bit_set_of_neg (toInt32_bounds).1 hneg hj hfirst
    rw [hkeep]
    have hne : n ≠ j := by omega
    tauto

theorem inUse_markBlocks_of_inUse (hj : j < 2 ^ 31) (h : s.inUse j = true) :
    (s.markBlocks true start n).inUse j = true := by
  induction n with
  | zero => exact h
  | succ n ih => exact inUse_markBlock_true hj ih

theorem inUse_markBlocks_of_mem (hj : j < 2 ^ 31) (h : ∃ i < n, add32 start i = j) :
    (s.markBlocks true start n).inUse j = true := by
  induction n with
  | zero =>
      obtain ⟨i, hi, -⟩ := h
      omega
  | succ n ih =>
      obtain ⟨i, hi, rfl⟩ := h
      rcases Nat.lt_succ_iff_lt_or_eq.mp hi with hlt | rfl
      · exact inUse_markBlock_true hj (ih ⟨i, hlt, rfl⟩)
      · exact inUse_markBlock_self hj

theorem of_inUse_markBlocks (hj : j < 2 ^ 31) (hfirst : 32 ≤ j)
    (h : (s.markBlocks true start n).inUse j = true) :
    s.inUse j = true ∨ ∃ i < n, add32 start i = j := by
  induction n with
  | zero => exact Or.inl h
  | succ n ih =>
      rcases (inUse_markBlock_iff add32_lt hj hfirst).mp h with h | rfl
      · rcases ih h with h | ⟨i, hi, heq⟩
        · exact Or.inl h
        · exact Or.inr ⟨i, by omega, heq⟩
      · exact Or.inr ⟨n, by omega, rfl⟩

theorem not_inUse_markBlocks (hj : j < 2 ^ 31) (h : s.inUse j = false) :
    (s.markBlocks false start n).inUse j = false := by
  induction n with
  | zero => exact h
  | succ n ih => exact inUse_markBlock_false hj ih

/-- The blocks that `mark_memory_as` goes through. -/
def Marked (startAddress size b : ℕ) : Prop :=
  ∃ i < blocksCount startAddress size, add32 (startBlock startAddress) i = b

instance : Decidable (Marked start size b) := by
  unfold Marked
  infer_instance

theorem inUse_markMemoryAs (hj : j < 2 ^ 31) (h : s.inUse j = true ∨ Marked start size j) :
    (s.markMemoryAs start size true).inUse j = true := by
  rcases h with h | h
  · exact inUse_markBlocks_of_inUse hj h
  · exact inUse_markBlocks_of_mem hj h

theorem of_inUse_markMemoryAs (hj : j < 2 ^ 31) (hfirst : 32 ≤ j)
    (h : (s.markMemoryAs start size true).inUse j = true) :
    s.inUse j = true ∨ Marked start size j := of_inUse_markBlocks hj hfirst h

theorem marked_low : Marked 0 usableMemoryStart b ↔ b ≤ 256 := by
  have hstart : startBlock 0 = 0 := rfl
  have hcount : blocksCount 0 usableMemoryStart = 257 := by decide
  rw [Marked, hstart, hcount]
  constructor
  · rintro ⟨i, hi, rfl⟩
    unfold add32
    omega
  · intro hb
    exact ⟨b, by omega, by rw [add32_of_lt (by omega), Nat.zero_add]⟩

/-- Without wrapping, the blocks from the start to the end of the region, both
included, are marked. -/
theorem marked_iff (hfit : start + size < 2 ^ 32) :
    Marked start size b ↔ start / blockSize ≤ b ∧ b ≤ (start + size) / blockSize := by
  have hend : endBlock start size = (start + size) / 4096 := by
    rw [endBlock, add32_of_lt hfit, blockSize]
  have hcount : blocksCount start size = (start + size) / 4096 - start / 4096 + 1 := by
    rw [blocksCount, hend, startBlock, blockSize, sub32_of_le (by omega) (by omega),
      add32_of_lt (by omega)]
  rw [Marked, hcount, startBlock, blockSize]
  constructor
  · rintro ⟨i, hi, rfl⟩
    rw [add32_of_lt (by omega)]
    omega
  · rintro ⟨hlow, hhigh⟩
    refine ⟨b - start / 4096, by omega, ?_⟩
    rw [add32_of_lt (by omega)]
    omega

/-- A short region that runs over the end of the address space marks the
blocks up to that end, and from block zero on. -/
theorem marked_iff_of_wrap (hstart : start < 2 ^ 32) (hsize : size ≤ 2 ^ 17)
    (hwrap : 2 ^ 32 ≤ start + size) (hb : b < 2 ^ 20) :
    Marked start size b ↔ start / blockSize ≤ b ∨ b ≤ (start + size - 2 ^ 32) / blockSize := by
  have hend : endBlock start size = (start + size - 2 ^ 32) / 4096 := by
    unfold endBlock add32 blockSize
    omega
  have hsub : sub32 ((start + size - 2 ^ 32) / 4096) (start / 4096) =
      2 ^ 32 + (start + size - 2 ^ 32) / 4096 - start / 4096 := by
    unfold sub32
    omega
  have hcount : blocksCount start size =
      2 ^ 32 + (start + size - 2 ^ 32) / 4096 - start / 4096 + 1 := by
    rw [blocksCount, hend, startBlock, blockSize, hsub, add32_of_lt (by omega)]
  rw [Marked, hcount, startBlock, blockSize]
  constructor
  · rintro ⟨i, hi, rfl⟩
    unfold add32
    omega
  · rintro (hlow | hhigh)
    · refine ⟨b - start / 4096, by omega, ?_⟩
      rw [add32_of_lt (by omega)]
      omega
    · refine ⟨2 ^ 32 + b - start / 4096, by omega, ?_⟩
      unfold add32
      omega

/-! ## Initialization -/

/-- What marking memory as free keeps, the walk over the memory map keeps. -/
theorem freeEntries_invariant {I : State → Prop} {s' : State}
    (hmark : ∀ t start size, I t → I (t.markMemoryAs start size false)) (hs : I s)
    (h : freeEntries boot steps s entry = some s') : I s' := by
  induction steps generalizing s entry with
  | zero => cases h
  | succ steps ih =>
      rw [freeEntries] at h
      split_ifs at h with hin havailable
      · exact ih (hmark _ _ _ hs) h
      · exact ih hs h
      · exact Option.some.inj h ▸ hs

theorem shape_freeEntries {s' : State} (h : freeEntries boot steps s entry = some s') :
    s'.shape = s.shape :=
  freeEntries_invariant (I := fun t => t.shape = s.shape)
    (fun _ _ _ ht => shape_markMemoryAs.trans ht) rfl h

theorem not_inUse_freeEntries {s' : State} (h : freeEntries boot steps s entry = some s')
    (hj : j < 2 ^ 31) (hclear : s.inUse j = false) : s'.inUse j = false :=
  freeEntries_invariant (I := fun t => t.inUse j = false)
    (fun _ _ _ ht => not_inUse_markBlocks hj ht) hclear h

theorem byte_clearBytes (m : Memory) (start : ℕ) (hi : i < n) :
    (clearBytes m start n).byte (add32 start i) = 0 := by
  induction n with
  | zero => omega
  | succ n ih =>
      rw [clearBytes]
      by_cases haddr : add32 start i = add32 start n
      · rw [haddr, Memory.byte_storeByte_self]
      · have hne : i ≠ n := fun h => haddr (by rw [h])
        rw [Memory.byte_storeByte_of_ne haddr]
        exact ih (by omega)

theorem bit_clearBytes {m : Memory} {cells : ℕ} (hj : j < 32 * cells) :
    Bitmap.bit (clearBytes m start (4 * cells)) start j = false := by
  have hzero : (clearBytes m start (4 * cells)).load32 (start + 4 * (j / 32)) = 0 := by
    refine Memory.load32_eq_zero fun k hk => ?_
    have hbyte := byte_clearBytes m start (show 4 * (j / 32) + k < 4 * cells by omega)
    rw [add32, ← Nat.add_assoc] at hbyte
    exact hbyte
  rw [Bitmap.bit, hzero, Nat.zero_testBit]

/-- The blocks that `fill_bitmap` reserves in the end: the first megabyte, the
bitmap and the kernel, each with the block that holds the byte after it. -/
def Reserved (boot : Boot) (bitmap b : ℕ) : Prop :=
  b ≤ 256 ∨ (bitmap / blockSize ≤ b ∧ b ≤ (bitmap + boot.bitmapSize) / blockSize) ∨
    (boot.kernelStartP / blockSize ≤ b ∧ b ≤ boot.kernelEndP / blockSize)

theorem numberOfCells_lt (boot : Boot) : boot.numberOfCells < 2 ^ 15 := by
  have hlt := boot.higherMemorySize.toNat_lt
  rw [Boot.numberOfCells, Boot.numberOfBlocks, blockSize]
  omega

theorem bitmapSize_lt (boot : Boot) : boot.bitmapSize < 2 ^ 17 := by
  have hcells := numberOfCells_lt boot
  rw [Boot.bitmapSize]
  omega

theorem bitmapSize_mod (boot : Boot) : boot.bitmapSize % 2 ^ 32 = boot.bitmapSize := by
  have hlt := bitmapSize_lt boot
  exact Nat.mod_eq_of_lt (by omega)

theorem reserved_iff {bitmap : ℕ} (hbitmap : bitmap < 2 ^ 32) (hb : b < 2 ^ 20) :
    Reserved boot bitmap b ↔ Marked 0 usableMemoryStart b ∨ Marked bitmap boot.bitmapSize b ∨
      Marked boot.kernelStartP (sub32 boot.kernelEndP boot.kernelStartP) b := by
  have hkernel : Marked boot.kernelStartP (sub32 boot.kernelEndP boot.kernelStartP) b ↔
      boot.kernelStartP / blockSize ≤ b ∧ b ≤ boot.kernelEndP / blockSize := by
    have hle := boot.kernelStartP_le
    have hlt : boot.kernelEndP < 2 ^ 32 := sub32_lt
    have hsum : boot.kernelStartP + (boot.kernelEndP - boot.kernelStartP) = boot.kernelEndP :=
      Nat.add_sub_cancel' hle
    rw [sub32_of_le hlt hle, marked_iff (by omega), hsum]
  have hsize := bitmapSize_lt boot
  rw [Reserved, marked_low, hkernel]
  by_cases hwrap : bitmap + boot.bitmapSize < 2 ^ 32
  · rw [marked_iff hwrap]
  · rw [marked_iff_of_wrap hbitmap (by omega) (by omega) hb]
    unfold blockSize
    omega

theorem inUse_reserve_iff (hsize : s.bitmapSize = boot.bitmapSize) (hbitmap : s.bitmap < 2 ^ 32)
    (hj : j < 2 ^ 20) :
    (reserve boot s).inUse j = true ↔ s.inUse j = true ∨ Reserved boot s.bitmap j := by
  have hfit := bitmapSize_lt boot
  have hj' : j < 2 ^ 31 := by omega
  have hsame : (s.markMemoryAs 0 usableMemoryStart true).bitmap = s.bitmap :=
    bitmap_of_shape shape_markMemoryAs
  have hsameSize : (s.markMemoryAs 0 usableMemoryStart true).bitmapSize % 2 ^ 32 =
      boot.bitmapSize := by
    rw [bitmapSize_of_shape shape_markMemoryAs, hsize, Nat.mod_eq_of_lt (by omega)]
  have hreserve : reserve boot s = ((s.markMemoryAs 0 usableMemoryStart true).markMemoryAs s.bitmap
      boot.bitmapSize true).markMemoryAs boot.kernelStartP
        (sub32 boot.kernelEndP boot.kernelStartP) true := by
    rw [reserve, hsame, hsameSize]
  rw [hreserve, reserved_iff hbitmap hj]
  constructor
  · intro h
    by_cases hfirst : 32 ≤ j
    · rcases of_inUse_markMemoryAs hj' hfirst h with h | h
      · rcases of_inUse_markMemoryAs hj' hfirst h with h | h
        · rcases of_inUse_markMemoryAs hj' hfirst h with h | h
          · exact Or.inl h
          · exact Or.inr (Or.inl h)
        · exact Or.inr (Or.inr (Or.inl h))
      · exact Or.inr (Or.inr (Or.inr h))
    · exact Or.inr (Or.inl (marked_low.mpr (by omega)))
  · intro h
    apply inUse_markMemoryAs hj'
    rcases h with h | h | h | h
    · exact Or.inl (inUse_markMemoryAs hj' (Or.inl (inUse_markMemoryAs hj' (Or.inl h))))
    · exact Or.inl (inUse_markMemoryAs hj' (Or.inl (inUse_markMemoryAs hj' (Or.inr h))))
    · exact Or.inl (inUse_markMemoryAs hj' (Or.inr h))
    · exact Or.inr h

end State

theorem findMemoryForBitmap_lt {m : Memory} {bitmap : ℕ}
    (h : findMemoryForBitmap m boot steps entry = some bitmap) : bitmap < 2 ^ 32 := by
  induction steps generalizing entry with
  | zero => cases h
  | succ steps ih =>
      simp only [findMemoryForBitmap] at h
      split_ifs at h
      · rw [← Option.some.inj h]
        exact Nat.mod_lt _ (by decide)
      · rw [← Option.some.inj h]
        exact Nat.mod_lt _ (by decide)
      · exact ih h
      · exact ih h

/-- After initialization the blocks in use are exactly the reserved ones, and
the shape is what `find_memory_for_bitmap` and the sizes give. -/
theorem initializeBlocks_spec {memory : Memory} (h : initializeBlocks memory boot steps = some s) :
    findMemoryForBitmap memory boot steps boot.mmapAddr.toNat = some s.bitmap ∧
      s.shape = (s.bitmap, boot.numberOfBlocks, boot.numberOfCells, boot.bitmapSize) ∧
      ∀ b < 32 * boot.numberOfCells, (s.inUse b = true ↔ Reserved boot s.bitmap b) := by
  have hcells := numberOfCells_lt boot
  have hsize : boot.bitmapSize = 4 * boot.numberOfCells := Nat.mul_comm _ _
  have hmod := bitmapSize_mod boot
  simp only [initializeBlocks, fillBitmap, Option.bind_eq_bind, Option.bind_eq_some_iff, hmod,
    Option.some.injEq] at h
  obtain ⟨bitmap, hfind, s', hfree, rfl⟩ := h
  have hshape := shape_freeEntries hfree
  have hbitmap : s'.bitmap = bitmap := bitmap_of_shape hshape
  have hbitmapSize : s'.bitmapSize = boot.bitmapSize := bitmapSize_of_shape hshape
  have hreserve : (reserve boot s').shape = s'.shape := by
    simp only [reserve, shape_markMemoryAs]
  have hbitmap' : (reserve boot s').bitmap = bitmap := (bitmap_of_shape hreserve).trans hbitmap
  have hlt : s'.bitmap < 2 ^ 32 := by
    rw [hbitmap]
    exact findMemoryForBitmap_lt hfind
  rw [hbitmap']
  refine ⟨hfind, hreserve.trans hshape, fun b hb => ?_⟩
  have hclear : s'.inUse b = false := by
    apply not_inUse_freeEntries hfree (by omega)
    rw [hsize]
    exact bit_clearBytes hb
  rw [inUse_reserve_iff hbitmapSize hlt (by omega), hbitmap, hclear]
  simp

theorem numberOfCells_initializeBlocks {memory : Memory}
    (h : initializeBlocks memory boot steps = some s) : s.numberOfCells = boot.numberOfCells := by
  obtain ⟨-, hshape, -⟩ := initializeBlocks_spec h
  exact congrArg (fun shape => shape.2.2.1) hshape

end AviKernel.PhysicalMgr
