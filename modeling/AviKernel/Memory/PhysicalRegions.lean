import AviKernel.Memory.PhysicalRam

/-!
# Marking a region

A region is marked from the block of its first byte to the block of the byte behind
its last one.  When memory is given away this frees blocks that the region shares with
its neighbours, and one that it has no byte of; when it is reserved, only the last
block can be too much.
-/

namespace AviKernel.PhysicalMgr

open State

variable {s : State} {b first j n start size : ℕ} {used : Bool}

/-! ## What rounding should give -/

/-- The region has a byte of the block. -/
def Meets (start size b : ℕ) : Prop := ∃ a ∈ block b, a ∈ (⟨start, size⟩ : Extent)

/-- The region has all bytes of the block. -/
def Within (start size b : ℕ) : Prop := ∀ a ∈ block b, a ∈ (⟨start, size⟩ : Extent)

/-- The blocks that become used if any byte is used, and free if all bytes are free. -/
def Aims (start size : ℕ) : Bool → ℕ → Prop
  | true => Meets start size
  | false => Within start size

/-- The block is in the address space, and the bitmap has a bit for it. -/
def Covered (s : State) (b : ℕ) : Prop := b < 32 * s.numberOfCells ∧ b < 2 ^ 20

/-- Marking changes the blocks it should, in a number of turns that the size bounds. -/
structure RoundsSafely (s : State) (start size : ℕ) (used : Bool) : Prop where
  marked : ∀ b, Covered s b → Aims start size used b →
    (s.markMemoryAs start size used).inUse b = used
  others : ∀ b, Covered s b → ¬ Aims start size used b →
    (s.markMemoryAs start size used).inUse b = s.inUse b
  turns : blocksCount start size ≤ size / blockSize + 2

theorem meets_iff (hsize : 0 < size) :
    Meets start size b ↔ start / blockSize ≤ b ∧ b ≤ (start + size - 1) / blockSize := by
  simp only [Meets, block, blockSize, Extent.mem_mk]
  constructor
  · rintro ⟨a, hblock, hregion⟩
    omega
  · intro h
    refine ⟨max start (b * 4096), ?_, ?_⟩
    · omega
    · omega

theorem within_bytes_iff : Within start size b ↔
    start ≤ b * blockSize ∧ (b + 1) * blockSize ≤ start + size := by
  simp only [Within, block, blockSize, Extent.mem_mk]
  constructor
  · intro h
    obtain ⟨hstart, -⟩ := h (b * 4096) ⟨le_rfl, by omega⟩
    obtain ⟨-, hend⟩ := h (b * 4096 + 4095) ⟨by omega, by omega⟩
    exact ⟨hstart, by omega⟩
  · intro h a ha
    omega

/-! ## What marking gives -/

theorem inUse_markBlocks_eq (hfit : first + n ≤ 2 ^ 31) (hj : j < 2 ^ 31) :
    (s.markBlocks used first n).inUse j =
      if first ≤ j ∧ j < first + n then used else s.inUse j := by
  induction n with
  | zero => rw [markBlocks, if_neg (by omega)]
  | succ n ih =>
      have hindex : toInt32 (add32 first n) = (first + n : ℕ) := by
        rw [add32_of_lt (by omega), toInt32_of_lt (by omega)]
      have hmark : (s.markBlocks used first (n + 1)).inUse j =
          if j = first + n then used else (s.markBlocks used first n).inUse j := by
        rw [markBlocks, hindex]
        cases used with
        | true =>
            show (State.setUsed _ _).inUse j = _
            rw [inUse_setUsed (by omega) hj]
            by_cases hlast : j = first + n <;> simp [hlast]
        | false =>
            show (State.setFree _ _).inUse j = _
            rw [inUse_setFree (by omega) hj]
            by_cases hlast : j = first + n <;> simp [hlast]
      rw [hmark, ih (by omega)]
      by_cases hlast : j = first + n
      · rw [if_pos hlast, if_pos (by omega)]
      · rw [if_neg hlast]
        exact if_congr (by omega) rfl rfl

theorem blocksCount_of_lt (hsum : start + size < 2 ^ 32) :
    blocksCount start size = (start + size) / blockSize - start / blockSize + 1 := by
  rw [blocksCount, endBlock, add32_of_lt hsum, startBlock, blockSize,
    sub32_of_le (by omega) (by omega), add32_of_lt (by omega)]

theorem inUse_markMemoryAs_of_lt (hsum : start + size < 2 ^ 32) (hb : b < 2 ^ 20) :
    (s.markMemoryAs start size used).inUse b =
      if start / blockSize ≤ b ∧ b ≤ (start + size) / blockSize then used else s.inUse b := by
  have hcount := blocksCount_of_lt hsum
  unfold blockSize at hcount
  rw [markMemoryAs, startBlock, hcount, blockSize, inUse_markBlocks_eq (by omega) (by omega)]
  exact if_congr (by omega) rfl rfl

/-- A region that ends with the address space seems to end in block zero. -/
theorem blocksCount_of_top (htop : start + size = 2 ^ 32) :
    blocksCount start size = (2 ^ 32 + 1 - start / blockSize) % 2 ^ 32 := by
  have hend : endBlock start size = 0 := by
    rw [endBlock, add32, htop]
    rfl
  have hstart : start / 4096 ≤ 2 ^ 20 := by omega
  rw [blocksCount, hend, startBlock, blockSize]
  generalize start / 4096 = first at *
  unfold add32 sub32
  omega

/-- At the top of the address space block zero is marked, if it holds the first byte. -/
theorem inUse_markMemoryAs_of_top (htop : start + size = 2 ^ 32) (hstart : start < 2 * blockSize)
    (hb : b < 2 ^ 20) : (s.markMemoryAs start size used).inUse b =
      if b = 0 ∧ start < blockSize then used else s.inUse b := by
  unfold blockSize at hstart
  have hcount := blocksCount_of_top htop
  unfold blockSize at hcount
  rw [markMemoryAs, startBlock, hcount, blockSize]
  by_cases hzero : start / 4096 = 0
  · have hone : (2 ^ 32 + 1 - start / 4096) % 2 ^ 32 = 1 := by omega
    rw [hzero, Nat.sub_zero, inUse_markBlocks_eq (by decide) (by omega)]
    exact if_congr (by omega) rfl rfl
  · have hone : start / 4096 = 1 := by omega
    rw [hone, inUse_markBlocks_eq (by decide) (by omega)]
    exact if_congr (by omega) rfl rfl

/-! ## When they agree -/

/-- What is marked without need, or needed and not marked, is so already. -/
theorem roundsSafely_iff_of_marks {P : ℕ → Prop} [DecidablePred P]
    (hmarks : ∀ b < 2 ^ 20, (s.markMemoryAs start size used).inUse b =
      if P b then used else s.inUse b)
    (hturns : blocksCount start size ≤ size / blockSize + 2) :
    RoundsSafely s start size used ↔
      ∀ b, Covered s b → ¬ (P b ↔ Aims start size used b) → s.inUse b = used := by
  constructor
  · intro h b hb hdiffer
    by_cases hP : P b
    · have hnot : ¬ Aims start size used b := fun haims => hdiffer (iff_of_true hP haims)
      rw [← h.others b hb hnot, hmarks b hb.2, if_pos hP]
    · have haims : Aims start size used b := by
        by_contra hnot
        exact hdiffer (iff_of_false hP hnot)
      rw [← h.marked b hb haims, hmarks b hb.2, if_neg hP]
  · intro h
    refine ⟨fun b hb haims => ?_, fun b hb hnot => ?_, hturns⟩
    · rw [hmarks b hb.2]
      split_ifs with hP
      · rfl
      · exact h b hb fun hiff => hP (hiff.mpr haims)
    · rw [hmarks b hb.2]
      split_ifs with hP
      · exact (h b hb fun hiff => hnot (hiff.mp hP)).symm
      · rfl

/-- The blocks on which rounding goes wrong are already as they are marked.  Below the top
of the address space these are the block behind the region, where it ends with a block,
and, if memory is freed, the blocks that hold its two ends; at the top they are all that
should be marked. -/
def Settled (s : State) (start size : ℕ) : Bool → Prop
  | true =>
      if start + size < 2 ^ 32 then
        (start + size) % blockSize = 0 → (start + size) / blockSize < 32 * s.numberOfCells →
          s.inUse ((start + size) / blockSize) = true
      else start < 2 * blockSize ∧ ∀ b < 2 ^ 20, 0 < b → s.inUse b = true
  | false =>
      if start + size < 2 ^ 32 then
        (start % blockSize ≠ 0 → s.inUse (start / blockSize) = false) ∧
          ((start + size) / blockSize < 32 * s.numberOfCells →
            s.inUse ((start + size) / blockSize) = false)
      else start < 2 * blockSize ∧
        ∀ b < 2 ^ 20, start < blockSize ∨ start ≤ b * blockSize → s.inUse b = false

theorem roundsSafely_iff_of_lt (hsize : 0 < size) (hsum : start + size < 2 ^ 32)
    (hrange : start + size ≤ 32 * s.numberOfCells * blockSize) :
    RoundsSafely s start size used ↔ Settled s start size used := by
  have hturns : blocksCount start size ≤ size / blockSize + 2 := by
    rw [blocksCount_of_lt hsum]
    unfold blockSize
    omega
  rw [roundsSafely_iff_of_marks (fun b hb => inUse_markMemoryAs_of_lt hsum hb) hturns]
  unfold blockSize at hrange ⊢
  cases used with
  | true =>
      rw [Settled, if_pos hsum]
      simp only [Aims, meets_iff hsize, blockSize]
      constructor
      · intro h haligned hlast
        exact h _ ⟨hlast, by omega⟩ (by omega)
      · intro h b hb hdiffer
        have hend : b = (start + size) / 4096 := by omega
        rw [hend]
        exact h (by omega) (by rw [← hend]; exact hb.1)
  | false =>
      rw [Settled, if_pos hsum]
      simp only [Aims, within_bytes_iff, blockSize]
      constructor
      · intro h
        refine ⟨fun hshared => h _ ⟨by omega, by omega⟩ (by omega), fun hlast => ?_⟩
        exact h _ ⟨hlast, by omega⟩ (by omega)
      · rintro ⟨hfirst, hlast⟩ b hb hdiffer
        by_cases hend : b = (start + size) / 4096
        · rw [hend]
          exact hlast (by rw [← hend]; exact hb.1)
        · have hshared : b = start / 4096 := by omega
          rw [hshared]
          exact hfirst (by omega)

theorem roundsSafely_iff_of_top (hsize : size < 2 ^ 32) (htop : start + size = 2 ^ 32)
    (hrange : start + size ≤ 32 * s.numberOfCells * blockSize) :
    RoundsSafely s start size used ↔ Settled s start size used := by
  have hcount := blocksCount_of_top htop
  unfold blockSize at hrange
  by_cases hstart : start < 2 * blockSize
  · have hturns : blocksCount start size ≤ size / blockSize + 2 := by
      rw [hcount]
      unfold blockSize at hstart ⊢
      omega
    rw [roundsSafely_iff_of_marks (fun b hb => inUse_markMemoryAs_of_top htop hstart hb) hturns]
    unfold blockSize at hstart ⊢
    cases used with
    | true =>
        rw [Settled, if_neg (by omega)]
        simp only [Aims, meets_iff (show 0 < size by omega), blockSize]
        constructor
        · intro h
          exact ⟨hstart, fun b hb hpos => h b ⟨by omega, hb⟩ (by omega)⟩
        · rintro ⟨-, h⟩ b hb hdiffer
          exact h b hb.2 (by omega)
    | false =>
        rw [Settled, if_neg (by omega)]
        simp only [Aims, within_bytes_iff, blockSize]
        constructor
        · intro h
          exact ⟨hstart, fun b hb hside => h b ⟨by omega, hb⟩ (by omega)⟩
        · rintro ⟨-, h⟩ b hb hdiffer
          exact h b hb.2 (by omega)
  · refine iff_of_false (fun h => ?_) fun h => ?_
    · -- The difference of the blocks has wrapped, so that almost all numbers are counted.
      have hturns := h.turns
      rw [hcount] at hturns
      unfold blockSize at hstart hturns
      omega
    · cases used with
      | true =>
          rw [Settled, if_neg (by omega)] at h
          exact hstart h.1
      | false =>
          rw [Settled, if_neg (by omega)] at h
          exact hstart h.1

theorem roundsSafely_iff (hpos : 0 < size) (hsize : size < 2 ^ 32) (hsum : start + size ≤ 2 ^ 32)
    (hrange : start + size ≤ 32 * s.numberOfCells * blockSize) :
    RoundsSafely s start size used ↔ Settled s start size used := by
  rcases hsum.lt_or_eq with hlt | htop
  · exact roundsSafely_iff_of_lt hpos hlt hrange
  · exact roundsSafely_iff_of_top hsize htop hrange

/-- A manager of 32 blocks that are all free. -/
def clearState : State := ⟨⟨fun _ => 0, []⟩, 0x1000, 32, 1, 4⟩

theorem roundsSafely_iff_partOfBlock :
    RoundsSafely clearState 0x1800 0x1000 true ↔ Settled clearState 0x1800 0x1000 true :=
  roundsSafely_iff (by decide) (by decide) (by decide) (by decide)

/-- The first block is reserved, and with it the second one. -/
theorem not_roundsSafely : ¬ ∀ (s : State) (start size : ℕ) (used : Bool), 0 < size →
    size < 2 ^ 32 → start + size ≤ 2 ^ 32 →
      start + size ≤ 32 * s.numberOfCells * blockSize → RoundsSafely s start size used := by
  intro h
  have hrounds := h clearState 0 0x1000 true (by decide) (by decide) (by decide) (by decide)
  rw [roundsSafely_iff_of_lt (by decide) (by decide) (by decide), Settled, if_pos (by decide)]
    at hrounds
  exact absurd (hrounds rfl (by decide)) (by decide)

end AviKernel.PhysicalMgr
