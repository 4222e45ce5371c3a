import AviKernel.Library.Extents
import AviKernel.Library.Runs
import AviKernel.Memory.PhysicalBlocks

/-!
# Runs of the physical memory manager

`allocate_block` hands out the lowest clear block.  Along every run of
allocations and releases of outstanding blocks, the reserved blocks stay in
use, and so does every outstanding block.
-/

namespace AviKernel.PhysicalMgr

open State

variable {s : State} {boot : Boot} {b i n todo : ℕ}

namespace State

/-! ## The two loops of `allocate_block` -/

theorem test_of_not_last (h : b % 32 ≠ 31) :
    Bitmap.test s.memory s.bitmap b = s.inUse b := by
  rw [Bitmap.test_eq, decide_eq_true h, Bool.and_true]
  rfl

theorem findFree_spec (htodo : todo ≤ 32)
    (hclear : ∃ j, 32 - todo ≤ j ∧ j < 32 ∧ s.inUse (i * 32 + j) = false) :
    ∃ j, 32 - todo ≤ j ∧ j < 32 ∧ s.findFree i todo = some (i * 32 + j) ∧
      s.inUse (i * 32 + j) = false ∧
      ∀ k, 32 - todo ≤ k → k < j → s.inUse (i * 32 + k) = true := by
  induction todo with
  | zero =>
      obtain ⟨j, hlow, hhigh, -⟩ := hclear
      omega
  | succ todo ih =>
      obtain ⟨j, hlow, hhigh, hj⟩ := hclear
      have hstart : 32 - (todo + 1) = 31 - todo := by omega
      cases htest : Bitmap.test s.memory s.bitmap (i * 32 + (31 - todo) : ℕ) with
      | true =>
          have hused : s.inUse (i * 32 + (31 - todo)) = true := by
            rw [Bitmap.test_eq, Bool.and_eq_true] at htest
            exact htest.1
          have hne : j ≠ 31 - todo := by
            rintro rfl
            rw [hused] at hj
            cases hj
          obtain ⟨j', hlow', hhigh', hfind, hclear', hall⟩ :=
            ih (by omega) ⟨j, by omega, hhigh, hj⟩
          refine ⟨j', by omega, hhigh', ?_, hclear', fun k hk hkj => ?_⟩
          · rw [findFree]
            simp only [htest, if_true, hfind]
          · by_cases hfirst : k = 31 - todo
            · rw [hfirst]
              exact hused
            · exact hall k (by omega) hkj
      | false =>
          -- Only the last bit of the cell can be misread, and then it is the clear one.
          have hfree : s.inUse (i * 32 + (31 - todo)) = false := by
            by_cases hlast : todo = 0
            · subst hlast
              have hjlast : j = 31 - 0 := by omega
              rw [← hjlast]
              exact hj
            · rw [← test_of_not_last (by omega)]
              exact htest
          refine ⟨31 - todo, by omega, by omega, ?_, hfree, fun k hk hkj => by omega⟩
          rw [findFree]
          simp only [htest, Bool.false_eq_true, if_false]

theorem allocateFrom_spec (hcells : s.numberOfCells < 2 ^ 15) (htodo : todo ≤ s.numberOfCells) :
    ((∀ b, 32 * (s.numberOfCells - todo) ≤ b → b < 32 * s.numberOfCells → s.inUse b = true) ∧
        s.allocateFrom todo = (0, s)) ∨
      ∃ b, 32 * (s.numberOfCells - todo) ≤ b ∧ b < 32 * s.numberOfCells ∧ s.inUse b = false ∧
        (∀ b', 32 * (s.numberOfCells - todo) ≤ b' → b' < b → s.inUse b' = true) ∧
        s.allocateFrom todo = (b * blockSize, s.setUsed b) := by
  induction todo with
  | zero =>
      left
      exact ⟨fun b hlow hhigh => by omega, rfl⟩
  | succ todo ih =>
      have ih := ih (by omega)
      have hnext : s.numberOfCells - todo = s.numberOfCells - (todo + 1) + 1 := by omega
      have hlt : s.numberOfCells - (todo + 1) < s.numberOfCells := by omega
      rw [hnext] at ih
      rw [allocateFrom]
      generalize s.numberOfCells - (todo + 1) = i at *
      have hones := Bitmap.cell_eq_ones_iff s.memory s.bitmap i
      by_cases hcell : s.memory.load32 (s.bitmap + 4 * i) = 2 ^ 32 - 1
      · have hall := hones.mp hcell
        have hused : ∀ b, 32 * i ≤ b → b < 32 * i + 32 → s.inUse b = true := by
          intro b hlow hhigh
          have hbit := hall (b - 32 * i) (by omega)
          rw [Nat.add_sub_cancel' hlow] at hbit
          exact hbit
        simp only [ne_eq, hcell, not_true_eq_false, if_false]
        rcases ih with ⟨hrest, hnone⟩ | ⟨b, hlow, hhigh, hfree, hbefore, hsome⟩
        · left
          refine ⟨fun b hlow hhigh => ?_, hnone⟩
          by_cases hb : b < 32 * i + 32
          · exact hused b hlow hb
          · exact hrest b (by omega) hhigh
        · right
          refine ⟨b, by omega, hhigh, hfree, fun b' hlow' hlt' => ?_, hsome⟩
          by_cases hb : b' < 32 * i + 32
          · exact hused b' hlow' hb
          · exact hbefore b' (by omega) hlt'
      · have hclear : ∃ j, 32 - 32 ≤ j ∧ j < 32 ∧ s.inUse (i * 32 + j) = false := by
          by_contra hn
          refine hcell (hones.mpr fun j hj => ?_)
          by_contra hbit
          refine hn ⟨j, by omega, hj, ?_⟩
          rw [Nat.mul_comm]
          exact Bool.eq_false_of_not_eq_true hbit
        obtain ⟨j, -, hj, hfind, hfree, hbefore⟩ := findFree_spec le_rfl hclear
        right
        refine ⟨i * 32 + j, by omega, by omega, hfree, fun b' hlow hlt' => ?_, ?_⟩
        · have hb' := hbefore (b' - i * 32) (by omega) (by omega)
          rw [Nat.add_sub_cancel' (by omega)] at hb'
          exact hb'
        · have haddr : (i * 32 + j) * blockSize % 2 ^ 32 = (i * 32 + j) * blockSize := by
            unfold blockSize
            exact Nat.mod_eq_of_lt (by omega)
          simp only [ne_eq, hcell, not_false_eq_true, if_true, hfind, haddr]

/-- `allocate_block` either finds every block in use, or hands out the lowest
block that is not. -/
theorem allocateBlock_spec (hcells : s.numberOfCells < 2 ^ 15) :
    ((∀ b < 32 * s.numberOfCells, s.inUse b = true) ∧ s.allocateBlock = (0, s)) ∨
      ∃ b < 32 * s.numberOfCells, s.inUse b = false ∧ (∀ b' < b, s.inUse b' = true) ∧
        s.allocateBlock = (b * blockSize, s.setUsed b) := by
  have hspec := allocateFrom_spec hcells le_rfl
  rw [Nat.sub_self, Nat.mul_zero] at hspec
  rcases hspec with ⟨hall, hnone⟩ | ⟨b, -, hb, hfree, hbefore, hsome⟩
  · exact Or.inl ⟨fun b hb => hall b (Nat.zero_le b) hb, hnone⟩
  · exact Or.inr ⟨b, hb, hfree, fun b' hb' => hbefore b' (Nat.zero_le b') hb', hsome⟩

/-! ## Repeated allocation -/

/-- The state after that many further calls of `allocate_block`. -/
def afterAllocations (s : State) : ℕ → State
  | 0 => s
  | n + 1 => s.allocateBlock.2.afterAllocations n

theorem shape_allocateBlock (hcells : s.numberOfCells < 2 ^ 15) :
    s.allocateBlock.2.shape = s.shape := by
  rcases allocateBlock_spec hcells with ⟨-, hnone⟩ | ⟨b, -, -, -, hsome⟩
  · rw [hnone]
  · rw [hsome, shape_setUsed]

/-- Repeated calls of `allocate_block` hand out every clear block in the end. -/
theorem exists_allocation (hcells : s.numberOfCells < 2 ^ 15) (hb : b < 32 * s.numberOfCells)
    (hfree : s.inUse b = false) :
    ∃ n, (s.afterAllocations n).allocateBlock.1 = b * blockSize := by
  -- The number of clear blocks below `b` decreases with each call.
  generalize hk : ((Finset.range b).filter fun i => s.inUse i = false).card = k
  induction k using Nat.strong_induction_on generalizing s with
  | _ k ih =>
      rcases allocateBlock_spec hcells with ⟨hall, -⟩ | ⟨c, hc, hcfree, hbefore, hsome⟩
      · rw [hall b hb] at hfree
        cases hfree
      · by_cases hcb : c = b
        · refine ⟨0, ?_⟩
          rw [afterAllocations, hsome, hcb]
        · have hlt : c < b := by
            by_contra hn
            rw [hbefore b (by omega)] at hfree
            cases hfree
          have hsub : ((Finset.range b).filter fun i => (s.setUsed c).inUse i = false) ⊂
              (Finset.range b).filter fun i => s.inUse i = false := by
            rw [Finset.ssubset_iff_of_subset]
            · refine ⟨c, by simp [hlt, hcfree], ?_⟩
              rw [Finset.mem_filter, inUse_setUsed (by omega) (by omega)]
              simp
            · intro i hi
              rw [Finset.mem_filter, Finset.mem_range] at hi ⊢
              rw [inUse_setUsed (by omega) (by omega), Bool.or_eq_false_iff] at hi
              exact ⟨hi.1, hi.2.1⟩
          have hfree' : (s.setUsed c).inUse b = false := by
            rw [inUse_setUsed (by omega) (by omega), hfree, decide_eq_false fun h => hcb h.symm,
              Bool.false_or]
          obtain ⟨n, hn⟩ := ih _ (by rw [← hk]; exact Finset.card_lt_card hsub)
            (s := s.setUsed c) hcells hb hfree' rfl
          refine ⟨n + 1, ?_⟩
          rw [afterAllocations, hsome]
          exact hn

end State

/-! ## Runs -/

/-- The manager together with the blocks that its clients hold. -/
structure Config where
  state : State
  outstanding : List ℕ

inductive Call where
  | allocateBlock
  | freeBlock (block : ℕ)

def Config.step (c : Config) : Call → Option Config
  | .allocateBlock =>
      let (p, s) := c.state.allocateBlock
      some ⟨s, if p = 0 then c.outstanding else p :: c.outstanding⟩
  | .freeBlock p => some ⟨c.state.freeBlock p, c.outstanding.erase p⟩

/-- Only outstanding blocks are released. -/
def Legal (c : Config) : Call → Prop
  | .allocateBlock => True
  | .freeBlock p => p ∈ c.outstanding

instance (c : Config) : ∀ k, Decidable (Legal c k)
  | .allocateBlock => isTrue trivial
  | .freeBlock p => inferInstanceAs (Decidable (p ∈ c.outstanding))

/-- The reserved blocks and the outstanding ones are in use, and no block is both. -/
structure Exclusive (boot : Boot) (bitmap : ℕ) (c : Config) : Prop where
  shape : c.state.shape = (bitmap, boot.numberOfBlocks, boot.numberOfCells, boot.bitmapSize)
  reserved : ∀ b < 32 * boot.numberOfCells, Reserved boot bitmap b → c.state.inUse b = true
  outstanding : ∀ p ∈ c.outstanding, ∃ b < 32 * boot.numberOfCells, p = b * blockSize ∧
    c.state.inUse b = true ∧ ¬ Reserved boot bitmap b
  nodup : c.outstanding.Nodup

namespace Exclusive

variable {bitmap p : ℕ} {c : Config}

theorem cells (h : Exclusive boot bitmap c) : c.state.numberOfCells = boot.numberOfCells :=
  congrArg (fun shape => shape.2.2.1) h.shape

theorem cells_lt (h : Exclusive boot bitmap c) : c.state.numberOfCells < 2 ^ 15 := by
  rw [h.cells]
  exact numberOfCells_lt boot

/-- What the next `allocate_block` does. -/
theorem allocate_cases (h : Exclusive boot bitmap c) :
    ((∀ b < 32 * boot.numberOfCells, c.state.inUse b = true) ∧
        c.state.allocateBlock = (0, c.state)) ∨
      ∃ b < 32 * boot.numberOfCells, c.state.inUse b = false ∧ ¬ Reserved boot bitmap b ∧
        b * blockSize ∉ c.outstanding ∧ b * blockSize ≠ 0 ∧
        c.state.allocateBlock = (b * blockSize, c.state.setUsed b) := by
  have hspec := allocateBlock_spec h.cells_lt
  rw [h.cells] at hspec
  rcases hspec with hnone | ⟨b, hb, hfree, -, hsome⟩
  · exact Or.inl hnone
  · have hreserved : ¬ Reserved boot bitmap b := by
      intro hr
      rw [h.reserved b hb hr] at hfree
      cases hfree
    have hpos : ¬ b ≤ 256 := fun hle => hreserved (Or.inl hle)
    right
    refine ⟨b, hb, hfree, hreserved, fun hp => ?_, ?_, hsome⟩
    · obtain ⟨b', hb', heq, hused, -⟩ := h.outstanding _ hp
      have hsame : b = b' := Nat.eq_of_mul_eq_mul_right (by decide) heq
      rw [hsame, hused] at hfree
      cases hfree
    · unfold blockSize
      omega

theorem step_allocate (h : Exclusive boot bitmap c) :
    ∃ t, c.step .allocateBlock = some t ∧ Exclusive boot bitmap t := by
  have hcells := numberOfCells_lt boot
  rcases h.allocate_cases with ⟨-, hnone⟩ | ⟨b, hb, -, hreserved, hfresh, hpos, hsome⟩
  · refine ⟨c, ?_, h⟩
    rw [Config.step, hnone]
    rfl
  · refine ⟨⟨c.state.setUsed b, b * blockSize :: c.outstanding⟩, ?_, h.shape, ?_, ?_, ?_⟩
    · simp only [Config.step, hsome, if_neg hpos]
    · intro b' hb' hr
      rw [inUse_setUsed (by omega) (by omega), h.reserved b' hb' hr, Bool.true_or]
    · intro p hp
      rcases List.mem_cons.mp hp with rfl | hp
      · refine ⟨b, hb, rfl, ?_, hreserved⟩
        rw [inUse_setUsed (by omega) (by omega), decide_eq_true rfl, Bool.or_true]
      · obtain ⟨b', hb', rfl, hused, hr⟩ := h.outstanding p hp
        refine ⟨b', hb', rfl, ?_, hr⟩
        rw [inUse_setUsed (by omega) (by omega), hused, Bool.true_or]
    · exact List.nodup_cons.mpr ⟨hfresh, h.nodup⟩

/-- `free_block` of an outstanding block clears its bit. -/
theorem freeBlock_eq (h : Exclusive boot bitmap c) (hp : p ∈ c.outstanding) :
    ∃ b < 32 * boot.numberOfCells, p = b * blockSize ∧ ¬ Reserved boot bitmap b ∧
      c.state.freeBlock p = c.state.setFree b := by
  have hcells := numberOfCells_lt boot
  obtain ⟨b, hb, rfl, -, hreserved⟩ := h.outstanding p hp
  have halign : b * blockSize % blockSize = 0 := Nat.mul_mod_left b blockSize
  have hblock : b * blockSize / blockSize = b := Nat.mul_div_cancel b (by decide)
  refine ⟨b, hb, rfl, hreserved, ?_⟩
  rw [freeBlock, if_neg (not_not_intro halign), hblock, toInt32_of_lt (by omega)]

theorem step_free (h : Exclusive boot bitmap c) (hp : p ∈ c.outstanding) :
    ∃ t, c.step (.freeBlock p) = some t ∧ Exclusive boot bitmap t := by
  have hcells := numberOfCells_lt boot
  obtain ⟨b, hb, rfl, hreserved, hfree⟩ := h.freeBlock_eq hp
  refine ⟨⟨c.state.setFree b, c.outstanding.erase (b * blockSize)⟩, ?_, h.shape, ?_, ?_, ?_⟩
  · rw [Config.step, hfree]
  · intro b' hb' hr
    have hne : b' ≠ b := fun heq => hreserved (heq ▸ hr)
    rw [inUse_setFree (by omega) (by omega), h.reserved b' hb' hr, decide_eq_false hne]
    rfl
  · intro q hq
    obtain ⟨b', hb', rfl, hused, hr⟩ := h.outstanding q (List.mem_of_mem_erase hq)
    have hne : b' ≠ b := by
      rintro rfl
      exact h.nodup.not_mem_erase hq
    refine ⟨b', hb', rfl, ?_, hr⟩
    rw [inUse_setFree (by omega) (by omega), hused, decide_eq_false hne]
    rfl
  · exact h.nodup.erase _

end Exclusive

/-- What clients may rely on in a configuration, for the call they make next. -/
structure Safe (boot : Boot) (c : Config) : Prop where
  null_iff : c.state.allocateBlock.1 = 0 ↔
    ∀ b < 32 * c.state.numberOfCells, c.state.inUse b = true
  range : c.state.allocateBlock.1 ≠ 0 → blockSize ∣ c.state.allocateBlock.1 ∧
    usableMemoryStart ≤ c.state.allocateBlock.1 ∧
    c.state.allocateBlock.1 < blockSize * 32 * c.state.numberOfCells
  apart : c.state.allocateBlock.1 ≠ 0 → ∀ a ∈ (⟨c.state.allocateBlock.1, blockSize⟩ : Extent),
    ¬ (boot.kernelStartP ≤ a ∧ a < boot.kernelEndP) ∧
      a ∉ (⟨c.state.bitmap, c.state.bitmapSize⟩ : Extent)
  fresh : c.state.allocateBlock.1 ≠ 0 → c.state.allocateBlock.1 ∉ c.outstanding
  again : ∀ p ∈ c.outstanding, ∃ n,
    ((c.state.freeBlock p).afterAllocations n).allocateBlock.1 = p

theorem not_mem_of_not_reserved {bitmap a : ℕ} (hb : ¬ Reserved boot bitmap (a / blockSize)) :
    ¬ (boot.kernelStartP ≤ a ∧ a < boot.kernelEndP) ∧
      a ∉ (⟨bitmap, boot.bitmapSize⟩ : Extent) := by
  simp only [Reserved, blockSize, not_or, not_and] at hb
  constructor
  · rintro ⟨hlow, hhigh⟩
    have := hb.2.2 (by omega)
    omega
  · rintro ⟨hlow, hhigh⟩
    simp only at hlow hhigh
    have := hb.2.1 (by omega)
    omega

theorem Exclusive.safe {bitmap : ℕ} {c : Config} (h : Exclusive boot bitmap c) :
    Safe boot c := by
  have hcells := numberOfCells_lt boot
  have hbitmap' : c.state.bitmap = bitmap := congrArg Prod.fst h.shape
  have hsize : c.state.bitmapSize = boot.bitmapSize :=
    congrArg (fun shape => shape.2.2.2) h.shape
  have hagain : ∀ p ∈ c.outstanding, ∃ n,
      ((c.state.freeBlock p).afterAllocations n).allocateBlock.1 = p := by
    intro p hp
    obtain ⟨b, hb, rfl, -, hfree⟩ := h.freeBlock_eq hp
    rw [hfree]
    have hlt : (c.state.setFree b).numberOfCells < 2 ^ 15 := h.cells_lt
    apply exists_allocation hlt
    · rw [← h.cells] at hb
      exact hb
    · rw [inUse_setFree (by omega) (by omega), decide_eq_true rfl, Bool.not_true, Bool.and_false]
  rcases h.allocate_cases with ⟨hall, hnone⟩ | ⟨b, hb, hfree, hreserved, hfresh, hpos, hsome⟩
  · have hzero : c.state.allocateBlock.1 = 0 := by rw [hnone]
    refine ⟨?_, fun hne => absurd hzero hne, fun hne => absurd hzero hne,
      fun hne => absurd hzero hne, hagain⟩
    rw [h.cells]
    exact iff_of_true hzero hall
  · have hp : c.state.allocateBlock.1 = b * blockSize := by rw [hsome]
    have hlow : ¬ b ≤ 256 := fun hle => hreserved (Or.inl hle)
    rw [← hp] at hpos hfresh
    refine ⟨?_, fun _ => ?_, fun _ a ha => ?_, fun _ => hfresh, hagain⟩
    · refine iff_of_false hpos fun hall => ?_
      rw [h.cells] at hall
      rw [hall b hb] at hfree
      cases hfree
    · rw [hp, h.cells]
      unfold blockSize usableMemoryStart
      exact ⟨Nat.dvd_mul_left _ _, by omega, by omega⟩
    · rw [hbitmap', hsize]
      rw [hp, Extent.mem_mk] at ha
      have hblock : a / blockSize = b := by
        unfold blockSize at ha ⊢
        omega
      apply not_mem_of_not_reserved
      rw [hblock]
      exact hreserved

theorem exclusive_initial {memory : Memory} {steps : ℕ}
    (hinit : initializeBlocks memory boot steps = some s) : Exclusive boot s.bitmap ⟨s, []⟩ := by
  obtain ⟨-, hshape, hused⟩ := initializeBlocks_spec hinit
  exact ⟨hshape, fun b hb hr => (hused b hb).mpr hr, by simp, List.nodup_nil⟩

/-- The allocator is exclusive after every run of calls from initialization. -/
theorem safe_of_run {memory : Memory} {steps : ℕ} {calls : List Call}
    (hinit : initializeBlocks memory boot steps = some s)
    (hrun : RunAll Config.step Legal ⟨s, []⟩ calls) :
    ∃ c, run Config.step ⟨s, []⟩ calls = some c ∧ Safe boot c := by
  have hstep : ∀ c k, Exclusive boot s.bitmap c → Legal c k →
      ∃ t, c.step k = some t ∧ Exclusive boot s.bitmap t := by
    intro c k h hlegal
    cases k with
    | allocateBlock => exact h.step_allocate
    | freeBlock p => exact h.step_free hlegal
  obtain ⟨c, hc, h⟩ := run_invariant hstep (exclusive_initial hinit) hrun
  exact ⟨c, hc, h.safe⟩

/-- A machine with two megabytes above the first, in one available region, and
a kernel of 64 kilobytes; the memory map has one entry. -/
def smallBoot : Boot := ⟨0x200000, 0x9000, 24, 0xC0100000, 0xC0110000, by decide⟩

def smallMemory : Memory where
  byte a :=
    if a = 0x9000 then 20
    else if a = 0x9000 + 6 then 0x10
    else if a = 0x9000 + 14 then 0x20
    else if a = 0x9000 + 20 then 1
    else 0
  written := []

theorem exists_small : ∃ s, initializeBlocks smallMemory smallBoot 2 = some s := by
  have hsome : (initializeBlocks smallMemory smallBoot 2).isSome = true := by decide +kernel
  exact Option.isSome_iff_exists.mp hsome

theorem safe_of_run_small : ∃ s, initializeBlocks smallMemory smallBoot 2 = some s ∧
    ∃ c, run Config.step ⟨s, []⟩ [.allocateBlock, .allocateBlock, .freeBlock 0x112000] = some c ∧
      Safe smallBoot c := by
  obtain ⟨s, hs⟩ := exists_small
  have hlegal : ∀ s ∈ initializeBlocks smallMemory smallBoot 2,
      RunAll Config.step Legal ⟨s, []⟩
        [.allocateBlock, .allocateBlock, .freeBlock 0x112000] := by decide +kernel
  exact ⟨s, hs, safe_of_run hs (hlegal s hs)⟩

end AviKernel.PhysicalMgr
