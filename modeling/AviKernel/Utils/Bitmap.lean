import AviKernel.Library.ByteMemory
import AviKernel.Library.Words

/-!
# Bitmaps

A bitmap is an array of 32-bit cells in memory, indexed by a signed number.
The quotient of an index rounds towards zero and a shift uses the low five
bits of its count.  `test` compares a signed word with zero, so the last bit
of a cell always reads as clear.
-/

namespace AviKernel.Bitmap

variable {m : Memory} {base i j k w : ℕ} {index : ℤ} {what : Bool}

/-- The address of the cell that holds the bit. -/
def cellAddr (bitmap : ℕ) (index : ℤ) : ℕ := ((bitmap + 4 * index.tdiv 32) % 2 ^ 32).toNat

/-- The number of the bit in its cell. -/
def bitOf (index : ℤ) : ℕ := (index % 32).toNat

def set (m : Memory) (bitmap : ℕ) (index : ℤ) : Memory :=
  let cell := cellAddr bitmap index
  m.store32 cell (setBit (m.load32 cell) (bitOf index))

def clear (m : Memory) (bitmap : ℕ) (index : ℤ) : Memory :=
  let cell := cellAddr bitmap index
  m.store32 cell (clearBit (m.load32 cell) (bitOf index))

def put (m : Memory) (bitmap : ℕ) (index : ℤ) (what : Bool) : Memory :=
  if what then set m bitmap index else clear m bitmap index

def test (m : Memory) (bitmap : ℕ) (index : ℤ) : Bool :=
  let result := toInt32 (m.load32 (cellAddr bitmap index) &&& 1 <<< bitOf index)
  decide (0 < result)

/-! ## The bits of the array -/

/-- The bit with the given number. -/
def bit (m : Memory) (bitmap i : ℕ) : Bool := (m.load32 (bitmap + 4 * (i / 32))).testBit (i % 32)

theorem bitOf_natCast : bitOf i = i % 32 := by
  unfold bitOf
  omega

theorem bitOf_lt (index : ℤ) : bitOf index < 32 := by
  unfold bitOf
  omega

theorem tdiv_natCast : (i : ℤ).tdiv 32 = (i / 32 : ℕ) := rfl

theorem tdiv_nonpos (h : index < 0) : index.tdiv 32 ≤ 0 := by
  have hsign : Int.sign 32 = 1 := rfl
  rw [Int.tdiv_eq_ediv, hsign]
  split_ifs <;> omega

theorem tdiv_bounds (hlow : -2 ^ 31 ≤ index) (hhigh : index < 2 ^ 31) :
    -2 ^ 26 ≤ index.tdiv 32 ∧ index.tdiv 32 < 2 ^ 26 := by
  have hsign : Int.sign 32 = 1 := rfl
  rw [Int.tdiv_eq_ediv, hsign]
  split_ifs <;> omega

/-- Storing the cell of an index changes the bits of that cell only. -/
theorem bit_store (hlow : -2 ^ 31 ≤ index) (hhigh : index < 2 ^ 31) (hj : j < 2 ^ 31)
    (hw : w < 2 ^ 32) :
    bit (m.store32 (cellAddr base index) w) base j =
      if (j / 32 : ℕ) = index.tdiv 32 then w.testBit (j % 32) else bit m base j := by
  have hbounds := tdiv_bounds hlow hhigh
  unfold bit cellAddr
  generalize index.tdiv 32 = q at *
  by_cases hcell : ((j / 32 : ℕ) : ℤ) = q
  · have haddr : ((base + 4 * q : ℤ) % 2 ^ 32).toNat = (base + 4 * (j / 32)) % 2 ^ 32 := by omega
    rw [if_pos hcell, haddr, ← Memory.load32_mod (a := base + 4 * (j / 32)),
      Memory.load32_store32_self hw]
  · rw [if_neg hcell, Memory.load32_store32_of_ne]
    intro i hi k hk
    omega

theorem load_cellAddr :
    m.load32 (cellAddr base i) = m.load32 (base + 4 * (i / 32)) := by
  have haddr : cellAddr base i = (base + 4 * (i / 32)) % 2 ^ 32 := by
    rw [cellAddr, tdiv_natCast]
    omega
  rw [haddr, Memory.load32_mod]

theorem put_eq (m : Memory) (base i : ℕ) (what : Bool) : put m base i what =
    m.store32 (cellAddr base i) (putBit (m.load32 (cellAddr base i)) (i % 32) what) := by
  cases what with
  | true => simp only [put, set, putBit, bitOf_natCast, if_true]
  | false => simp only [put, clear, putBit, bitOf_natCast, Bool.false_eq_true, if_false]

theorem bit_put (hi : i < 2 ^ 31) (hj : j < 2 ^ 31) :
    bit (put m base i what) base j = if j = i then what else bit m base j := by
  have hlt : i % 32 < 32 := Nat.mod_lt _ (by decide)
  rw [put_eq, bit_store (by omega) (by omega) hj (putBit_lt Memory.load32_lt hlt), load_cellAddr,
    tdiv_natCast]
  by_cases hcell : j / 32 = i / 32
  · have hsame : j % 32 = i % 32 ↔ j = i := by omega
    rw [if_pos (congrArg Nat.cast hcell), testBit_putBit (Nat.mod_lt _ (by decide)), bit, hcell,
      if_congr hsame rfl rfl]
  · have hne : j ≠ i := fun h => hcell (by rw [h])
    rw [if_neg fun h => hcell (Int.ofNat_inj.mp h), if_neg hne]

theorem bit_set (hi : i < 2 ^ 31) (hj : j < 2 ^ 31) :
    bit (set m base i) base j = (bit m base j || decide (j = i)) := by
  have hput : bit (put m base i true) base j = if j = i then true else bit m base j :=
    bit_put hi hj
  rw [put, if_pos rfl] at hput
  rw [hput]
  by_cases hji : j = i <;> simp [hji]

theorem bit_clear (hi : i < 2 ^ 31) (hj : j < 2 ^ 31) :
    bit (clear m base i) base j = (bit m base j && !decide (j = i)) := by
  have hput : bit (put m base i false) base j = if j = i then false else bit m base j :=
    bit_put hi hj
  rw [put, if_neg Bool.false_ne_true] at hput
  rw [hput]
  by_cases hji : j = i <;> simp [hji]

/-- A negative index reaches cells below the array and its first cell only. -/
theorem bit_set_of_neg (hlow : -2 ^ 31 ≤ index) (hneg : index < 0) (hj : j < 2 ^ 31)
    (hfirst : 32 ≤ j) : bit (set m base index) base j = bit m base j := by
  have hnonpos := tdiv_nonpos hneg
  simp only [set]
  rw [bit_store hlow (by omega) hj (setBit_lt Memory.load32_lt (bitOf_lt index)), if_neg]
  omega

theorem load_cellAddr_of_tdiv (hcell : (j / 32 : ℕ) = index.tdiv 32) :
    m.load32 (cellAddr base index) = m.load32 (base + 4 * (j / 32)) := by
  have haddr : cellAddr base index = (base + 4 * (j / 32)) % 2 ^ 32 := by
    rw [cellAddr, ← hcell]
    omega
  rw [haddr, Memory.load32_mod]

/-- Setting clears no bit, whatever the index. -/
theorem bit_set_of_set (hlow : -2 ^ 31 ≤ index) (hhigh : index < 2 ^ 31) (hj : j < 2 ^ 31)
    (h : bit m base j = true) : bit (set m base index) base j = true := by
  simp only [set]
  rw [bit_store hlow hhigh hj (setBit_lt Memory.load32_lt (bitOf_lt index))]
  split_ifs with hcell
  · have hbit : (m.load32 (base + 4 * (j / 32))).testBit (j % 32) = true := h
    rw [load_cellAddr_of_tdiv hcell, testBit_setBit, hbit, Bool.true_or]
  · exact h

/-- Clearing sets no bit, whatever the index. -/
theorem bit_clear_of_clear (hlow : -2 ^ 31 ≤ index) (hhigh : index < 2 ^ 31) (hj : j < 2 ^ 31)
    (h : bit m base j = false) : bit (clear m base index) base j = false := by
  simp only [clear]
  rw [bit_store hlow hhigh hj (clearBit_lt Memory.load32_lt)]
  split_ifs with hcell
  · have hbit : (m.load32 (base + 4 * (j / 32))).testBit (j % 32) = false := h
    rw [load_cellAddr_of_tdiv hcell, testBit_clearBit (Nat.mod_lt _ (by decide)), hbit,
      Bool.false_and]
  · exact h

theorem and_one_shiftLeft (w k : ℕ) : w &&& 1 <<< k = if w.testBit k then 2 ^ k else 0 := by
  rw [Nat.one_shiftLeft, Nat.and_two_pow]
  cases w.testBit k <;> simp

/-- The last bit of a cell always tests as clear. -/
theorem test_eq : test m base i = (bit m base i && decide (i % 32 ≠ 31)) := by
  have hlt : i % 32 < 32 := Nat.mod_lt _ (by decide)
  simp only [test, load_cellAddr, bitOf_natCast, and_one_shiftLeft, bit]
  cases (m.load32 (base + 4 * (i / 32))).testBit (i % 32) with
  | false => rfl
  | true =>
      rw [if_pos rfl, Bool.true_and]
      by_cases hlast : i % 32 = 31
      · rw [hlast]
        decide
      · have hpow : 2 ^ (i % 32) < 2 ^ 31 := Nat.pow_lt_pow_right (by decide) (by omega)
        have hpos : 0 < 2 ^ (i % 32) := Nat.two_pow_pos _
        rw [toInt32_of_lt hpow]
        simp only [ne_eq, hlast, not_false_eq_true, decide_true, decide_eq_true_eq]
        exact_mod_cast hpos

/-- A cell is all ones exactly when its 32 bits are set. -/
theorem cell_eq_ones_iff (m : Memory) (base k : ℕ) :
    m.load32 (base + 4 * k) = 2 ^ 32 - 1 ↔ ∀ j < 32, bit m base (32 * k + j) = true := by
  rw [eq_ones_iff Memory.load32_lt]
  refine forall_congr' fun j => forall_congr' fun hj => ?_
  have hdiv : (32 * k + j) / 32 = k := by omega
  have hmod : (32 * k + j) % 32 = j := by omega
  rw [bit, hdiv, hmod]

end AviKernel.Bitmap
