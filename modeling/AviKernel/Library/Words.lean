import Mathlib.Data.Nat.Bitwise
import Mathlib.Tactic

/-!
# Words of 32 and 64 bits

Unsigned words are natural numbers below `2 ^ 32` or `2 ^ 64`; sums, differences
and products wrap.
-/

namespace AviKernel

variable {a b i j k n v w : ℕ}

/-- Addition of 32-bit words. -/
def add32 (a b : ℕ) : ℕ := (a + b) % 2 ^ 32

/-- Subtraction of 32-bit words. -/
def sub32 (a b : ℕ) : ℕ := (a + (2 ^ 32 - b % 2 ^ 32)) % 2 ^ 32

/-- The value of a 32-bit word read as a signed integer. -/
def toInt32 (a : ℕ) : ℤ := if a % 2 ^ 32 < 2 ^ 31 then (a % 2 ^ 32 : ℕ) else (a % 2 ^ 32 : ℕ) - 2 ^ 32

theorem add32_of_lt (h : a + b < 2 ^ 32) : add32 a b = a + b := Nat.mod_eq_of_lt h

theorem add32_lt : add32 a b < 2 ^ 32 := Nat.mod_lt _ (by decide)

theorem sub32_of_le (ha : a < 2 ^ 32) (h : b ≤ a) : sub32 a b = a - b := by
  unfold sub32
  omega

theorem sub32_lt : sub32 a b < 2 ^ 32 := Nat.mod_lt _ (by decide)

theorem toInt32_of_lt (h : a < 2 ^ 31) : toInt32 a = a := by
  have hmod : a % 2 ^ 32 = a := Nat.mod_eq_of_lt (by omega)
  rw [toInt32, hmod, if_pos h]

theorem toInt32_of_ge (ha : a < 2 ^ 32) (h : 2 ^ 31 ≤ a) : toInt32 a = a - 2 ^ 32 := by
  have hmod : a % 2 ^ 32 = a := Nat.mod_eq_of_lt ha
  rw [toInt32, hmod, if_neg (by omega)]

theorem toInt32_bounds : -2 ^ 31 ≤ toInt32 a ∧ toInt32 a < 2 ^ 31 := by
  unfold toInt32
  split_ifs <;> omega

/-- A signed 32-bit integer after it has wrapped. -/
def wrapInt32 (a : ℤ) : ℤ := a.bmod (2 ^ 32)

theorem wrapInt32_of_bounds {a : ℤ} (hlow : -2 ^ 31 ≤ a) (hhigh : a < 2 ^ 31) : wrapInt32 a = a := by
  apply Int.bmod_eq_of_le_mul_two
  · push_cast
    omega
  · push_cast
    omega

theorem toInt32_eq_bmod (a : ℕ) : toInt32 a = (a : ℤ).bmod (2 ^ 32) := by
  rw [toInt32, Int.bmod_def]
  push_cast
  split_ifs <;> omega

/-- Signed words are added like the words they stand for. -/
theorem toInt32_add (a b : ℕ) : toInt32 (a + b) = wrapInt32 (toInt32 a + toInt32 b) := by
  rw [wrapInt32, toInt32_eq_bmod, toInt32_eq_bmod, toInt32_eq_bmod, Nat.cast_add,
    Int.bmod_add_bmod, Int.add_bmod_bmod]

theorem toInt32_mod (a : ℕ) : toInt32 (a % 2 ^ 32) = toInt32 a := by
  rw [toInt32, toInt32, Nat.mod_mod]

/-- Addition of 64-bit words. -/
def add64 (a b : ℕ) : ℕ := (a + b) % 2 ^ 64

/-- Subtraction of 64-bit words. -/
def sub64 (a b : ℕ) : ℕ := (a + (2 ^ 64 - b % 2 ^ 64)) % 2 ^ 64

/-- Multiplication of 64-bit words. -/
def mul64 (a b : ℕ) : ℕ := a * b % 2 ^ 64

theorem add64_of_lt (h : a + b < 2 ^ 64) : add64 a b = a + b := Nat.mod_eq_of_lt h

theorem sub64_of_le (ha : a < 2 ^ 64) (h : b ≤ a) : sub64 a b = a - b := by
  unfold sub64
  omega

theorem mul64_of_lt (h : a * b < 2 ^ 64) : mul64 a b = a * b := Nat.mod_eq_of_lt h

/-- A statement about bytes that holds of the first 256 numbers. -/
theorem forall_byte {P : UInt8 → Prop} (h : ∀ n : Fin 256, P (UInt8.ofFin n)) (m : UInt8) : P m :=
  h m.toFin

/-! ## Bits -/

/-- A word with one more bit set. -/
def setBit (w i : ℕ) : ℕ := w ||| 1 <<< i

/-- A word with one bit cleared. -/
def clearBit (w i : ℕ) : ℕ := w &&& (2 ^ 32 - 1 ^^^ 1 <<< i)

theorem setBit_lt (hw : w < 2 ^ 32) (hi : i < 32) : setBit w i < 2 ^ 32 := by
  apply Nat.or_lt_two_pow hw
  rw [Nat.one_shiftLeft]
  exact Nat.pow_lt_pow_right (by decide) hi

theorem clearBit_lt (hw : w < 2 ^ 32) : clearBit w i < 2 ^ 32 :=
  lt_of_le_of_lt Nat.and_le_left hw

theorem testBit_one_shiftLeft : (1 <<< i).testBit j = decide (j = i) := by
  rw [Nat.one_shiftLeft, Nat.testBit_two_pow]
  exact decide_eq_decide.mpr eq_comm

theorem testBit_setBit : (setBit w i).testBit j = (w.testBit j || decide (j = i)) := by
  rw [setBit, Nat.testBit_or, testBit_one_shiftLeft]

theorem testBit_clearBit (hj : j < 32) :
    (clearBit w i).testBit j = (w.testBit j && !decide (j = i)) := by
  rw [clearBit, Nat.testBit_and, Nat.testBit_xor, testBit_one_shiftLeft,
    Nat.testBit_two_pow_sub_one, decide_eq_true hj, Bool.true_xor]

/-- Words agree that have the same bits. -/
theorem eq_of_testBit_of_lt (hv : v < 2 ^ n) (hw : w < 2 ^ n)
    (h : ∀ k < n, v.testBit k = w.testBit k) : v = w := by
  apply Nat.eq_of_testBit_eq
  intro k
  by_cases hk : k < n
  · exact h k hk
  · have hle : 2 ^ n ≤ 2 ^ k := Nat.pow_le_pow_right (by decide) (by omega)
    rw [Nat.testBit_lt_two_pow (lt_of_lt_of_le hv hle),
      Nat.testBit_lt_two_pow (lt_of_lt_of_le hw hle)]

/-- A word is all ones exactly when each of its bits is. -/
theorem eq_ones_iff (hw : w < 2 ^ 32) : w = 2 ^ 32 - 1 ↔ ∀ j < 32, w.testBit j = true := by
  constructor
  · rintro rfl j hj
    rw [Nat.testBit_two_pow_sub_one, decide_eq_true hj]
  · intro h
    apply eq_of_testBit_of_lt hw (by decide)
    intro j hj
    rw [h j hj, Nat.testBit_two_pow_sub_one, decide_eq_true hj]

/-- A word with one bit put. -/
def putBit (w i : ℕ) (what : Bool) : ℕ := if what then setBit w i else clearBit w i

section Put

variable {what other : Bool}

theorem putBit_lt (hw : w < 2 ^ 32) (hi : i < 32) : putBit w i what < 2 ^ 32 := by
  cases what with
  | true => exact setBit_lt hw hi
  | false => exact clearBit_lt hw

theorem testBit_putBit (hk : k < 32) :
    (putBit w i what).testBit k = if k = i then what else w.testBit k := by
  cases what with
  | true =>
      rw [putBit, if_pos rfl, testBit_setBit]
      by_cases hki : k = i <;> simp [hki]
  | false =>
      rw [putBit, if_neg Bool.false_ne_true, testBit_clearBit hk]
      by_cases hki : k = i <;> simp [hki]

/-- The bit that is there is put. -/
theorem putBit_self (hw : w < 2 ^ 32) (hi : i < 32) : putBit w i (w.testBit i) = w := by
  apply eq_of_testBit_of_lt (putBit_lt hw hi) hw
  intro k hk
  rw [testBit_putBit hk]
  split_ifs with hki
  · rw [hki]
  · rfl

theorem putBit_putBit (hw : w < 2 ^ 32) (hi : i < 32) :
    putBit (putBit w i what) i other = putBit w i other := by
  apply eq_of_testBit_of_lt (putBit_lt (putBit_lt hw hi) hi) (putBit_lt hw hi)
  intro k hk
  simp only [testBit_putBit hk]
  split_ifs <;> rfl

theorem putBit_comm (hw : w < 2 ^ 32) (hi : i < 32) (hj : j < 32) (hne : i ≠ j) :
    putBit (putBit w i what) j other = putBit (putBit w j other) i what := by
  apply eq_of_testBit_of_lt (putBit_lt (putBit_lt hw hi) hj) (putBit_lt (putBit_lt hw hj) hi)
  intro k hk
  simp only [testBit_putBit hk]
  split_ifs with hkj hki
  · exact absurd (hki.symm.trans hkj) hne
  · rfl
  · rfl
  · rfl

end Put

end AviKernel
