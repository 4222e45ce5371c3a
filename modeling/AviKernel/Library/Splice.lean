import Mathlib.Tactic

/-!
# Splices

An image is a function of the position.  A splice replaces the entries of an
interval by those of another image.
-/

namespace AviKernel

variable {α : Type*} {f g t : ℕ → α} {start count period k m n i p x y z : ℕ}

/-- The entries from `start` on, `count` in number, come from `g`. -/
def splice (f : ℕ → α) (start count : ℕ) (g : ℕ → α) : ℕ → α :=
  fun i => if start ≤ i ∧ i < start + count then g (i - start) else f i

theorem splice_of_mem (hle : start ≤ i) (hlt : i < start + count) :
    splice f start count g i = g (i - start) := if_pos ⟨hle, hlt⟩

theorem splice_of_lt (h : i < start) : splice f start count g i = f i :=
  if_neg fun hmem => absurd hmem.1 (not_le.mpr h)

theorem splice_of_ge (h : start + count ≤ i) : splice f start count g i = f i :=
  if_neg fun hmem => absurd hmem.2 (not_lt.mpr h)

theorem splice_add (hi : i < count) : splice f start count g (start + i) = g i := by
  rw [splice_of_mem (Nat.le_add_right start i) (Nat.add_lt_add_left hi start),
    Nat.add_sub_cancel_left]

theorem splice_zero : splice f start 0 g = f := by
  funext i
  exact if_neg fun hmem => absurd hmem.2 (not_lt.mpr (by simpa using hmem.1))

/-- Two splices of an interval differ only in the interval. -/
theorem splice_eq_iff : splice f start count g = f ↔ ∀ i < count, f (start + i) = g i := by
  constructor
  · intro h i hi
    have hin : splice f start count g (start + i) = g i := splice_add hi
    rw [← hin, h]
  · intro h
    funext i
    by_cases hmem : start ≤ i ∧ i < start + count
    · have hold := h (i - start) (by omega)
      rw [splice_of_mem hmem.1 hmem.2, ← hold, Nat.add_sub_cancel' hmem.1]
    · exact if_neg hmem

/-- Reading a window, changing a part of it and writing it back changes that
part. -/
theorem splice_window (h : p + m ≤ n) :
    splice f start n (splice (splice t 0 n fun i => f (start + i)) p m g) =
      splice f (start + p) m g := by
  funext i
  by_cases hwindow : start ≤ i ∧ i < start + n
  · rw [splice_of_mem hwindow.1 hwindow.2]
    by_cases hpart : p ≤ i - start ∧ i - start < p + m
    · rw [splice_of_mem hpart.1 hpart.2, splice_of_mem (by omega) (by omega), Nat.sub_sub]
    · have hout : splice (splice t 0 n fun i => f (start + i)) p m g (i - start) =
          splice t 0 n (fun i => f (start + i)) (i - start) := if_neg hpart
      have hin : i - start < n := by omega
      have hfar : splice f (start + p) m g i = f i := if_neg (by omega)
      rw [hout, hfar, splice_of_mem (Nat.zero_le _) (by rwa [Nat.zero_add]), Nat.sub_zero,
        Nat.add_sub_cancel' hwindow.1]
  · have hout : splice f start n (splice (splice t 0 n fun i => f (start + i)) p m g) i = f i :=
      if_neg hwindow
    have hfar : splice f (start + p) m g i = f i := if_neg (by omega)
    rw [hout, hfar]

/-- The first, the last and then the middle part of an interval. -/
theorem splice_parts (hx : start ≤ x) (hy : x ≤ y) (hz : y ≤ z) :
    splice (splice (splice f start (x - start) g) y (z - y) fun i => g (y - start + i)) x (y - x)
        (fun i => g (x - start + i)) = splice f start (z - start) g := by
  funext i
  by_cases hbefore : i < start
  · rw [splice_of_lt (by omega), splice_of_lt (by omega), splice_of_lt hbefore,
      splice_of_lt hbefore]
  · by_cases hfirst : i < x
    · rw [splice_of_lt hfirst, splice_of_lt (by omega), splice_of_mem (by omega) (by omega),
        splice_of_mem (by omega) (by omega)]
    · by_cases hmiddle : i < y
      · rw [splice_of_mem (by omega) (by omega), splice_of_mem (by omega) (by omega)]
        congr 1
        omega
      · by_cases hlast : i < z
        · rw [splice_of_ge (by omega), splice_of_mem (by omega) (by omega),
            splice_of_mem (by omega) (by omega)]
          congr 1
          omega
        · rw [splice_of_ge (by omega), splice_of_ge (by omega), splice_of_ge (by omega),
            splice_of_ge (by omega)]

/-- The first `period` entries of `g`, `k` times in a row. -/
def tile (f : ℕ → α) (start period : ℕ) (g : ℕ → α) : ℕ → ℕ → α
  | 0 => f
  | k + 1 => tile (splice f start period g) (start + period) period g k

theorem tile_of_lt (h : i < start) : tile f start period g k i = f i := by
  induction k generalizing f start with
  | zero => rfl
  | succ k ih => rw [tile, ih (by omega), splice_of_lt h]

theorem tile_of_ge (h : start + period * k ≤ i) : tile f start period g k i = f i := by
  induction k generalizing f start with
  | zero => rfl
  | succ k ih =>
      rw [Nat.mul_succ] at h
      rw [tile, ih (by omega), splice_of_ge (by omega)]

theorem tile_of_mem (h : i < period * k) : tile f start period g k (start + i) = g (i % period) := by
  induction k generalizing f start i with
  | zero => exact absurd h (Nat.not_lt_zero i)
  | succ k ih =>
      rw [Nat.mul_succ] at h
      rw [tile]
      by_cases hi : i < period
      · rw [tile_of_lt (by omega), splice_add hi, Nat.mod_eq_of_lt hi]
      · obtain ⟨j, rfl⟩ := Nat.exists_eq_add_of_le (not_lt.mp hi)
        rw [← Nat.add_assoc, ih (by omega), Nat.add_mod_left]

/-- Repeating the first period instead of going on is right exactly when the
entries repeat, and those after the last period are there already. -/
theorem tile_eq_splice_iff (h : period * k ≤ n) : tile f start period g k = splice f start n g ↔
    (∀ i < period * k, g (i % period) = g i) ∧
      ∀ i, period * k ≤ i → i < n → f (start + i) = g i := by
  constructor
  · intro heq
    constructor
    · intro i hi
      have htile : tile f start period g k (start + i) = g (i % period) := tile_of_mem hi
      rw [← htile, heq, splice_add (by omega)]
    · intro i hle hi
      have htile : tile f start period g k (start + i) = f (start + i) := tile_of_ge (by omega)
      rw [← htile, heq, splice_add hi]
  · rintro ⟨hrepeat, hrest⟩
    funext i
    by_cases hbefore : i < start
    · rw [tile_of_lt hbefore, splice_of_lt hbefore]
    · obtain ⟨j, rfl⟩ := Nat.exists_eq_add_of_le (not_lt.mp hbefore)
      by_cases hlt : j < period * k
      · rw [tile_of_mem hlt, hrepeat j hlt, splice_add (by omega)]
      · rw [tile_of_ge (by omega)]
        by_cases hin : j < n
        · rw [splice_add hin, hrest j (not_lt.mp hlt) hin]
        · rw [splice_of_ge (by omega)]

/-- An interval in two parts. -/
theorem splice_append :
    splice (splice f start m g) (start + m) k (fun i => g (m + i)) = splice f start (m + k) g := by
  funext i
  by_cases hbefore : i < start
  · rw [splice_of_lt (by omega), splice_of_lt hbefore, splice_of_lt hbefore]
  · by_cases hfirst : i < start + m
    · rw [splice_of_lt hfirst, splice_of_mem (by omega) hfirst,
        splice_of_mem (by omega) (by omega)]
    · by_cases hsecond : i < start + m + k
      · rw [splice_of_mem (by omega) hsecond, splice_of_mem (by omega) (by omega)]
        congr 1
        omega
      · rw [splice_of_ge (by omega), splice_of_ge (by omega), splice_of_ge (by omega)]

theorem splice_congr (h : ∀ i < count, f i = g i) :
    splice t start count f = splice t start count g := by
  funext i
  by_cases hmem : start ≤ i ∧ i < start + count
  · rw [splice_of_mem hmem.1 hmem.2, splice_of_mem hmem.1 hmem.2, h (i - start) (by omega)]
  · exact (if_neg hmem).trans (if_neg hmem).symm

end AviKernel
