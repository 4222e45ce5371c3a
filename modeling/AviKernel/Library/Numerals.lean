import Mathlib.Data.Nat.Digits.Lemmas
import Mathlib.Tactic

/-!
# Numerals

Natural numbers as texts, the most significant digit first.  The digits of the bases up to
36 are `0` to `9` and the letters from `a` on.
-/

namespace AviKernel

variable {base n d : ℕ} {ds : List ℕ}

def digitByte (d : ℕ) : UInt8 := if d < 10 then UInt8.ofNat (48 + d) else UInt8.ofNat (87 + d)

/-- The digit that a byte stands for. -/
def byteDigit (c : UInt8) : Option ℕ :=
  if 48 ≤ c ∧ c ≤ 57 then some (c.toNat - 48)
  else if 97 ≤ c ∧ c ≤ 122 then some (c.toNat - 87)
  else none

/-- The number before and the next digit. -/
def readDigit (base n : ℕ) (c : UInt8) : Option ℕ := do
  let d ← byteDigit c
  if d < base then some (base * n + d) else none

def readDigits (base : ℕ) (l : List UInt8) : Option ℕ := l.foldlM (readDigit base) 0

def minusByte : UInt8 := 45

/-- A decimal number that may have a sign. -/
def readDecimal : List UInt8 → Option ℤ
  | [] => none
  | c :: l =>
      if c = minusByte then (readDigits 10 l).map fun n : ℕ => -(n : ℤ)
      else (readDigits 10 (c :: l)).map fun n : ℕ => (n : ℤ)

/-- The digits from the least significant on; zero has one digit, too. -/
def lowDigits (base n : ℕ) : List ℕ := if n = 0 then [0] else base.digits n

def numeral (base n : ℕ) : List UInt8 := ((lowDigits base n).map digitByte).reverse

/-! ## Digits -/

theorem byteDigit_digitByte (hd : d < 36) : byteDigit (digitByte d) = some d := by
  revert d
  decide

theorem digitByte_eq_iff (hd : d < 36) : digitByte d = digitByte 0 ↔ d = 0 := by
  constructor
  · intro heq
    have hread : some d = some 0 :=
      (byteDigit_digitByte hd).symm.trans ((congrArg byteDigit heq).trans rfl)
    exact Option.some.inj hread
  · rintro rfl
    rfl

theorem digitByte_ne {c : UInt8} (hd : d < 36) (hc : byteDigit c = none) : digitByte d ≠ c := by
  rintro rfl
  rw [byteDigit_digitByte hd] at hc
  cases hc

theorem lowDigits_eq (hbase : 1 < base) (n : ℕ) : lowDigits base n =
    n % base :: if n / base = 0 then [] else lowDigits base (n / base) := by
  by_cases hn : n = 0
  · subst hn
    rw [lowDigits, if_pos rfl, Nat.zero_mod, Nat.zero_div, if_pos rfl]
  · rw [lowDigits, if_neg hn, Nat.digits_def' hbase (Nat.pos_of_ne_zero hn)]
    by_cases hmore : n / base = 0
    · rw [if_pos hmore, hmore, Nat.digits_zero]
    · rw [if_neg hmore, lowDigits, if_neg hmore]

theorem lowDigits_ne_nil (base n : ℕ) : lowDigits base n ≠ [] := by
  unfold lowDigits
  split_ifs with hn
  · exact List.cons_ne_nil _ _
  · exact Nat.digits_ne_nil_iff_ne_zero.mpr hn

theorem lowDigits_lt (hbase : 1 < base) (hd : d ∈ lowDigits base n) : d < base := by
  unfold lowDigits at hd
  split_ifs at hd with hn
  · rw [List.mem_singleton.mp hd]
    omega
  · exact Nat.digits_lt_base hbase hd

theorem ofDigits_lowDigits (base n : ℕ) : Nat.ofDigits base (lowDigits base n) = n := by
  unfold lowDigits
  split_ifs with hn
  · rw [hn, Nat.ofDigits_singleton]
  · exact Nat.ofDigits_digits base n

/-! ## Numerals -/

theorem readDigits_reverse (hbase : base ≤ 36) (hlt : ∀ d ∈ ds, d < base) :
    readDigits base (ds.map digitByte).reverse = some (Nat.ofDigits base ds) := by
  induction ds with
  | nil => rfl
  | cons d ds ih =>
      obtain ⟨hd, hrest⟩ := List.forall_mem_cons.mp hlt
      have hread : readDigit base (Nat.ofDigits base ds) (digitByte d) =
          some (base * Nat.ofDigits base ds + d) := by
        rw [readDigit, byteDigit_digitByte (by omega)]
        exact if_pos hd
      rw [List.map_cons, List.reverse_cons, readDigits, List.foldlM_append]
      have hbefore := ih hrest
      rw [readDigits] at hbefore
      rw [hbefore, Nat.ofDigits_cons, Nat.add_comm]
      exact (bind_pure _).trans hread

theorem readDigits_numeral (hbase : 1 < base) (hbase' : base ≤ 36) (n : ℕ) :
    readDigits base (numeral base n) = some n := by
  rw [numeral, readDigits_reverse hbase' fun d hd => lowDigits_lt hbase hd, ofDigits_lowDigits]

theorem numeral_ne_nil (base n : ℕ) : numeral base n ≠ [] := by
  rw [numeral, ne_eq, List.reverse_eq_nil_iff, List.map_eq_nil_iff]
  exact lowDigits_ne_nil base n

theorem notMem_numeral {c : UInt8} (hbase : 1 < base) (hbase' : base ≤ 36)
    (hc : byteDigit c = none) (n : ℕ) : c ∉ numeral base n := by
  rw [numeral, List.mem_reverse]
  intro hmem
  obtain ⟨d, hd, heq⟩ := List.mem_map.mp hmem
  have hlt := lowDigits_lt hbase hd
  exact digitByte_ne (by omega) hc heq

/-- Only the numeral of zero begins with a zero. -/
theorem head?_numeral (hbase : 1 < base) (hbase' : base ≤ 36) (n : ℕ) :
    (numeral base n).head? = some (digitByte 0) ↔ n = 0 := by
  constructor
  · intro hhead
    by_contra hn
    have hlow : lowDigits base n = base.digits n := if_neg hn
    have hne : base.digits n ≠ [] := Nat.digits_ne_nil_iff_ne_zero.mpr hn
    have hlast := Nat.getLast_digit_ne_zero base hn
    rw [numeral, hlow, List.head?_reverse, List.getLast?_map, List.getLast?_eq_some_getLast hne,
      Option.map_some, Option.some.injEq] at hhead
    have hlt := Nat.digits_lt_base hbase (List.getLast_mem hne)
    exact hlast ((digitByte_eq_iff (by omega)).mp hhead)
  · rintro rfl
    rfl

theorem readDecimal_numeral (n : ℕ) : readDecimal (numeral 10 n) = some (n : ℤ) := by
  have hread : readDigits 10 (numeral 10 n) = some n :=
    readDigits_numeral (by decide) (by decide) n
  cases hl : numeral 10 n with
  | nil => exact absurd hl (numeral_ne_nil 10 n)
  | cons c l =>
      have hc : c ≠ minusByte := by
        rintro rfl
        have hnot : minusByte ∉ numeral 10 n :=
          notMem_numeral (by decide) (by decide) (by decide) n
        rw [hl] at hnot
        exact hnot List.mem_cons_self
      rw [readDecimal, if_neg hc, ← hl, hread, Option.map_some]

theorem readDecimal_minus (n : ℕ) :
    readDecimal (minusByte :: numeral 10 n) = some (-(n : ℤ)) := by
  rw [readDecimal, if_pos rfl, readDigits_numeral (by decide) (by decide), Option.map_some]

end AviKernel
