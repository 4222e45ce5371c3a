import AviKernel.Libc.StringReads

/-!
# Which positions of a string are read

The guards of `at` and `substr` compare words that wrap: the length less one, and the sum
of a position and a length.
-/

namespace AviKernel.Libc.String

/-- The position of the reference that `at` and `operator[]` return; none if they panic. -/
def atPosition (s : String) (pos : ℕ) : Option ℕ := if pos > sub32 s.size 1 then none else some pos

/-- The position of the reference that `back` returns. -/
def backPosition (s : String) : ℕ := sub32 s.size 1

/-- The positions that `substr` copies; none if it panics. -/
def substrPositions (s : String) (pos len : ℕ) : Option (List ℕ) :=
  if pos = s.size then some []
  else if pos > s.size then none
  else
    let len := if len = npos then sub32 s.size pos
      else if add32 len pos > s.size then sub32 s.size pos
      else len
    some ((List.range len).map (pos + ·))

variable {fresh : ℕ → UInt8} {s : String} {l : List UInt8} {c : UInt8} {base pos len : ℕ}

theorem getAt_eq : s.getAt pos = (s.atPosition pos).bind fun i => s.actualString[i]? := by
  unfold getAt atPosition
  split_ifs <;> rfl

theorem setAt_eq : s.setAt pos c = (s.atPosition pos).bind fun i =>
    (setByte s.actualString i c).map fun b => { s with actualString := b } := by
  unfold setAt atPosition
  split_ifs <;> rfl

theorem back_eq : s.back = s.actualString[s.backPosition]? := rfl

theorem substr_eq : s.substr fresh pos len = (s.substrPositions pos len).bind fun is =>
    if pos = s.size then initializeFromCString fresh [0]
    else ofPointer fresh (s.cStr.drop pos) is.length := by
  unfold substr substrPositions
  by_cases hend : pos = s.size
  · rw [if_pos hend, if_pos hend, Option.bind_some, if_pos hend]
  · rw [if_neg hend, if_neg hend]
    by_cases hout : pos > s.size
    · rw [if_pos hout, if_pos hout]
      rfl
    · rw [if_neg hout, if_neg hout]
      dsimp only
      rw [Option.bind_some, if_neg hend, List.length_map, List.length_range]

/-! ## The guards -/

/-- The last position wraps where there is none. -/
theorem at_iff (hsize : s.size < 2 ^ 32) (hpos : pos < 2 ^ 32) :
    ((s.atPosition pos = none ↔ s.size ≤ pos) ∧ ∀ i ∈ s.atPosition pos, i < s.size) ↔
      s.size ≠ 0 := by
  unfold atPosition
  constructor
  · rintro ⟨hpanics, -⟩ hzero
    have hlast : sub32 s.size 1 = 2 ^ 32 - 1 := by
      rw [hzero]
      rfl
    rw [hlast, if_neg (by omega)] at hpanics
    exact nomatch hpanics.mpr (by omega)
  · intro hne
    rw [sub32_of_le hsize (Nat.one_le_iff_ne_zero.mpr hne)]
    split_ifs with hout
    · exact ⟨iff_of_true rfl (by omega), fun i hi => nomatch hi⟩
    · refine ⟨iff_of_false (by simp) (by omega), fun i hi => ?_⟩
      obtain rfl : pos = i := Option.some.inj hi
      omega

theorem back_iff (hbase : 0 < base) (hend : base + s.size ≤ 2 ^ 32) :
    base ≤ add32 base s.backPosition ↔ s.size ≠ 0 := by
  unfold backPosition add32 sub32
  omega

theorem substr_panics_iff : s.substrPositions pos len = none ↔ s.size < pos := by
  unfold substrPositions
  split_ifs with hend hout
  · exact iff_of_false (by simp) (by omega)
  · exact iff_of_true rfl hout
  · exact iff_of_false (by simp) (by omega)

/-- The end that is asked for is compared with the length unless the sum wraps. -/
theorem substr_iff (hsize : s.size < 2 ^ 32) (hlen : len ≤ npos) :
    (∀ is ∈ s.substrPositions pos len, ∀ i ∈ is, i < s.size) ↔
      s.size ≤ pos ∨ len = npos ∨ pos + len < 2 ^ 32 := by
  have hnpos : npos = 2 ^ 32 - 1 := rfl
  unfold substrPositions
  by_cases hin : s.size ≤ pos
  · refine iff_of_true (fun is his i hi => ?_) (Or.inl hin)
    by_cases heq : pos = s.size
    · rw [if_pos heq] at his
      obtain rfl : [] = is := Option.some.inj his
      exact absurd hi List.not_mem_nil
    · rw [if_neg heq, if_pos (by omega)] at his
      cases his
  · rw [if_neg (by omega), if_neg (by omega)]
    have hsub : sub32 s.size pos = s.size - pos := sub32_of_le hsize (by omega)
    have hmod : add32 len pos = (len + pos) % 2 ^ 32 := rfl
    rw [hsub]
    constructor
    · intro hall
      by_contra hwraps
      have hcut : (if len = npos then s.size - pos
          else if add32 len pos > s.size then s.size - pos else len) = len := by
        rw [if_neg (by omega), if_neg (by omega)]
      have hlast : pos + (len - 1) ∈ (List.range len).map (pos + ·) :=
        List.mem_map.mpr ⟨len - 1, List.mem_range.mpr (by omega), rfl⟩
      rw [hcut] at hall
      have hlt := hall _ rfl _ hlast
      omega
    · intro hcond is his i hi
      obtain rfl := Option.some.inj his
      obtain ⟨k, hk, rfl⟩ := List.mem_map.mp hi
      have hk := List.mem_range.mp hk
      split_ifs at hk <;> omega

/-! ## All of them -/

/-- The reads of a string that spells `l`, in a buffer at the address `base`. -/
structure ReadsInBounds (fresh : ℕ → UInt8) (s : String) (l : List UInt8) (base pos len : ℕ) :
    Prop where
  at_panics : s.atPosition pos = none ↔ s.size ≤ pos
  at_lt : ∀ i ∈ s.atPosition pos, i < s.size
  le_back : base ≤ add32 base s.backPosition
  substr_panics : s.substrPositions pos len = none ↔ s.size < pos
  substr_lt : ∀ is ∈ s.substrPositions pos len, ∀ i ∈ is, i < s.size
  substr_text : pos ≤ s.size → ∃ t, s.substr fresh pos len = some t ∧
    t.Refines ((l.drop pos).take len) ∧ t.size = min len (s.size - pos)

/-- At the end of the string nothing is copied, however much is asked for. -/
theorem substr_size (fresh : ℕ → UInt8) (s : String) (len : ℕ) :
    ∃ t, s.substr fresh s.size len = some t ∧ t.Refines [] := by
  have hempty : Spells 0 [0] ([] : List UInt8) := spells_append List.not_mem_nil
  rw [substr, if_pos rfl]
  exact initializeFromCString_refines fresh hempty (by decide)

theorem substr_text (h : s.Refines l) (hfit : l.length + 1 < 2 ^ 32) (hle : pos ≤ s.size)
    (hcond : s.size ≤ pos ∨ len = npos ∨ pos + len < 2 ^ 32) :
    ∃ t, s.substr fresh pos len = some t ∧ t.Refines ((l.drop pos).take len) := by
  rcases hcond with hend | hlen
  · have heq : pos = s.size := le_antisymm hle hend
    have hnil : (l.drop pos).take len = [] := by
      rw [heq, h.size_eq, List.drop_length, List.take_nil]
    rw [hnil, heq]
    exact substr_size fresh s len
  · rw [h.size_eq] at hle
    exact substr_refines h hfit hle hlen

/-- The string is not empty, and where characters are asked for the end does not wrap. -/
theorem readsInBounds_iff (h : s.Refines l) (hbase : 4 ≤ base)
    (hend : base + s.actualString.length ≤ 2 ^ 32) (hpos : pos < 2 ^ 32) (hlen : len < 2 ^ 32) :
    ReadsInBounds fresh s l base pos len ↔
      s.size ≠ 0 ∧ (s.size ≤ pos ∨ len = npos ∨ pos + len < 2 ^ 32) := by
  have hroom := h.room
  have hsize : s.size < 2 ^ 32 := by omega
  have hnpos : len ≤ npos := Nat.le_pred_of_lt hlen
  constructor
  · intro hin
    exact ⟨(at_iff hsize hpos).mp ⟨hin.at_panics, hin.at_lt⟩,
      (substr_iff hsize hnpos).mp hin.substr_lt⟩
  · rintro ⟨hne, hcond⟩
    obtain ⟨hpanics, hlt⟩ := (at_iff hsize hpos).mpr hne
    refine ⟨hpanics, hlt, (back_iff (by omega) (by omega)).mpr hne, substr_panics_iff,
      (substr_iff hsize hnpos).mpr hcond, fun hle => ?_⟩
    obtain ⟨t, ht, href⟩ := @substr_text fresh s l pos len h (by rw [← h.size_eq]; omega) hle hcond
    refine ⟨t, ht, href, ?_⟩
    rw [href.size_eq, List.length_take, List.length_drop, h.size_eq]

/-- The text `abc`, from its second character on. -/
theorem readsInBounds_iff_abc :
    ReadsInBounds (fun _ => 0) ⟨[97, 98, 99, 0], 3⟩ [97, 98, 99] 4096 1 npos ↔
      (⟨[97, 98, 99, 0], 3⟩ : String).size ≠ 0 ∧
        ((⟨[97, 98, 99, 0], 3⟩ : String).size ≤ 1 ∨ npos = npos ∨ 1 + npos < 2 ^ 32) :=
  readsInBounds_iff ⟨by decide, rfl, rfl⟩ (by decide) (by decide) (by decide) (by decide)

/-- The empty string has no first character, and is not found to have none. -/
theorem not_readsInBounds : ¬ ∀ (fresh : ℕ → UInt8) (s : String) (l : List UInt8)
    (base pos len : ℕ), s.Refines l → 4 ≤ base → base + s.actualString.length ≤ 2 ^ 32 →
      pos < 2 ^ 32 → len < 2 ^ 32 → ReadsInBounds fresh s l base pos len := by
  intro h
  have hin := h (fun _ => 0) ⟨[0], 0⟩ [] 4096 0 0 ⟨by decide, rfl, rfl⟩ (by decide) (by decide)
    (by decide) (by decide)
  exact nomatch hin.at_panics.mpr (Nat.zero_le 0)

end AviKernel.Libc.String
