import AviKernel.Libc.PrintfNumbers
import AviKernel.Library.Terminated

/-!
# Strings in a format

A string is looked at up to its terminator or up to the character behind its precision.
-/

namespace AviKernel.Printf

variable {object : List UInt8} {flags : Flags} {n : ℕ} {p : Specifier}

/-- A string of `n` characters at most is read within its object. -/
def Readable (object : List UInt8) (n : ℕ) : Prop := 0 ∈ object ∨ n < object.length

instance : Decidable (Readable object n) := inferInstanceAs (Decidable (_ ∨ _))

theorem readable_cons {c : UInt8} (hc : c ≠ 0) :
    Readable (c :: object) (n + 1) ↔ Readable object n := by
  rw [Readable, Readable, List.mem_cons, or_iff_right (Ne.symm hc), List.length_cons,
    Nat.succ_lt_succ_iff]

theorem readable_nul : Readable (0 :: object) n := Or.inl List.mem_cons_self

theorem readable_zero {c : UInt8} : Readable (c :: object) 0 := Or.inr (Nat.succ_pos _)

theorem strnlenS_eq (object : List UInt8) (n : ℕ) : strnlenS object n =
    if Readable object n then some (min (AviKernel.text 0 object).length n) else none := by
  induction object generalizing n with
  | nil => rfl
  | cons c object ih =>
      rw [strnlenS]
      by_cases hc : c = 0
      · subst hc
        rw [if_pos rfl, if_pos readable_nul, text_cons_self, List.length_nil, Nat.zero_min]
      · rw [if_neg hc]
        cases n with
        | zero =>
            rw [if_pos rfl, if_pos readable_zero, Nat.min_zero]
        | succ n =>
            rw [if_neg n.succ_ne_zero, Nat.add_sub_cancel, ih, text_cons_ne hc, List.length_cons]
            simp only [readable_cons hc]
            split_ifs
            · rw [Option.map_some, Nat.add_min_add_right]
            · rfl

theorem stringText_limited (hflag : flags.precision = true) (object : List UInt8) (n : ℕ) :
    stringText flags object n =
      if Readable object n then some ((AviKernel.text 0 object).take n) else none := by
  induction object generalizing n with
  | nil => rfl
  | cons c object ih =>
      rw [stringText, hflag]
      by_cases hc : c = 0
      · subst hc
        rw [if_pos rfl, if_pos readable_nul, text_cons_self, List.take_nil]
      · rw [if_neg hc, if_pos rfl]
        cases n with
        | zero => rw [if_pos rfl, if_pos readable_zero, List.take_zero]
        | succ n =>
            rw [if_neg n.succ_ne_zero, Nat.add_sub_cancel, ih, text_cons_ne hc,
              List.take_succ_cons]
            simp only [readable_cons hc]
            split_ifs <;> rfl

theorem stringText_unlimited (hflag : flags.precision = false) (object : List UInt8) (n : ℕ) :
    stringText flags object n =
      if 0 ∈ object then some (AviKernel.text 0 object) else none := by
  induction object with
  | nil => rfl
  | cons c object ih =>
      rw [stringText, hflag]
      by_cases hc : c = 0
      · subst hc
        rw [if_pos rfl, if_pos List.mem_cons_self, text_cons_self]
      · rw [if_neg hc, if_neg Bool.false_ne_true, ih, text_cons_ne hc]
        simp only [List.mem_cons, Ne.symm hc, false_or]
        split_ifs <;> rfl

/-- The characters of a string that a specifier shows. -/
def shown (p : Specifier) (object : List UInt8) : List UInt8 :=
  if p.flags.precision then (AviKernel.text 0 object).take p.precision
  else AviKernel.text 0 object

/-- The string has its terminator, or more characters than a precision other than zero. -/
def Enough (p : Specifier) (object : List UInt8) : Prop :=
  0 ∈ object ∨ p.flags.precision ∧ p.precision ≠ 0 ∧ p.precision < object.length

instance : Decidable (Enough p object) := inferInstanceAs (Decidable (_ ∨ _))

theorem length_text_le (object : List UInt8) :
    (AviKernel.text 0 object).length ≤ object.length :=
  (List.takeWhile_prefix _).length_le

/-- What a string specifier comes to, from what is read of the string. -/
theorem convertedString_of {va : List VaArg} {l : ℕ} {t : List UInt8}
    (hva : p.va = .text object :: va)
    (hl : strnlenS object (if p.precision ≠ 0 then p.precision else 2 ^ 32 - 1) = some l)
    (ht : stringText p.flags object p.precision = some t)
    (hlength : (if p.flags.precision then min l p.precision else l) = t.length) :
    convertedString p = some (va, fieldText p.flags.left (p.width - t.length) t) := by
  rw [convertedString, hva]
  simp only [vaText, Option.bind_eq_bind, Option.bind_some, hl, ht, hlength]

theorem convertedString_none {va : List VaArg} (hva : p.va = .text object :: va)
    (hl : strnlenS object (if p.precision ≠ 0 then p.precision else 2 ^ 32 - 1) = none) :
    convertedString p = none := by
  rw [convertedString, hva]
  simp only [vaText, Option.bind_eq_bind, Option.bind_some, hl, Option.bind_none]

theorem readable_end (hlt : object.length < 2 ^ 32) :
    Readable object (2 ^ 32 - 1) ↔ 0 ∈ object := by
  rw [Readable, or_iff_left (by omega)]

theorem convertedString_eq {va : List VaArg} (hva : p.va = .text object :: va)
    (hlt : object.length < 2 ^ 32) (hno : p.flags.precision = false → p.precision = 0) :
    convertedString p = if Enough p object then
      some (va, fieldText p.flags.left (p.width - (shown p object).length) (shown p object))
    else none := by
  have htext := length_text_le object
  by_cases hzero : p.precision = 0
  · have henough : Enough p object ↔ Readable object (2 ^ 32 - 1) := by
      rw [readable_end hlt, Enough, hzero]
      simp
    have hmax : (if p.precision ≠ 0 then p.precision else 2 ^ 32 - 1) = 2 ^ 32 - 1 :=
      if_neg (not_not.mpr hzero)
    have hl := strnlenS_eq object (2 ^ 32 - 1)
    rw [← hmax] at hl
    simp only [henough]
    by_cases hread : Readable object (2 ^ 32 - 1)
    · have hend := (readable_end hlt).mp hread
      rw [hmax, if_pos hread, ← hmax] at hl
      rw [if_pos hread]
      have hread' : Readable object 0 := Or.inl hend
      have hmin : min (AviKernel.text 0 object).length (2 ^ 32 - 1) =
          (AviKernel.text 0 object).length := min_eq_left (by omega)
      rw [hmax, hmin, ← hmax] at hl
      refine convertedString_of hva hl ?_ ?_
      · rw [shown, hzero]
        cases hflag : p.flags.precision with
        | true => rw [stringText_limited hflag, if_pos hread', if_pos rfl]
        | false => rw [stringText_unlimited hflag, if_pos hend, if_neg Bool.false_ne_true]
      · rw [shown, hzero]
        by_cases hflag : p.flags.precision
        · rw [if_pos hflag, if_pos hflag, List.take_zero, Nat.min_zero]
          rfl
        · rw [if_neg hflag, if_neg hflag]
    · rw [hmax, if_neg hread, ← hmax] at hl
      rw [if_neg hread]
      exact convertedString_none hva hl
  · have hflag : p.flags.precision = true := by
      by_contra hflag
      exact hzero (hno (Bool.eq_false_iff.mpr hflag))
    have henough : Enough p object ↔ Readable object p.precision := by
      rw [Enough, Readable, hflag]
      simp [hzero]
    have hl := strnlenS_eq object p.precision
    have hmax : (if p.precision ≠ 0 then p.precision else 2 ^ 32 - 1) = p.precision :=
      if_pos hzero
    have hshown : shown p object = (AviKernel.text 0 object).take p.precision := if_pos hflag
    simp only [henough]
    by_cases hread : Readable object p.precision
    · rw [if_pos hread] at hl
      rw [if_pos hread, hshown]
      refine convertedString_of hva (by rw [hmax]; exact hl) ?_ ?_
      · rw [stringText_limited hflag, if_pos hread]
      · rw [if_pos hflag, List.length_take]
        omega
    · rw [if_neg hread] at hl
      rw [if_neg hread]
      exact convertedString_none hva (by rw [hmax]; exact hl)

/-- A string specifier shows the characters before the terminator, at most as many as its
precision, in a field of its width.  It reads beyond the string where this has no terminator
and no more characters than the precision, and with a precision of zero, too. -/
theorem string_specifier {f : List UInt8} {va va' : List VaArg} (floats : FloatTexts)
    (hp : evaluate f va = some p) (hc : p.format.head? = some 's'.toUInt8)
    (hva : p.va = .text object :: va') (hlt : object.length < 2 ^ 32) (σ : Type) (out : OutFct σ)
    (buffer maxlen : ℕ) (s : Cursor σ) (hs : s.idx < 2 ^ 32) :
    evaluateSpecifier floats out buffer maxlen p s = if Enough p object then
        some (p.format.tail, va', s.putAll (sink out buffer maxlen)
          (fieldText p.flags.left (p.width - (shown p object).length) (shown p object)))
      else none := by
  have hconversion : conversionText floats 's'.toUInt8 p = convertedString p := rfl
  rw [evaluateSpecifier_eq p hs, hc, Option.bind_some, hconversion,
    convertedString_eq hva hlt (precision_of_evaluate hp)]
  split_ifs <;> rfl

/-- `%.3s` and a string of three characters without a terminator. -/
theorem string_specifier_unterminated : evaluateSpecifier
    ⟨fun _ _ _ _ => [], fun _ _ _ _ => []⟩ (fun c _ _ _ l => l ++ [c]) 1 0
    ⟨{ precision := true }, 0, 3, [0x73, 0], [.text [0x61, 0x62, 0x63]]⟩
    (⟨[], 0⟩ : Cursor (List UInt8)) = none := by
  have hp : evaluate [0x2E, 0x33, 0x73, 0] [.text [0x61, 0x62, 0x63]] =
    some ⟨{ precision := true }, 0, 3, [0x73, 0], [.text [0x61, 0x62, 0x63]]⟩ := rfl
  exact (string_specifier _ hp rfl rfl (by decide) _ _ _ _ _ (by decide)).trans
    (if_neg (by decide))

end AviKernel.Printf
