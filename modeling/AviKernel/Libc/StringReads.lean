import AviKernel.Libc.String

/-!
# What is read of a string

A position is compared with the length by `at` and not by `back`.  Strings are compared
by their buffers.
-/

namespace AviKernel.Libc

/-- The macro of `cctype.h`. -/
def isspace (c : UInt8) : Bool :=
  c = 32 || c = 10 || c = 9 || c = 11 || c = 12 || c = 13

def strcmp : List UInt8 → List UInt8 → Option ℤ
  | c :: s₁, d :: s₂ => if c ≠ 0 ∧ c = d then strcmp s₁ s₂ else some (c.toNat - d.toNat)
  | _, _ => none

theorem strcmp_append {l r t u : List UInt8} (hl : 0 ∉ l) (hr : 0 ∉ r) :
    ∃ d, strcmp (l ++ 0 :: t) (r ++ 0 :: u) = some d ∧ (d = 0 ↔ l = r) := by
  induction l generalizing r with
  | nil =>
      cases r with
      | nil => exact ⟨0, rfl, by simp⟩
      | cons d r =>
          have hd : 0 ≠ d := List.ne_of_not_mem_cons hr
          have hne : (0 : UInt8).toNat ≠ d.toNat := fun h => hd (UInt8.toNat_inj.mp h)
          rw [List.nil_append, List.cons_append, strcmp, if_neg fun h => h.1 rfl]
          exact ⟨_, rfl, iff_of_false (by omega) (by simp)⟩
  | cons c l ih =>
      have hc : 0 ≠ c := List.ne_of_not_mem_cons hl
      cases r with
      | nil =>
          have hne : (0 : UInt8).toNat ≠ c.toNat := fun h => hc (UInt8.toNat_inj.mp h)
          rw [List.nil_append, List.cons_append, strcmp, if_neg fun h => h.1 h.2]
          exact ⟨_, rfl, iff_of_false (by omega) (by simp)⟩
      | cons d r =>
          rw [List.cons_append, List.cons_append, strcmp]
          by_cases heq : c = d
          · subst heq
            rw [if_pos ⟨hc.symm, rfl⟩]
            obtain ⟨x, hx, hzero⟩ :=
              ih (List.not_mem_of_not_mem_cons hl) (List.not_mem_of_not_mem_cons hr)
            exact ⟨x, hx, hzero.trans (by simp)⟩
          · have hne : c.toNat ≠ d.toNat := fun h => heq (UInt8.toNat_inj.mp h)
            rw [if_neg fun h => heq h.2]
            exact ⟨_, rfl, iff_of_false (by omega) fun h => heq (List.cons.inj h).1⟩

/-- Buffers compare equal exactly if they spell the same text. -/
theorem strcmp_of_spells {b b' l r : List UInt8} (hl : Spells 0 b l) (hr : Spells 0 b' r) :
    ∃ d, strcmp b b' = some d ∧ (d = 0 ↔ l = r) := by
  obtain ⟨t, rfl⟩ := hl.eq
  obtain ⟨u, rfl⟩ := hr.eq
  exact strcmp_append hl.notMem hr.notMem

namespace String

def empty (s : String) : Bool := s.size = 0

def getAt (s : String) (pos : ℕ) : Option UInt8 :=
  if pos > sub32 s.size 1 then none else s.actualString[pos]?

def back (s : String) : Option UInt8 := s.actualString[sub32 s.size 1]?

/-- The loop of `empty_or_whitespaces`, with the characters still to do. -/
def whitespacesFrom (s : String) : ℕ → Option Bool
  | 0 => some true
  | todo + 1 => do
      let c ← s.getAt (s.size - (todo + 1))
      if isspace c then s.whitespacesFrom todo else some false

def emptyOrWhitespaces (s : String) : Option Bool :=
  if s.empty then some true else s.whitespacesFrom s.size

/-- The operator `==`. -/
def equals (lhs rhs : String) : Option Bool := (strcmp lhs.cStr rhs.cStr).map fun d => d = 0

variable {s t : String} {l r : List UInt8} {pos todo : ℕ}

theorem Refines.getElem? (h : s.Refines l) (hpos : pos < l.length) :
    s.actualString[pos]? = l[pos]? := by
  obtain ⟨rest, hrest⟩ := h.spells.eq
  have hbuffer : s.actualString = l ++ 0 :: rest := hrest
  rw [hbuffer, List.getElem?_append_left hpos]

theorem getAt_refines (h : s.Refines l) (hfit : l.length < 2 ^ 32) (hpos : pos < l.length) :
    s.getAt pos = l[pos]? := by
  have hlast : sub32 s.size 1 = l.length - 1 := by
    rw [h.size_eq]
    exact sub32_of_le hfit (by omega)
  rw [getAt, hlast, if_neg (by omega), h.getElem? hpos]

theorem back_refines (h : s.Refines l) (hfit : l.length < 2 ^ 32) (hne : l ≠ []) :
    s.back = l.getLast? := by
  have hpos : 0 < l.length := List.length_pos_of_ne_nil hne
  have hlast : sub32 s.size 1 = l.length - 1 := by
    rw [h.size_eq]
    exact sub32_of_le hfit hpos
  rw [back, hlast, h.getElem? (by omega), List.getLast?_eq_getElem?]

theorem whitespacesFrom_refines (h : s.Refines l) (hfit : l.length < 2 ^ 32)
    (htodo : todo ≤ l.length) :
    s.whitespacesFrom todo = some ((l.drop (l.length - todo)).all isspace) := by
  induction todo with
  | zero =>
      rw [Nat.sub_zero, List.drop_length]
      rfl
  | succ todo ih =>
      have hlt : l.length - (todo + 1) < l.length := by omega
      have hnext : l.length - (todo + 1) + 1 = l.length - todo := by omega
      rw [whitespacesFrom, h.size_eq, getAt_refines h hfit hlt, List.getElem?_eq_getElem hlt,
        List.drop_eq_getElem_cons hlt, hnext, List.all_cons, ih (by omega)]
      cases hspace : isspace l[l.length - (todo + 1)] with
      | true => simp [hspace]
      | false => simp [hspace]

theorem emptyOrWhitespaces_refines (h : s.Refines l) (hfit : l.length < 2 ^ 32) :
    s.emptyOrWhitespaces = some (l.all isspace) := by
  rw [emptyOrWhitespaces, empty, h.size_eq, whitespacesFrom_refines h hfit le_rfl, Nat.sub_self,
    List.drop_zero]
  cases l with
  | nil => rfl
  | cons c l => rfl

theorem equals_refines (hs : s.Refines l) (ht : t.Refines r) :
    s.equals t = some (decide (l = r)) := by
  obtain ⟨d, hd, hzero⟩ := strcmp_of_spells hs.spells ht.spells
  simp only [equals, hd, Option.map_some, hzero]

end String

end AviKernel.Libc
