import Mathlib.Tactic

/-!
# Texts of separated pieces

A text is cut into pieces by a scan that ends a piece at every separator, and pasted
together again.  What comes after the last separator is a piece unless it is empty.
-/

namespace AviKernel

variable {α β : Type*} {z : α} {s l r : List α} {pieces : List (List α)} {closed : Bool}

/-- The pieces, each followed by a separator, except perhaps for the last. -/
def paste (z : α) (closed : Bool) : List (List α) → List α
  | [] => []
  | [s] => s ++ if closed then [z] else []
  | s :: r => s ++ z :: paste z closed r

theorem paste_singleton : paste z closed [s] = s ++ if closed then [z] else [] := rfl

theorem paste_cons (hne : pieces ≠ []) :
    paste z closed (s :: pieces) = s ++ z :: paste z closed pieces := by
  cases pieces with
  | nil => exact absurd rfl hne
  | cons t pieces => rfl

/-- A piece gets a separator if it is not the last or if the last has one. -/
theorem paste_cons_of_sep (h : closed = true ∨ pieces ≠ []) :
    paste z closed (s :: pieces) = s ++ [z] ++ paste z closed pieces := by
  by_cases hne : pieces = []
  · subst hne
    have hclosed : closed = true := h.resolve_right (not_not.mpr rfl)
    rw [paste_singleton, if_pos hclosed, paste, List.append_nil]
  · rw [paste_cons hne, List.append_assoc, List.singleton_append]

theorem paste_cons_of_not_sep (h : ¬ (closed = true ∨ pieces ≠ [])) :
    paste z closed (s :: pieces) = s ++ paste z closed pieces := by
  obtain ⟨hclosed, hne⟩ := not_or.mp h
  rw [not_not.mp hne, paste_singleton, if_neg hclosed, paste]

theorem notMem_append_singleton {c : α} (hs : z ∉ s) (hc : c ≠ z) : z ∉ s ++ [c] := by
  rw [List.mem_append, List.mem_singleton]
  rintro (h | h)
  · exact hs h
  · exact hc h.symm

variable [DecidableEq α] [DecidableEq β]

/-- The pieces of a text, when `s` is the piece read so far. -/
def cut (z : α) (s : List α) : List α → List (List α)
  | [] => if s = [] then [] else [s]
  | c :: r => if c = z then s :: cut z [] r else cut z (s ++ [c]) r

/-- A text that comes after a separator ends with one. -/
def ended (z : α) (l : List α) : Bool := (z :: l).getLast? = some z

theorem ended_nil : ended z [] = true := by
  simp [ended]

theorem ended_append_cons : ended z (s ++ z :: r) = ended z r := by
  have hlast : (z :: (s ++ z :: r)).getLast? = (z :: r).getLast? := by
    rw [← List.cons_append, List.getLast?_append_of_ne_nil _ (List.cons_ne_nil z r)]
  rw [ended, ended, hlast]

theorem ended_of_notMem (hs : z ∉ s) (hne : s ≠ []) : ended z s = false := by
  have hlast : (z :: s).getLast? = some (s.getLast hne) := by
    rw [List.getLast?_cons_of_ne_nil hne, List.getLast?_eq_some_getLast hne]
  rw [ended, hlast, decide_eq_false_iff_not, Option.some.injEq]
  exact fun heq => hs (heq ▸ List.getLast_mem hne)

theorem cut_eq_nil_iff : cut z s r = [] ↔ s = [] ∧ r = [] := by
  induction r generalizing s with
  | nil =>
      rw [cut]
      split
      · next h => simp [h]
      · next h => simp [h]
  | cons c r ih =>
      rw [cut]
      split
      · simp
      · rw [ih]
        simp

/-- A separator cuts off the piece before it. -/
theorem cut_cons_self : cut z s (z :: r) = s :: cut z [] r := by
  rw [cut, if_pos rfl]

theorem cut_cons_ne {c : α} (hc : c ≠ z) : cut z s (c :: r) = cut z (s ++ [c]) r := by
  rw [cut, if_neg hc]

/-- What was cut is pasted together to the same text. -/
theorem paste_cut (hs : z ∉ s) : paste z (ended z (s ++ r)) (cut z s r) = s ++ r := by
  induction r generalizing s with
  | nil =>
      rw [List.append_nil, cut]
      by_cases hne : s = []
      · rw [if_pos hne, hne]
        rfl
      · rw [if_neg hne, ended_of_notMem hs hne, paste]
        simp
  | cons c r ih =>
      by_cases hc : c = z
      · subst hc
        rw [cut_cons_self, ended_append_cons]
        by_cases hrest : r = []
        · subst hrest
          simp [cut, paste, ended_nil]
        · have hne : cut c [] r ≠ [] := fun h => hrest (cut_eq_nil_iff.mp h).2
          have hpaste := ih (s := []) List.not_mem_nil
          rw [List.nil_append] at hpaste
          rw [paste_cons hne, hpaste]
      · have hsplit : s ++ c :: r = s ++ [c] ++ r := by simp
        rw [cut_cons_ne hc, hsplit]
        exact ih (notMem_append_singleton hs hc)

/-- The pieces are those of the library's split, but for an empty last one. -/
theorem cut_eq_splitOn (hs : z ∉ s) : cut z s r =
    if ended z (s ++ r) then ((s ++ r).splitOn z).dropLast else (s ++ r).splitOn z := by
  induction r generalizing s with
  | nil =>
      rw [List.append_nil, cut, List.splitOn_eq_singleton hs]
      by_cases hne : s = []
      · rw [if_pos hne, hne, ended_nil]
        rfl
      · rw [if_neg hne, ended_of_notMem hs hne]
        rfl
  | cons c r ih =>
      by_cases hc : c = z
      · subst hc
        have hrest := ih (s := []) List.not_mem_nil
        rw [List.nil_append] at hrest
        rw [cut_cons_self, ended_append_cons, List.splitOn_append_cons_self_of_not_mem hs, hrest]
        split
        · rw [List.dropLast_cons_of_ne_nil (List.splitOn_ne_nil c r)]
        · rfl
      · have hsplit : s ++ c :: r = s ++ [c] ++ r := by simp
        rw [cut_cons_ne hc, hsplit]
        exact ih (notMem_append_singleton hs hc)

theorem length_cut (hs : z ∉ s) :
    (cut z s r).length = r.count z + if ended z (s ++ r) then 0 else 1 := by
  induction r generalizing s with
  | nil =>
      rw [List.append_nil, cut]
      by_cases hne : s = []
      · rw [if_pos hne, hne, ended_nil]
        rfl
      · rw [if_neg hne, ended_of_notMem hs hne]
        rfl
  | cons c r ih =>
      by_cases hc : c = z
      · subst hc
        have hrest := ih (s := []) List.not_mem_nil
        rw [List.nil_append] at hrest
        rw [cut_cons_self, ended_append_cons, List.length_cons, hrest, List.count_cons_self]
        omega
      · have hsplit : s ++ c :: r = s ++ [c] ++ r := by simp
        rw [cut_cons_ne hc, hsplit, List.count_cons_of_ne hc]
        exact ih (notMem_append_singleton hs hc)

/-- What follows a text that ends with a separator is cut on its own. -/
theorem cut_append (hs : z ∉ s) (hended : ended z (s ++ r) = true) :
    cut z s (r ++ l) = cut z s r ++ cut z [] l := by
  induction r generalizing s with
  | nil =>
      rw [List.append_nil] at hended
      have hnil : s = [] := by
        by_contra hne
        rw [ended_of_notMem hs hne] at hended
        cases hended
      rw [hnil, List.nil_append, cut_eq_nil_iff.mpr ⟨rfl, rfl⟩, List.nil_append]
  | cons c r ih =>
      rw [List.cons_append]
      by_cases hc : c = z
      · subst hc
        rw [ended_append_cons] at hended
        rw [cut_cons_self, cut_cons_self, ih List.not_mem_nil hended, List.cons_append]
      · rw [cut_cons_ne hc, cut_cons_ne hc]
        apply ih (notMem_append_singleton hs hc)
        rwa [List.append_assoc]

theorem ended_append (hended : ended z s = true) : ended z (s ++ r) = ended z r := by
  by_cases hr : r = []
  · rw [hr, List.append_nil, hended, ended_nil]
  · have hlast : (z :: (s ++ r)).getLast? = (z :: r).getLast? := by
      rw [← List.cons_append, List.getLast?_append_of_ne_nil _ hr, List.getLast?_cons_of_ne_nil hr]
    rw [ended, ended, hlast]

/-- A renaming of the characters renames those of the pieces. -/
theorem map_cut {f : α → β} (hf : ∀ c, f c = f z ↔ c = z) :
    (cut z s r).map (List.map f) = cut (f z) (s.map f) (r.map f) := by
  induction r generalizing s with
  | nil =>
      rw [List.map_nil, cut, cut]
      by_cases hne : s = []
      · rw [if_pos hne, hne]
        rfl
      · rw [if_neg hne, if_neg (by simpa using hne)]
        rfl
  | cons c r ih =>
      rw [List.map_cons]
      by_cases hc : c = z
      · subst hc
        rw [cut_cons_self, cut_cons_self, List.map_cons, ih]
        rfl
      · have hne : f c ≠ f z := fun h => hc ((hf c).mp h)
        rw [cut_cons_ne hc, cut_cons_ne hne, ih, List.map_append]
        rfl

end AviKernel
