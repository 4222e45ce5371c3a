import Mathlib.Data.List.Sort
import Mathlib.Tactic

/-!
# Insertion before the first bigger element

The order is given by what is bigger.  An element that is inserted before the first bigger
one comes behind those that it is tied with.
-/

namespace AviKernel

variable {α : Type*} {bigger : α → α → Bool} {le : α → α → Prop} {a b : α} {l m : List α}

/-- `bigger` is the strict part of a total preorder. -/
structure Bigger (bigger : α → α → Bool) (le : α → α → Prop) : Prop where
  total : ∀ a b, le a b ∨ le b a
  trans : ∀ a b c, le a b → le b c → le a c
  bigger_iff : ∀ a b, bigger a b = true ↔ ¬ le a b

/-- Neither is bigger. -/
def tied (bigger : α → α → Bool) (a b : α) : Bool := !bigger a b && !bigger b a

/-- The elements are inserted one after the other, each before the first bigger one. -/
def sortByInsertion (bigger : α → α → Bool) (l : List α) : List α :=
  l.reverse.insertionSort fun a b => bigger b a = true

theorem sortByInsertion_concat : sortByInsertion bigger (l ++ [a]) =
    (sortByInsertion bigger l).orderedInsert (fun a b => bigger b a = true) a := by
  rw [sortByInsertion, List.reverse_concat, List.insertionSort_cons]
  rfl

theorem sortByInsertion_perm : (sortByInsertion bigger l).Perm l :=
  (List.perm_insertionSort _ _).trans l.reverse_perm

theorem length_sortByInsertion : (sortByInsertion bigger l).length = l.length :=
  sortByInsertion_perm.length_eq

/-- The list on both sides of the place of an element. -/
theorem exists_orderedInsert_eq (bigger : α → α → Bool) (a : α) (l : List α) :
    ∃ low high, l = low ++ high ∧
      l.orderedInsert (fun a b => bigger b a = true) a = low ++ a :: high ∧
      (∀ b ∈ low, bigger b a = false) ∧ ∀ b ∈ high.head?, bigger b a = true := by
  refine ⟨l.takeWhile fun b => ¬ bigger b a = true, l.dropWhile fun b => ¬ bigger b a = true,
    List.takeWhile_append_dropWhile.symm, List.orderedInsert_eq_take_drop _ _ _,
    fun b hb => ?_, fun b hb => ?_⟩
  · simpa using List.all_eq_true.mp List.all_takeWhile b hb
  · have h := List.head?_dropWhile_not (fun b => decide (¬ bigger b a = true)) l
    rw [Option.mem_def.mp hb] at h
    simpa using h

namespace Bigger

theorem le_of_not (h : Bigger bigger le) (hb : bigger b a = false) : le b a := by
  by_contra hle
  rw [(h.bigger_iff b a).mpr hle] at hb
  cases hb

theorem le_of_bigger (h : Bigger bigger le) (hb : bigger b a = true) : le a b :=
  (h.total a b).resolve_right ((h.bigger_iff b a).mp hb)

/-- In a sorted list all that follows a bigger element is bigger. -/
theorem forall_high (h : Bigger bigger le) (hsorted : l.Pairwise le)
    (hhead : ∀ b ∈ l.head?, bigger b a = true) : ∀ b ∈ l, bigger b a = true := by
  cases l with
  | nil => simp
  | cons c l =>
      have hc : bigger c a = true := hhead c rfl
      have hrest := (List.pairwise_cons.mp hsorted).1
      intro b hb
      rcases List.mem_cons.mp hb with rfl | hb
      · exact hc
      · refine (h.bigger_iff b a).mpr fun hle => ?_
        exact (h.bigger_iff c a).mp hc (h.trans c b a (hrest b hb) hle)

theorem orderedInsert_sorted (h : Bigger bigger le) (hsorted : l.Pairwise le) :
    (l.orderedInsert (fun a b => bigger b a = true) a).Pairwise le := by
  obtain ⟨low, high, rfl, heq, hlow, hhead⟩ := exists_orderedInsert_eq bigger a l
  obtain ⟨hl, hh, hacross⟩ := List.pairwise_append.mp hsorted
  have hhigh := h.forall_high hh hhead
  rw [heq]
  refine List.pairwise_append.mpr ⟨hl, List.pairwise_cons.mpr ⟨fun b hb => ?_, hh⟩,
    fun b hb c hc => ?_⟩
  · exact h.le_of_bigger (hhigh b hb)
  · rcases List.mem_cons.mp hc with rfl | hc
    · exact h.le_of_not (hlow b hb)
    · exact hacross b hb c hc

/-- The element comes behind those that are tied with it. -/
theorem filter_orderedInsert (h : Bigger bigger le) (hsorted : l.Pairwise le) (b : α) :
    (l.orderedInsert (fun a b => bigger b a = true) a).filter (tied bigger b) =
      (l ++ [a]).filter (tied bigger b) := by
  obtain ⟨low, high, rfl, heq, -, hhead⟩ := exists_orderedInsert_eq bigger a l
  have hhigh := h.forall_high (List.pairwise_append.mp hsorted).2.1 hhead
  rw [heq, List.append_cons, List.filter_append, List.filter_append, List.filter_append,
    List.filter_append, List.append_assoc, List.append_assoc]
  by_cases hab : tied bigger b a = true
  · have hnone : high.filter (tied bigger b) = [] := by
      refine List.filter_eq_nil_iff.mpr fun c hc htied => ?_
      simp only [tied, Bool.and_eq_true, Bool.not_eq_true'] at hab htied
      have hca : le c a :=
        h.trans c b a (h.le_of_not htied.2) (h.le_of_not hab.1)
      exact (h.bigger_iff c a).mp (hhigh c hc) hca
    rw [hnone, List.nil_append, List.append_nil]
  · have hout : [a].filter (tied bigger b) = [] := List.filter_eq_nil_iff.mpr (by simpa using hab)
    rw [hout, List.append_nil, List.nil_append]

theorem sorted (h : Bigger bigger le) : (sortByInsertion bigger l).Pairwise le := by
  induction l using List.reverseRecOn with
  | nil => exact List.Pairwise.nil
  | append_singleton l a ih =>
      rw [sortByInsertion_concat]
      exact h.orderedInsert_sorted ih

theorem stable (h : Bigger bigger le) (b : α) :
    (sortByInsertion bigger l).filter (tied bigger b) = l.filter (tied bigger b) := by
  induction l using List.reverseRecOn with
  | nil => rfl
  | append_singleton l a ih =>
      rw [sortByInsertion_concat, h.filter_orderedInsert h.sorted, List.filter_append,
        List.filter_append, ih]

end Bigger

end AviKernel
