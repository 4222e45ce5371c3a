import Mathlib.Tactic

/-!
# Traces of accesses

A program reads and writes through objects, and takes some of them out of use on
its way.  A trace is admitted when each access goes to an object that is still in
use at that point.
-/

namespace AviKernel

/-- One step of a trace. -/
inductive Event (α : Type*) where
  | access (object : α)
  | release (object : α)

variable {α : Type*} [DecidableEq α] {used used' : List α} {a : α} {as : List α}
  {es fs : List (Event α)}

/-- Every access goes to an object in use, and a release takes one out of use. -/
def Admitted : List α → List (Event α) → Prop
  | _, [] => True
  | used, .access a :: es => a ∈ used ∧ Admitted used es
  | used, .release a :: es => Admitted (used.filter fun b => b ≠ a) es

@[simp] theorem admitted_nil : Admitted used [] := trivial

@[simp] theorem admitted_access :
    Admitted used (.access a :: es) ↔ a ∈ used ∧ Admitted used es := Iff.rfl

@[simp] theorem admitted_release :
    Admitted used (.release a :: es) ↔ Admitted (used.filter fun b => b ≠ a) es := Iff.rfl

/-- The trace that accesses the objects in order. -/
def accesses (as : List α) : List (Event α) := as.map Event.access

theorem admitted_accesses_append :
    Admitted used (accesses as ++ es) ↔ (∀ a ∈ as, a ∈ used) ∧ Admitted used es := by
  induction as with
  | nil => simp [accesses]
  | cons a as ih =>
      rw [accesses, List.map_cons, List.cons_append, admitted_access, ← accesses, ih,
        List.forall_mem_cons, and_assoc]

/-- Later parts of a trace are admitted with what is still in use. -/
theorem Admitted.rest (h : Admitted used (es ++ fs)) :
    ∃ used', used' ⊆ used ∧ Admitted used' fs := by
  induction es generalizing used with
  | nil => exact ⟨used, List.Subset.refl used, h⟩
  | cons e es ih =>
      cases e with
      | access a => exact ih h.2
      | release a =>
          obtain ⟨used', hsub, hrest⟩ := ih h
          exact ⟨used', fun b hb => List.mem_of_mem_filter (hsub hb), hrest⟩

theorem Admitted.mem (h : Admitted used (es ++ .access a :: fs)) : a ∈ used := by
  obtain ⟨used', hsub, hrest⟩ := h.rest
  exact hsub hrest.1

/-- An object is not accessed again after its release. -/
theorem not_admitted_released : ¬ Admitted used (es ++ .release a :: .access a :: fs) := by
  intro h
  obtain ⟨used', -, hrest⟩ := h.rest
  have hmem : a ∈ used'.filter fun b => b ≠ a := hrest.1
  simp at hmem

end AviKernel
