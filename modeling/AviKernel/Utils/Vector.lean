import Mathlib.Tactic

/-!
# The Vector container

A vector is the list of its elements.  An access out of range panics, which is
no result.
-/

namespace AviKernel

namespace Vector

variable {α : Type*} {l : List α} {index : ℤ} {n : ℕ} {a : α}

def get (l : List α) (index : ℤ) : Option α :=
  if index + 1 > l.length then none else if index < 0 then none else l[index.toNat]?

def remove (l : List α) (index : ℤ) : Option (List α) :=
  if index + 1 > l.length then none
  else if index < 0 then none
  else some (l.eraseIdx index.toNat)

@[simp] theorem get_natCast : get l (n : ℤ) = l[n]? := by
  unfold get
  split
  · rw [eq_comm, List.getElem?_eq_none_iff]
    omega
  · rw [if_neg (by omega), Int.toNat_natCast]

@[simp] theorem remove_nil : remove ([] : List α) 0 = none := rfl

@[simp] theorem remove_cons_zero : remove (a :: l) 0 = some l := by
  have hlen : ¬(0 : ℤ) + 1 > (a :: l).length := by
    rw [List.length_cons]
    omega
  rw [remove, if_neg hlen, if_neg (by decide)]
  rfl

end Vector

end AviKernel
