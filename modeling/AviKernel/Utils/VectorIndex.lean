import AviKernel.Library.Words
import AviKernel.Utils.VectorNodes

/-!
# The index check of a vector

The functions that take an index, with the 32-bit arithmetic of the check and with the two
ways in which they may fail told apart: a panic, and a pointer that is followed to no node.
-/

namespace AviKernel

inductive VectorFault
  | panic (message : String) (index : ℤ)
  | pointer
deriving DecidableEq

namespace VectorFault

variable {α β : Type}

/-- What there is at a pointer that has been followed. -/
def followed : Option α → Except VectorFault α
  | some a => .ok a
  | none => .error .pointer

theorem followed_bind (o : Option α) (f : α → Option β) :
    followed (o >>= f) = followed o >>= fun a => followed (f a) := by
  cases o <;> rfl

end VectorFault

namespace VectorIndex

open NodeHeap VectorFault

section Definitions

variable {α : Type} (h : NodeHeap α) (v : NodeVector) (index : ℤ)

def panicIfIllegalIndex : Except VectorFault Unit :=
  if wrapInt32 (index + 1) > v.size then
    .error (.panic "Vector: Index \"%d\" is out of range" index)
  else if index < 0 then .error (.panic "Vector: Index \"%d\" is negative!" index)
  else .ok ()

/-- The loop of `get_node` by its number of turns. -/
def advance : ℕ → Link → Except VectorFault Link
  | 0, node => .ok node
  | n + 1, node => do
      let node ← followed (h.load node)
      advance n node.next

/-- The index is counted down to zero, from a negative one through all numbers. -/
def getNode : Except VectorFault Link := do
  panicIfIllegalIndex v index
  advance h (index % 2 ^ 32).toNat v.head

def get : Except VectorFault α := do
  let node ← getNode h v index
  let node ← followed (h.load node)
  .ok node.data

def remove : Except VectorFault (NodeHeap α × NodeVector) := do
  panicIfIllegalIndex v index
  if index = 0 then do
    let node ← followed (h.load v.head)
    let h ← followed (h.delete v.head)
    .ok (h, ⟨node.next, v.vectorSize - 1⟩)
  else do
    let before ← getNode h v (wrapInt32 (index - 1))
    let node ← followed (h.load before)
    let target ← followed (h.load node.next)
    let h ← followed (h.delete node.next)
    let h ← followed (h.setNext before target.next)
    .ok (h, ⟨v.head, v.vectorSize - 1⟩)

end Definitions

variable {α β : Type} {h : NodeHeap α} {v : NodeVector} {xs : List (ℕ × α)} {index : ℤ}
  {r : Except VectorFault β}

/-! ## Indices in the range -/

theorem panicIfIllegalIndex_of_mem (hlow : 0 ≤ index) (hmem : index < v.size)
    (hhigh : index < 2 ^ 31 - 1) : panicIfIllegalIndex v index = .ok () := by
  have hsum : wrapInt32 (index + 1) = index + 1 :=
    wrapInt32_of_bounds (by omega) (by omega)
  rw [panicIfIllegalIndex, hsum, if_neg (by omega), if_neg (by omega)]

theorem advance_eq (n : ℕ) (p : Link) : advance h n p = followed (NodeVector.advance h n p) := by
  induction n generalizing p with
  | zero => rfl
  | succ n ih =>
      rw [NodeVector.advance, followed_bind, advance]
      simp only [ih]

theorem panicIfIllegalIndex_eq (hlow : 0 ≤ index) (hmem : index < v.size) :
    v.panicIfIllegalIndex index = some () := by
  rw [NodeVector.panicIfIllegalIndex, if_neg (by omega), if_neg (by omega)]

/-- With an index in the range the check is as it would be without the wrapping. -/
theorem getNode_eq (hlow : 0 ≤ index) (hmem : index < v.size) (hhigh : index < 2 ^ 31 - 1) :
    getNode h v index = followed (v.getNode h index) := by
  have hturns : index % 2 ^ 32 = index := Int.emod_eq_of_lt hlow (by omega)
  rw [getNode, panicIfIllegalIndex_of_mem hlow hmem hhigh, NodeVector.getNode,
    panicIfIllegalIndex_eq hlow hmem, hturns]
  exact advance_eq _ _

theorem get_eq (hlow : 0 ≤ index) (hmem : index < v.size) (hhigh : index < 2 ^ 31 - 1) :
    get h v index = followed (v.get h index) := by
  rw [get, getNode_eq hlow hmem hhigh, NodeVector.get, followed_bind]
  simp only [followed_bind]
  rfl

theorem remove_eq (hlow : 0 ≤ index) (hmem : index < v.size) (hhigh : index < 2 ^ 31 - 1) :
    remove h v index = followed (v.remove h index) := by
  rw [remove, panicIfIllegalIndex_of_mem hlow hmem hhigh, NodeVector.remove,
    panicIfIllegalIndex_eq hlow hmem]
  by_cases hzero : index = 0
  · simp only [if_pos hzero, Option.bind_eq_bind, Option.bind_some]
    simp only [← Option.bind_eq_bind, followed_bind]
    rfl
  · have hbefore : wrapInt32 (index - 1) = index - 1 := wrapInt32_of_bounds (by omega) (by omega)
    have hnode : getNode h v (index - 1) = followed (v.getNode h (index - 1)) :=
      getNode_eq (by omega) (by omega) (by omega)
    simp only [if_neg hzero, hbefore, hnode, Option.bind_eq_bind, Option.bind_some]
    simp only [← Option.bind_eq_bind, followed_bind]
    rfl

/-! ## What the check promises -/

def Panics (r : Except VectorFault β) : Prop :=
  ∃ message i, r = .error (.panic message i)

/-- A call panics for the indices that are not in the range, and follows no null pointer for
the others. -/
structure Checks (v : NodeVector) (index : ℤ) (r : Except VectorFault β) : Prop where
  panics : Panics r ↔ ¬ (0 ≤ index ∧ index < v.size)
  walks : 0 ≤ index ∧ index < v.size → r ≠ .error .pointer

structure ChecksIndex (h : NodeHeap α) (v : NodeVector) (index : ℤ) : Prop where
  get : Checks v index (get h v index)
  getNode : Checks v index (getNode h v index)
  remove : Checks v index (remove h v index)

theorem not_panics_followed (o : Option β) : ¬ Panics (followed o) := by
  rintro ⟨message, i, hm⟩
  cases o with
  | none => cases hm
  | some b => cases hm

theorem checks_of_some {o : Option β} (hmem : 0 ≤ index ∧ index < v.size) (ho : o.isSome) :
    Checks v index (followed o) := by
  refine ⟨iff_of_false (not_panics_followed o) (not_not.mpr hmem), fun _ hr => ?_⟩
  obtain ⟨b, rfl⟩ := Option.isSome_iff_exists.mp ho
  cases hr

theorem checks_of_panic {message : String} (hmem : ¬ (0 ≤ index ∧ index < v.size)) :
    Checks v index (.error (.panic message index) : Except VectorFault β) :=
  ⟨iff_of_true ⟨message, index, rfl⟩ hmem, fun hin => absurd hin hmem⟩

theorem panicIfIllegalIndex_of_not_mem (hmem : ¬ (0 ≤ index ∧ index < v.size))
    (hlow : -2 ^ 31 ≤ index) (hhigh : index < 2 ^ 31 - 1) :
    ∃ message, panicIfIllegalIndex v index = .error (.panic message index) := by
  have hsum : wrapInt32 (index + 1) = index + 1 :=
    wrapInt32_of_bounds (by omega) (by omega)
  rw [panicIfIllegalIndex, hsum]
  split_ifs with hover hneg
  · exact ⟨_, rfl⟩
  · exact ⟨_, rfl⟩
  · exact absurd ⟨by omega, by omega⟩ hmem

/-- The sum wraps, and so the check lets the greatest index pass. -/
theorem panicIfIllegalIndex_last (hsize : 0 ≤ v.size) :
    panicIfIllegalIndex v (2 ^ 31 - 1) = .ok () := by
  have hsum : wrapInt32 (2 ^ 31 - 1 + 1) = -2 ^ 31 := rfl
  rw [panicIfIllegalIndex, hsum, if_neg (by omega), if_neg (by omega)]

theorem not_panics_getNode_last (hsize : 0 ≤ v.size) :
    ¬ Panics (getNode h v (2 ^ 31 - 1)) := by
  have hwalk : getNode h v (2 ^ 31 - 1) =
      advance h ((2 ^ 31 - 1 : ℤ) % 2 ^ 32).toNat v.head := by
    rw [getNode, panicIfIllegalIndex_last hsize]
    rfl
  rw [hwalk, advance_eq]
  exact not_panics_followed _

/-- `remove` is stopped there, but for the index before. -/
theorem remove_last (hsize : 0 ≤ v.size) (hlt : v.size < 2 ^ 31 - 1) :
    remove h v (2 ^ 31 - 1) =
      .error (.panic "Vector: Index \"%d\" is out of range" (2 ^ 31 - 2)) := by
  have hbefore : wrapInt32 (2 ^ 31 - 1 - 1) = 2 ^ 31 - 2 := rfl
  have hsum : wrapInt32 (2 ^ 31 - 2 + 1) = 2 ^ 31 - 1 := rfl
  rw [remove, panicIfIllegalIndex_last hsize, hbefore, getNode, panicIfIllegalIndex, hsum,
    if_pos hlt]
  rfl

theorem not_checksIndex_last (hsize : 0 ≤ v.size) (hlt : v.size < 2 ^ 31) :
    ¬ ChecksIndex h v (2 ^ 31 - 1) := fun hc =>
  not_panics_getNode_last hsize (hc.getNode.panics.mpr (by omega))

theorem getNode_isSome {i : ℕ} (hv : v.Holds h xs) (hi : i < xs.length) :
    (v.getNode h i).isSome := by
  have hsplit : xs = xs.take i ++ xs[i] :: xs.drop (i + 1) := by simp
  rw [hsplit] at hv
  have hnode := hv.getNode
  rw [List.length_take_of_le hi.le] at hnode
  rw [hnode]
  rfl

theorem checksIndex_of_mem (hv : v.Holds h xs) (hmem : 0 ≤ index ∧ index < v.size)
    (hhigh : index < 2 ^ 31 - 1) : ChecksIndex h v index := by
  obtain ⟨i, rfl⟩ := Int.eq_ofNat_of_zero_le hmem.1
  have hi : i < xs.length := by
    have hsize := hv.size
    have hlt : (i : ℤ) < v.vectorSize := hmem.2
    omega
  obtain ⟨h', v', hremove, -⟩ := hv.removeAt hi
  constructor
  · rw [get_eq hmem.1 hmem.2 hhigh]
    apply checks_of_some hmem
    rw [hv.get_eq hi, Option.isSome_some]
  · rw [getNode_eq hmem.1 hmem.2 hhigh]
    exact checks_of_some hmem (getNode_isSome hv hi)
  · rw [remove_eq hmem.1 hmem.2 hhigh]
    apply checks_of_some hmem
    rw [hremove, Option.isSome_some]

theorem checksIndex_of_not_mem (hmem : ¬ (0 ≤ index ∧ index < v.size))
    (hlow : -2 ^ 31 ≤ index) (hhigh : index < 2 ^ 31 - 1) : ChecksIndex h v index := by
  obtain ⟨message, hpanic⟩ := panicIfIllegalIndex_of_not_mem hmem hlow hhigh
  have hnode : getNode h v index = .error (.panic message index) := by
    rw [getNode, hpanic]
    rfl
  constructor
  · rw [get, hnode]
    exact checks_of_panic hmem
  · rw [hnode]
    exact checks_of_panic hmem
  · rw [remove, hpanic]
    exact checks_of_panic hmem

/-- The check is complete but for the greatest index. -/
theorem checksIndex_iff (hv : v.Holds h xs) (hsize : v.size < 2 ^ 31) (hlow : -2 ^ 31 ≤ index)
    (hhigh : index < 2 ^ 31) : ChecksIndex h v index ↔ index ≠ 2 ^ 31 - 1 := by
  constructor
  · rintro hc rfl
    refine not_checksIndex_last ?_ hsize hc
    rw [NodeVector.size, hv.size]
    exact Int.natCast_nonneg _
  · intro hne
    by_cases hmem : 0 ≤ index ∧ index < v.size
    · exact checksIndex_of_mem hv hmem (by omega)
    · exact checksIndex_of_not_mem hmem hlow (by omega)

/-- A heap with one node, at the address 16. -/
def oneNode : NodeHeap ℕ := NodeHeap.empty.insert 16 ⟨5, none⟩ rfl

def oneElement : NodeVector := ⟨some 16, 1⟩

theorem oneElement_holds : oneElement.Holds oneNode [(16, 5)] :=
  ⟨⟨rfl, ⟨rfl, trivial⟩, List.nodup_singleton 16⟩, rfl⟩

theorem checksIndex_iff_oneElement : ChecksIndex oneNode oneElement (-1) ↔ (-1 : ℤ) ≠ 2 ^ 31 - 1 :=
  checksIndex_iff oneElement_holds (by decide) (by decide) (by decide)

theorem not_checksIndex : ¬ ChecksIndex oneNode oneElement 2147483647 :=
  not_checksIndex_last (by decide) (by decide)

end VectorIndex

end AviKernel
