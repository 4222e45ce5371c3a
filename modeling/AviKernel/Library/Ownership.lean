import AviKernel.Library.NodeChain

/-!
# Who owns a node

Several owners have nodes on one heap, and no two of them have one in common.  A node in use
that belongs to no owner is astray: nobody can delete it any more.
-/

namespace AviKernel

open NodeHeap

variable {α ι : Type*} {h h' : NodeHeap α} {own : ι → List ℕ} {astray : Finset ℕ} {i j : ι}
  {xs ys : List (ℕ × α)} {a : ℕ} {p : Link}

/-- The nodes in use are the nodes of the owners and those that are astray. -/
structure Shares (h : NodeHeap α) (own : ι → List ℕ) (astray : Finset ℕ) : Prop where
  live : ∀ i, ∀ a ∈ own i, (h.node a).isSome
  apart : ∀ i j, i ≠ j → ∀ a ∈ own i, a ∉ own j
  lost : ∀ a ∈ astray, (h.node a).isSome ∧ ∀ i, a ∉ own i
  used : ∀ a, (h.node a).isSome → a ∈ astray ∨ ∃ i, a ∈ own i

/-- What belongs to others is not touched when the nodes of one owner are turned. -/
theorem Shares.frame (hs : Shares h own astray) (hi : own i = addresses xs)
    (hturns : Turns h h' xs ys) (ha : a ∈ astray ∨ ∃ j, j ≠ i ∧ a ∈ own j) :
    a ∉ addresses ys ∧ h'.node a = h.node a := by
  have hlive : (h.node a).isSome ∧ a ∉ own i := by
    rcases ha with ha | ⟨j, hj, ha⟩
    · exact ⟨(hs.lost a ha).1, (hs.lost a ha).2 i⟩
    · exact ⟨hs.live j a ha, hs.apart j i hj a ha⟩
  have hold : a ∉ addresses xs := by
    rw [← hi]
    exact hlive.2
  have hnew : a ∉ addresses ys := fun hmem => by
    have hnone := hturns.made a hmem hold
    rw [hnone] at hlive
    exact Bool.false_ne_true hlive.1
  exact ⟨hnew, hturns.kept a hold hnew⟩

section Updates

variable [DecidableEq ι]

theorem Shares.turn (hs : Shares h own astray) (hi : own i = addresses xs)
    (hturns : Turns h h' xs ys) (hlive : ∀ a ∈ addresses ys, (h'.node a).isSome) :
    Shares h' (Function.update own i (addresses ys)) astray := by
  have hother : ∀ j, j ≠ i → ∀ a ∈ own j, a ∉ addresses ys ∧ h'.node a = h.node a :=
    fun j hj a ha => hs.frame hi hturns (Or.inr ⟨j, hj, ha⟩)
  refine ⟨fun j a ha => ?_, fun j k hjk a ha => ?_, fun a ha => ?_, fun a ha => ?_⟩
  · by_cases hj : j = i
    · subst hj
      rw [Function.update_self] at ha
      exact hlive a ha
    · rw [Function.update_of_ne hj] at ha
      rw [(hother j hj a ha).2]
      exact hs.live j a ha
  · by_cases hj : j = i
    · subst hj
      rw [Function.update_self] at ha
      rw [Function.update_of_ne hjk.symm]
      exact fun hmem => (hother k hjk.symm a hmem).1 ha
    · rw [Function.update_of_ne hj] at ha
      by_cases hk : k = i
      · subst hk
        rw [Function.update_self]
        exact (hother j hj a ha).1
      · rw [Function.update_of_ne hk]
        exact hs.apart j k hjk a ha
  · obtain ⟨hnew, hsame⟩ := hs.frame hi hturns (Or.inl ha)
    refine ⟨hsame ▸ (hs.lost a ha).1, fun j => ?_⟩
    by_cases hj : j = i
    · rwa [hj, Function.update_self]
    · rw [Function.update_of_ne hj]
      exact (hs.lost a ha).2 j
  · by_cases hnew : a ∈ addresses ys
    · exact Or.inr ⟨i, by rwa [Function.update_self]⟩
    · have hold : a ∉ addresses xs := fun hold => by
        rw [hturns.gone a hold hnew] at ha
        cases ha
      rw [hturns.kept a hold hnew] at ha
      rcases hs.used a ha with hlost | ⟨j, hj⟩
      · exact Or.inl hlost
      · have hne : j ≠ i := fun heq => by
          rw [heq, hi] at hj
          exact hold hj
        exact Or.inr ⟨j, by rwa [Function.update_of_ne hne]⟩

/-- An owner forgets a node, which is still in use. -/
theorem Shares.lose {as : List ℕ} (hs : Shares h own astray) (hi : own i = a :: as)
    (ha : a ∉ as) : Shares h (Function.update own i as) (insert a astray) := by
  have hless : ∀ j, ∀ b ∈ Function.update own i as j, b ∈ own j := by
    intro j b hb
    by_cases hj : j = i
    · subst hj
      rw [Function.update_self] at hb
      rw [hi]
      exact List.mem_cons_of_mem a hb
    · rwa [Function.update_of_ne hj] at hb
  have hmem : a ∈ own i := by
    rw [hi]
    exact List.mem_cons_self
  refine ⟨fun j b hb => hs.live j b (hless j b hb), fun j k hjk b hb hmem =>
    hs.apart j k hjk b (hless j b hb) (hless k b hmem), fun b hb => ?_, fun b hb => ?_⟩
  · rcases Finset.mem_insert.mp hb with rfl | hb
    · refine ⟨hs.live i b hmem, fun j hj => ?_⟩
      by_cases hji : j = i
      · subst hji
        rw [Function.update_self] at hj
        exact ha hj
      · exact hs.apart i j (Ne.symm hji) b hmem (hless j b hj)
    · exact ⟨(hs.lost b hb).1, fun j hj => (hs.lost b hb).2 j (hless j b hj)⟩
  · rcases hs.used b hb with hlost | ⟨j, hj⟩
    · exact Or.inl (Finset.mem_insert_of_mem hlost)
    · by_cases hji : j = i
      · subst hji
        rw [hi] at hj
        rcases List.mem_cons.mp hj with rfl | hj
        · exact Or.inl (Finset.mem_insert_self b astray)
        · exact Or.inr ⟨j, by rwa [Function.update_self]⟩
      · exact Or.inr ⟨j, by rwa [Function.update_of_ne hji]⟩

end Updates

/-! ## How many there are -/

theorem Shares.ncard_live [DecidableEq ι] (hs : Shares h own astray) (owners : Finset ι)
    (hnodup : ∀ i, (own i).Nodup) (howners : ∀ i, own i ≠ [] → i ∈ owners) :
    {a | (h.node a).isSome}.ncard = astray.card + ∑ i ∈ owners, (own i).length := by
  have hlive : {a | (h.node a).isSome} =
      ((astray ∪ owners.biUnion fun i => (own i).toFinset : Finset ℕ) : Set ℕ) := by
    ext a
    rw [Set.mem_ofPred_eq, Finset.mem_coe, Finset.mem_union, Finset.mem_biUnion]
    constructor
    · intro ha
      rcases hs.used a ha with hlost | ⟨i, hi⟩
      · exact Or.inl hlost
      · exact Or.inr ⟨i, howners i (List.ne_nil_of_mem hi), List.mem_toFinset.mpr hi⟩
    · rintro (hlost | ⟨i, -, hi⟩)
      · exact (hs.lost a hlost).1
      · exact hs.live i a (List.mem_toFinset.mp hi)
  have hastray : Disjoint astray (owners.biUnion fun i => (own i).toFinset) := by
    rw [Finset.disjoint_left]
    intro a ha hmem
    obtain ⟨i, -, hi⟩ := Finset.mem_biUnion.mp hmem
    exact (hs.lost a ha).2 i (List.mem_toFinset.mp hi)
  have hapart : (owners : Set ι).PairwiseDisjoint fun i => (own i).toFinset := by
    intro i _ j _ hij
    refine Finset.disjoint_left.mpr fun a ha hmem => ?_
    exact hs.apart i j hij a (List.mem_toFinset.mp ha) (List.mem_toFinset.mp hmem)
  rw [hlive, Set.ncard_coe_finset, Finset.card_union_of_disjoint hastray,
    Finset.card_biUnion hapart]
  congr 1
  exact Finset.sum_congr rfl fun i _ => List.toFinset_card_of_nodup (hnodup i)

/-! ## What can be reached -/

/-- From `p` on the node `a` is reached by following the pointers. -/
inductive Reaches (h : NodeHeap α) : Link → ℕ → Prop
  | here {a : ℕ} {n : Node α} : h.node a = some n → Reaches h (some a) a
  | next {a b : ℕ} {n : Node α} : h.node a = some n → Reaches h n.next b → Reaches h (some a) b

theorem Linked.reaches_iff (hl : Linked h none xs) :
    Reaches h (entry none xs) a ↔ a ∈ addresses xs := by
  induction xs with
  | nil =>
      refine iff_of_false ?_ List.not_mem_nil
      rintro ⟨⟩
  | cons c xs ih =>
      obtain ⟨hc, hrest⟩ := hl
      rw [entry_cons, addresses_cons, List.mem_cons, ← ih hrest]
      constructor
      · intro hr
        cases hr with
        | here hn => exact Or.inl rfl
        | next hn hnext =>
            rw [hc] at hn
            cases hn
            exact Or.inr hnext
      · rintro (rfl | hnext)
        · exact Reaches.here hc
        · exact Reaches.next hc hnext

theorem Chain.reaches_iff (hc : Chain h p xs) : Reaches h p a ↔ a ∈ addresses xs := by
  rw [hc.head]
  exact hc.linked.reaches_iff

end AviKernel
