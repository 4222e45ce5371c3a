import AviKernel.Library.StableSort
import AviKernel.Utils.VectorNodes

/-!
# Sorting a vector

The nodes of the sorted area stand in front.  The next node is taken out and linked in
before the first bigger one; if there is none it stays where it is.
-/

namespace AviKernel.NodeVector

open NodeHeap

section Definitions

variable {α : Type} (compare : α → α → Bool) (h : NodeHeap α) (iterator iteratorPrev : Link)

/-- The node at `iterator` is linked in before `insertionPtr`; the result is the head with
it. -/
def moveBefore (head insertionPtr insertionPtrPrev : Link) : Option (NodeHeap α × Link) := do
  let node ← h.load iterator
  let h ← h.setNext iteratorPrev node.next
  let h ← h.setNext iterator insertionPtr
  if insertionPtrPrev = none then some (h, iterator)
  else do
    let h ← h.setNext insertionPtrPrev iterator
    some (h, head)

/-- The loop over the sorted area with the turns still to do.  The result ends with the
node that is before the next one. -/
def insertFrom (head : Link) : ℕ → Link → Link → Option (NodeHeap α × Link × Link)
  | 0, _, _ => some (h, head, iterator)
  | todo + 1, insertionPtr, insertionPtrPrev => do
      let first ← h.load insertionPtr
      let second ← h.load iterator
      if compare first.data second.data then
        if iteratorPrev = none then insertFrom head todo insertionPtr insertionPtrPrev
        else do
          let (h, head) ← moveBefore h iterator iteratorPrev head insertionPtr insertionPtrPrev
          some (h, head, iteratorPrev)
      else insertFrom head todo first.next insertionPtr

/-- The loop over the nodes, which takes at most as many turns as there are. -/
def sortFrom : ℕ → NodeHeap α → Link → Link → Link → ℕ → Option (NodeHeap α × Link)
  | _, h, head, none, _, _ => some (h, head)
  | 0, _, _, some _, _, _ => none
  | fuel + 1, h, head, some iterator, iteratorPrev, sortedAreaSize => do
      let node ← h.load (some iterator)
      let (h, head, newIteratorPrev) ←
        insertFrom compare h (some iterator) iteratorPrev head sortedAreaSize head none
      sortFrom fuel h head node.next newIteratorPrev (sortedAreaSize + 1)

def sort (v : NodeVector) : Option (NodeHeap α × NodeVector) := do
  let (h, head) ← sortFrom compare h.log.length h v.head v.head none 0
  some (h, ⟨head, v.vectorSize⟩)

end Definitions

variable {α : Type} {compare : α → α → Bool} {h : NodeHeap α} {v : NodeVector}
  {low high placed front rest xs ys : List (ℕ × α)} {c : ℕ × α} {head : Link} {fuel : ℕ}

/-- Order of nodes by their elements. -/
abbrev biggerNode (compare : α → α → Bool) (c d : ℕ × α) : Bool := compare c.2 d.2

theorem entry_of_ne_nil {p q : Link} (hxs : xs ≠ []) : entry p xs = entry q xs := by
  cases xs with
  | nil => exact absurd rfl hxs
  | cons c xs => rfl

/-- The node `c` behind `high` goes to the place between `low` and `high`. -/
theorem moveBefore_eq (hl : Linked h none (low ++ (high ++ c :: rest)))
    (hnodup : (addresses (low ++ (high ++ c :: rest))).Nodup) (hhigh : high ≠ [])
    (hhead : head = entry none (low ++ (high ++ c :: rest))) :
    ∃ h', moveBefore h (some c.1) (lastLink high) head (entry none high) (lastLink low) =
        some (h', entry none (low ++ c :: (high ++ rest))) ∧
      Linked h' none (low ++ c :: (high ++ rest)) ∧
      ∀ a, a ∉ addresses (low ++ (high ++ c :: rest)) → h'.node a = h.node a := by
  obtain ⟨hlow, hright⟩ := linked_append.mp hl
  obtain ⟨hhighl, hc, hrest⟩ := linked_append.mp hright
  simp only [addresses_append, addresses_cons] at hnodup
  obtain ⟨hlowNodup, hrightNodup, hlowApart⟩ := List.nodup_append.mp hnodup
  obtain ⟨hhighNodup, hcRest, hhighApart⟩ := List.nodup_append.mp hrightNodup
  obtain ⟨hcNot, -⟩ := List.nodup_cons.mp hcRest
  have hcHigh : c.1 ∉ addresses high := fun hmem =>
    hhighApart c.1 hmem c.1 List.mem_cons_self rfl
  have hcLow : c.1 ∉ addresses low := fun hmem =>
    hlowApart c.1 hmem c.1 (by simp) rfl
  have hload : h.load (some c.1) = some ⟨c.2, entry none rest⟩ := hc
  obtain ⟨h₁, hset₁, hhigh₁, hsame₁⟩ := hhighl.retarget (p := entry none rest) hhighNodup hhigh
  have hc₁ : h₁.node c.1 = some ⟨c.2, entry none rest⟩ := (hsame₁ c.1 hcHigh).trans hc
  obtain ⟨h₂, hh₂⟩ : ∃ h₂, h₁.relink c.1 (entry none high) = h₂ := ⟨_, rfl⟩
  have hset₂ : h₁.setNext (some c.1) (entry none high) = some h₂ := hh₂ ▸ setNext_eq hc₁
  have hc₂ : h₂.node c.1 = some ⟨c.2, entry none high⟩ := hh₂ ▸ relink_self hc₁
  have hsame₂ : ∀ a, a ≠ c.1 → h₂.node a = h₁.node a := fun a ha => hh₂ ▸ relink_of_ne ha
  have hhigh₂ : Linked h₂ (entry none rest) high :=
    hhigh₁.congr fun a ha => hsame₂ a (ne_of_mem_of_not_mem ha hcHigh)
  have hrest₂ : Linked h₂ none rest := by
    refine hrest.congr fun a ha => (hsame₂ a (ne_of_mem_of_not_mem ha hcNot)).trans ?_
    exact hsame₁ a fun hmem => hhighApart a hmem a (List.mem_cons_of_mem _ ha) rfl
  have hlow₂ : Linked h₂ (entry none (high ++ c :: rest)) low := by
    refine hlow.congr fun a ha => (hsame₂ a (ne_of_mem_of_not_mem ha hcLow)).trans ?_
    exact hsame₁ a fun hmem => hlowApart a ha a (List.mem_append_left _ hmem) rfl
  have htail : Linked h₂ none (c :: (high ++ rest)) := by
    refine ⟨?_, linked_append.mpr ⟨hhigh₂, hrest₂⟩⟩
    rw [hc₂, entry_append, entry_of_ne_nil hhigh]
  have hother₂ : ∀ a, a ∉ addresses (low ++ (high ++ c :: rest)) → h₂.node a = h.node a := by
    intro a ha
    simp only [addresses_append, addresses_cons, List.mem_append, List.mem_cons, not_or] at ha
    exact (hsame₂ a ha.2.2.1).trans (hsame₁ a ha.2.1)
  by_cases hnil : low = []
  · subst hnil
    refine ⟨h₂, ?_, htail, hother₂⟩
    simp only [moveBefore, hload, hset₁, hset₂, lastLink_nil, if_pos, Option.bind_eq_bind,
      Option.bind_some, List.nil_append, entry_cons]
  · obtain ⟨h₃, hset₃, hlow₃, hsame₃⟩ := hlow₂.retarget (p := some c.1) hlowNodup hnil
    have hlast : lastLink low ≠ none := by
      rw [lastLink, Ne, Option.map_eq_none_iff, List.getLast?_eq_none_iff]
      exact hnil
    refine ⟨h₃, ?_, linked_append.mpr ⟨hlow₃, ?_⟩, fun a ha => ?_⟩
    · simp only [moveBefore, hload, hset₁, hset₂, if_neg hlast, hset₃, hhead, Option.bind_eq_bind,
        Option.bind_some, entry_append]
      rw [entry_of_ne_nil hnil]
    · refine htail.congr fun a ha => hsame₃ a fun hmem => ?_
      refine hlowApart a hmem a ?_ rfl
      simp only [addresses_cons, addresses_append, List.mem_cons, List.mem_append] at ha ⊢
      tauto
    · have hnotLow : a ∉ addresses low := fun hmem => ha (by simp [hmem])
      exact (hsame₃ a hnotLow).trans (hother₂ a ha)

/-- The nodes in `low` are not bigger than `c`; those in `high` are still to be asked. -/
theorem insertFrom_eq (hl : Linked h none (low ++ (high ++ c :: rest)))
    (hnodup : (addresses (low ++ (high ++ c :: rest))).Nodup)
    (hhead : head = entry none (low ++ (high ++ c :: rest)))
    (hplaced : placed = high.orderedInsert (fun a b => biggerNode compare b a = true) c) :
    ∃ h', insertFrom compare h (some c.1) (lastLink (low ++ high)) head high.length
        (entry (some c.1) high) (lastLink low) =
          some (h', entry none (low ++ (placed ++ rest)), lastLink (low ++ placed)) ∧
      Linked h' none (low ++ (placed ++ rest)) ∧
      ∀ a, a ∉ addresses (low ++ (high ++ c :: rest)) → h'.node a = h.node a := by
  induction high generalizing low placed with
  | nil =>
      subst hplaced hhead
      refine ⟨h, ?_, hl, fun _ _ => rfl⟩
      rw [List.orderedInsert_nil, lastLink_concat]
      rfl
  | cons b high ih =>
      obtain ⟨-, hb, hright⟩ := linked_append.mp hl
      obtain ⟨-, hc, -⟩ := linked_append.mp hright
      have hloadb : h.load (some b.1) = some ⟨b.2, entry none (high ++ c :: rest)⟩ := hb
      have hloadc : h.load (some c.1) = some ⟨c.2, entry none rest⟩ := hc
      have hnext : entry none (high ++ c :: rest) = entry (some c.1) high := entry_append
      rw [List.orderedInsert_cons] at hplaced
      by_cases hbigger : compare b.2 c.2 = true
      · rw [if_pos hbigger] at hplaced
        subst hplaced
        obtain ⟨h', hmove, hlinked, hsame⟩ :=
          moveBefore_eq hl hnodup (List.cons_ne_nil b high) hhead
        have hlast : lastLink (low ++ b :: high) = lastLink (b :: high) :=
          lastLink_append (List.cons_ne_nil b high)
        have hlast' : lastLink (low ++ c :: b :: high) = lastLink (b :: high) := by
          rw [List.append_cons, lastLink_append (List.cons_ne_nil b high)]
        have hsome : lastLink (b :: high) ≠ none := by
          rw [lastLink, Ne, Option.map_eq_none_iff, List.getLast?_eq_none_iff]
          exact List.cons_ne_nil b high
        refine ⟨h', ?_, hlinked, hsame⟩
        rw [entry_cons] at hmove
        rw [List.length_cons, entry_cons, insertFrom, hloadb, hloadc, hlast, hlast']
        simp only [Option.bind_eq_bind, Option.bind_some, if_pos hbigger, if_neg hsome, hmove]
        rfl
      · rw [if_neg hbigger] at hplaced
        subst hplaced
        rw [List.cons_append, List.append_cons] at hl hnodup hhead
        obtain ⟨h', hinsert, hlinked, hsame⟩ := ih hl hnodup hhead rfl
        simp only [List.append_assoc, List.singleton_append] at hinsert hlinked hsame
        refine ⟨h', ?_, hlinked, hsame⟩
        rw [lastLink_concat, ← hnext] at hinsert
        rw [List.length_cons, entry_cons, insertFrom, hloadb, hloadc]
        simp only [Option.bind_eq_bind, Option.bind_some, if_neg hbigger]
        exact hinsert

/-- The nodes `front` are sorted and `rest` is still to do. -/
theorem sortFrom_eq (hl : Linked h none (sortByInsertion (biggerNode compare) front ++ rest))
    (hnodup : (addresses (sortByInsertion (biggerNode compare) front ++ rest)).Nodup)
    (hhead : head = entry none (sortByInsertion (biggerNode compare) front ++ rest))
    (hfuel : rest.length ≤ fuel) :
    ∃ h', sortFrom compare fuel h head (entry none rest)
        (lastLink (sortByInsertion (biggerNode compare) front)) front.length =
          some (h', entry none (sortByInsertion (biggerNode compare) (front ++ rest))) ∧
      Linked h' none (sortByInsertion (biggerNode compare) (front ++ rest)) ∧
      ∀ a, a ∉ addresses (front ++ rest) → h'.node a = h.node a := by
  induction rest generalizing h head front fuel with
  | nil =>
      rw [List.append_nil] at hl hhead ⊢
      subst hhead
      refine ⟨h, ?_, hl, fun _ _ => rfl⟩
      cases fuel <;> rfl
  | cons c rest ih =>
      obtain ⟨fuel, rfl⟩ := Nat.exists_eq_add_one_of_ne_zero (Nat.ne_zero_of_lt hfuel)
      obtain ⟨-, hc, -⟩ := linked_append.mp hl
      have hload : h.load (some c.1) = some ⟨c.2, entry none rest⟩ := hc
      obtain ⟨h₁, hinsert, hlinked, hsame⟩ :=
        @insertFrom_eq _ compare h [] _ _ rest c head hl hnodup hhead sortByInsertion_concat
      have hperm : (sortByInsertion (biggerNode compare) (front ++ [c]) ++ rest).Perm
          (sortByInsertion (biggerNode compare) front ++ c :: rest) := by
        rw [List.append_cons (sortByInsertion _ front)]
        refine List.Perm.append_right _ (sortByInsertion_perm.trans ?_)
        exact sortByInsertion_perm.symm.append_right [c]
      have hnodup₁ := (hperm.map Prod.fst).nodup_iff.mpr hnodup
      obtain ⟨h₂, hrest, hlinked₂, hsame₂⟩ :=
        ih hlinked hnodup₁ rfl (Nat.le_of_succ_le_succ hfuel)
      have hsize : (front ++ [c]).length = front.length + 1 := List.length_append
      rw [hsize] at hrest
      rw [← List.append_cons] at hrest hlinked₂ hsame₂
      rw [length_sortByInsertion] at hinsert
      refine ⟨h₂, ?_, hlinked₂, fun a ha => (hsame₂ a ha).trans (hsame a fun hmem => ha ?_)⟩
      · have hfirst : entry (some c.1) (sortByInsertion (biggerNode compare) front) = head := by
          rw [hhead, entry_append]
          rfl
        rw [hfirst] at hinsert
        rw [entry_cons, sortFrom, hload, Option.bind_eq_bind, Option.bind_some]
        rw [List.nil_append, lastLink_nil] at hinsert
        rw [hinsert, Option.bind_eq_bind, Option.bind_some]
        exact hrest
      · exact (((sortByInsertion_perm.append_right (c :: rest)).map Prod.fst).mem_iff).mp hmem

theorem Holds.sort (hv : Holds h v xs) : ∃ h', v.sort compare h =
      some (h', ⟨entry none (sortByInsertion (biggerNode compare) xs), v.vectorSize⟩) ∧
    Holds h' ⟨entry none (sortByInsertion (biggerNode compare) xs), v.vectorSize⟩
      (sortByInsertion (biggerNode compare) xs) ∧
    ∀ a, a ∉ addresses xs → h'.node a = h.node a := by
  obtain ⟨h', hsort, hlinked, hsame⟩ := @sortFrom_eq _ compare h [] xs v.head h.log.length
    hv.linked hv.nodup hv.head (hv.linked.length_le_log hv.nodup)
  refine ⟨h', ?_, ⟨⟨rfl, hlinked, ?_⟩, ?_⟩, hsame⟩
  · have hstart : sortFrom compare h.log.length h v.head v.head none 0 =
        some (h', entry none (sortByInsertion (biggerNode compare) xs)) := by
      rw [← hv.head] at hsort
      exact hsort
    rw [NodeVector.sort, hstart]
    rfl
  · exact (sortByInsertion_perm.map Prod.fst).nodup_iff.mpr hv.nodup
  · rw [length_sortByInsertion]
    exact hv.size

theorem Bigger.biggerNode {le : α → α → Prop} (hle : Bigger compare le) :
    Bigger (biggerNode compare) fun c d => le c.2 d.2 where
  total c d := hle.total c.2 d.2
  trans c d e := hle.trans c.2 d.2 e.2
  bigger_iff c d := hle.bigger_iff c.2 d.2

/-- Whatever the comparison answers, `sort` ends with the same nodes in some order; where it
tells which element is bigger, the order is that of the elements, and elements that are
tied keep their order. -/
theorem sort_sorted_stable (compare : α → α → Bool) (hv : Holds h v xs) :
    ∃ h' v' ys, v.sort compare h = some (h', v') ∧ Holds h' v' ys ∧ ys.Perm xs ∧
      v'.vectorSize = v.vectorSize ∧ (∀ a, a ∉ addresses xs → h'.node a = h.node a) ∧
      ∀ le : α → α → Prop, Bigger compare le → (ys.map Prod.snd).Pairwise le ∧
        ∀ d, ys.filter (tied (biggerNode compare) d) = xs.filter (tied (biggerNode compare) d) := by
  obtain ⟨h', hsort, hholds, hsame⟩ := @Holds.sort α compare h v xs hv
  refine ⟨h', _, _, hsort, hholds, sortByInsertion_perm, rfl, hsame, fun le hle => ?_⟩
  have hnodes := Bigger.biggerNode hle
  exact ⟨List.pairwise_map.mpr hnodes.sorted, hnodes.stable⟩

/-- A vector of `5`, `3` and `4`. -/
def threeNodes : NodeHeap ℕ :=
  ((NodeHeap.empty.insert 0 ⟨5, some 1⟩ rfl).insert 1 ⟨3, some 2⟩ rfl).insert 2 ⟨4, none⟩ rfl

theorem sort_sorted_stable_threeNodes : ∃ h' v' ys,
    NodeVector.sort (fun a b : ℕ => b < a) threeNodes ⟨some 0, 3⟩ = some (h', v') ∧
      Holds h' v' ys ∧ ys.Perm [(0, 5), (1, 3), (2, 4)] ∧ v'.vectorSize = 3 ∧
      (∀ a, a ∉ addresses [(0, 5), (1, 3), (2, 4)] → h'.node a = threeNodes.node a) ∧
      ∀ le : ℕ → ℕ → Prop, Bigger (fun a b => b < a) le → (ys.map Prod.snd).Pairwise le ∧
        ∀ d, ys.filter (tied (biggerNode fun a b : ℕ => b < a) d) =
          [(0, 5), (1, 3), (2, 4)].filter (tied (biggerNode fun a b : ℕ => b < a) d) :=
  sort_sorted_stable (v := ⟨some 0, 3⟩) _ ⟨⟨rfl, ⟨rfl, rfl, rfl, trivial⟩, by decide⟩, rfl⟩

end AviKernel.NodeVector
