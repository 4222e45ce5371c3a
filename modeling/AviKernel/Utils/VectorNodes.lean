import AviKernel.Library.NodeChain

/-!
# The Vector container as nodes

A vector has a chain of nodes and keeps its length beside it.  Going past the end of a
chain, a second deletion, a panic and a loop that does not end have no result.
-/

namespace AviKernel

structure NodeVector where
  head : Link
  vectorSize : ℤ

namespace NodeVector

open NodeHeap

section Definitions

variable {α : Type} (h : NodeHeap α) (v : NodeVector) (index : ℤ)

def size : ℤ := v.vectorSize

def empty : Bool := v.vectorSize = 0

def panicIfIllegalIndex : Option Unit :=
  if index + 1 > v.size then none else if index < 0 then none else some ()

/-- The loop of `get_node`. -/
def advance : ℕ → Link → Option Link
  | 0, node => some node
  | n + 1, node => do
      let node ← h.load node
      advance n node.next

def getNode : Option Link := do
  v.panicIfIllegalIndex index
  advance h index.toNat v.head

def get : Option α := do
  let node ← v.getNode h index
  let node ← h.load node
  some node.data

/-- The loop of `exist` with the elements still to do. -/
def existFrom [BEq α] (obj : α) : ℕ → Option Bool
  | 0 => some false
  | todo + 1 => do
      let data ← v.get h (v.size - (todo + 1 : ℕ))
      if data == obj then some true else existFrom obj todo

def exist [BEq α] (obj : α) : Option Bool := v.existFrom h obj v.size.toNat

/-- The loop of `append_node`, which takes at most as many turns as there are nodes. -/
def lastFrom : ℕ → Link → Option Link
  | 0, _ => none
  | fuel + 1, node => do
      let n ← h.load node
      if n.next = none then some node else lastFrom fuel n.next

def appendNode (newNode : Link) : Option (NodeHeap α × NodeVector) :=
  if v.head = none then some (h, ⟨newNode, v.vectorSize + 1⟩)
  else do
    let node ← lastFrom h h.log.length v.head
    let h ← h.setNext node newNode
    some (h, ⟨v.head, v.vectorSize + 1⟩)

def append (allocator : NodeAllocator α) (data : α) : Option (NodeHeap α × NodeVector) := do
  let (newNode, h) ← h.new allocator ⟨data, none⟩
  v.appendNode h (some newNode)

/-- The loop of `free_data`. -/
def freeFrom : ℕ → NodeHeap α → Link → Option (NodeHeap α)
  | _, h, none => some h
  | 0, _, some _ => none
  | fuel + 1, h, some head => do
      let n ← h.load (some head)
      let h ← h.delete (some head)
      freeFrom fuel h n.next

def freeData : Option (NodeHeap α × NodeVector) := do
  let h ← freeFrom h.log.length h v.head
  some (h, ⟨none, v.vectorSize⟩)

def emptyVector : NodeVector := ⟨none, 0⟩

def remove : Option (NodeHeap α × NodeVector) := do
  v.panicIfIllegalIndex index
  if index = 0 then do
    let node ← h.load v.head
    let h ← h.delete v.head
    some (h, ⟨node.next, v.vectorSize - 1⟩)
  else do
    let before ← v.getNode h (index - 1)
    let node ← h.load before
    let target ← h.load node.next
    let h ← h.delete node.next
    let h ← h.setNext before target.next
    some (h, ⟨v.head, v.vectorSize - 1⟩)

/-- The loop of `pop_back`. -/
def beforeLastFrom : ℕ → Link → Option Link
  | 0, _ => none
  | fuel + 1, ptr => do
      let node ← h.load ptr
      let last ← h.load node.next
      if last.next = none then some ptr else beforeLastFrom fuel node.next

def popBack : Option (NodeHeap α × NodeVector) :=
  if v.empty then none
  else if v.size = 1 then do
    let (h, _) ← v.freeData h
    some (h, emptyVector)
  else do
    let ptr ← beforeLastFrom h h.log.length v.head
    let node ← h.load ptr
    let h ← h.delete node.next
    let h ← h.setNext ptr none
    some (h, ⟨v.head, v.vectorSize - 1⟩)

end Definitions

/-! ## The elements of a vector -/

variable {α : Type} {h h' : NodeHeap α} {v v' : NodeVector} {xs ys : List (ℕ × α)}
  {b c d : ℕ × α} {q : Link} {i fuel : ℕ} {a : α} {allocator : NodeAllocator α}

/-- The chain from the head has the nodes `xs`, and the length is theirs. -/
structure Holds (h : NodeHeap α) (v : NodeVector) (xs : List (ℕ × α)) : Prop extends
    Chain h v.head xs where
  size : v.vectorSize = xs.length

theorem holds_emptyVector : Holds h emptyVector [] := ⟨chain_nil, rfl⟩

theorem Holds.congr (hv : Holds h v xs) (hsame : ∀ a ∈ addresses xs, h'.node a = h.node a) :
    Holds h' v xs := ⟨hv.toChain.congr hsame, hv.size⟩

theorem Holds.panicIfIllegalIndex (hv : Holds h v xs) (hi : i < xs.length) :
    v.panicIfIllegalIndex i = some () := by
  have hsize := hv.size
  rw [NodeVector.panicIfIllegalIndex, NodeVector.size, if_neg (by omega), if_neg (by omega)]

theorem advance_eq (hl : Linked h q (xs ++ ys)) :
    advance h xs.length (entry q (xs ++ ys)) = some (entry q ys) := by
  induction xs with
  | nil => rfl
  | cons c xs ih =>
      obtain ⟨hc, hrest⟩ := hl
      have hload : h.load (some c.1) = some ⟨c.2, entry q (xs ++ ys)⟩ := hc
      rw [List.cons_append, entry_cons, List.length_cons, advance, hload]
      exact ih hrest

theorem Holds.getNode (hv : Holds h v (xs ++ c :: ys)) :
    v.getNode h xs.length = some (some c.1) := by
  rw [NodeVector.getNode, hv.panicIfIllegalIndex (by simp), hv.head, Int.toNat_natCast]
  exact advance_eq hv.linked

theorem Holds.get (hv : Holds h v (xs ++ c :: ys)) : v.get h xs.length = some c.2 := by
  have hload : h.load (some c.1) = some ⟨c.2, entry none ys⟩ := (linked_append.mp hv.linked).2.1
  rw [NodeVector.get, hv.getNode, Option.bind_eq_bind, Option.bind_some, hload]
  rfl

theorem Holds.get_eq (hv : Holds h v xs) (hi : i < xs.length) : v.get h i = some xs[i].2 := by
  have hsplit : xs = xs.take i ++ xs[i] :: xs.drop (i + 1) := by simp
  rw [hsplit] at hv
  have hget := hv.get
  rwa [List.length_take_of_le hi.le] at hget

theorem Holds.existFrom [BEq α] (hv : Holds h v xs) (htodo : i ≤ xs.length) :
    v.existFrom h a i = some ((xs.drop (xs.length - i)).any fun c => c.2 == a) := by
  induction i with
  | zero =>
      rw [Nat.sub_zero, List.drop_length]
      rfl
  | succ i ih =>
      have hlt : xs.length - (i + 1) < xs.length := by omega
      have hindex : v.size - (i + 1 : ℕ) = (xs.length - (i + 1) : ℕ) := by
        have hsize := hv.size
        rw [NodeVector.size]
        omega
      have hnext : xs.length - (i + 1) + 1 = xs.length - i := by omega
      rw [NodeVector.existFrom, hindex, hv.get_eq hlt, Option.bind_eq_bind, Option.bind_some,
        ih (by omega), List.drop_eq_getElem_cons hlt, hnext, List.any_cons]
      split
      · next heq => rw [heq, Bool.true_or]
      · next hne => rw [Bool.eq_false_of_not_eq_true hne, Bool.false_or]

theorem Holds.exist [BEq α] (hv : Holds h v xs) :
    v.exist h a = some (xs.any fun c => c.2 == a) := by
  rw [NodeVector.exist, NodeVector.size, hv.size, Int.toNat_natCast, hv.existFrom le_rfl,
    Nat.sub_self, List.drop_zero]

theorem Holds.empty_eq (hv : Holds h v xs) : v.empty = xs.isEmpty := by
  rw [NodeVector.empty, hv.size]
  cases xs with
  | nil => rfl
  | cons c xs => exact decide_eq_false (by simp; omega)

/-! ## Appending -/

theorem lastFrom_eq (hl : Linked h none (xs ++ [c])) (hfuel : xs.length < fuel) :
    lastFrom h fuel (entry none (xs ++ [c])) = some (some c.1) := by
  induction xs generalizing fuel with
  | nil =>
      obtain ⟨fuel, rfl⟩ := Nat.exists_eq_add_one_of_ne_zero (Nat.ne_zero_of_lt hfuel)
      have hload : h.load (some c.1) = some ⟨c.2, none⟩ := hl.1
      rw [List.nil_append, entry_cons, lastFrom, hload]
      rfl
  | cons b xs ih =>
      obtain ⟨fuel, rfl⟩ := Nat.exists_eq_add_one_of_ne_zero (Nat.ne_zero_of_lt hfuel)
      obtain ⟨hb, hrest⟩ := hl
      have hload : h.load (some b.1) = some ⟨b.2, entry none (xs ++ [c])⟩ := hb
      have hmore : entry none (xs ++ [c]) ≠ none := fun hnone => by
        simpa using entry_eq_none.mp hnone
      rw [List.cons_append, entry_cons, lastFrom, hload, Option.bind_eq_bind, Option.bind_some,
        if_neg hmore]
      exact ih hrest (Nat.lt_of_succ_lt_succ hfuel)

/-- A new node that points nowhere comes behind all others. -/
theorem Holds.appendNode (hv : Holds h v xs) (hd : h.node d.1 = some ⟨d.2, none⟩)
    (hnew : d.1 ∉ addresses xs) : ∃ h' v', v.appendNode h (some d.1) = some (h', v') ∧
      Holds h' v' (xs ++ [d]) ∧ ∀ a, a ∉ addresses xs → h'.node a = h.node a := by
  have hsize := hv.size
  rcases List.eq_nil_or_concat xs with rfl | ⟨xs, c, rfl⟩
  · refine ⟨h, ⟨some d.1, v.vectorSize + 1⟩, if_pos hv.head, ⟨⟨rfl, ⟨hd, trivial⟩, by simp⟩, ?_⟩,
      fun _ _ => rfl⟩
    rw [hsize]
    rfl
  · rw [List.concat_eq_append] at *
    have hhead : v.head ≠ none := fun hnone => by
      simpa using entry_eq_none.mp (hv.head.symm.trans hnone)
    have hlength := hv.linked.length_le_log hv.nodup
    rw [List.length_append, List.length_singleton] at hlength
    have hlast : lastFrom h h.log.length v.head = some (some c.1) := by
      rw [hv.head]
      exact lastFrom_eq hv.linked hlength
    obtain ⟨h', hset, hchain, hsame⟩ := hv.toChain.concat (by simp) hd hnew
    rw [lastLink_concat] at hset
    refine ⟨h', ⟨v.head, v.vectorSize + 1⟩, ?_, ⟨hchain, ?_⟩, hsame⟩
    · simp only [NodeVector.appendNode, if_neg hhead, hlast, hset, Option.bind_eq_bind,
        Option.bind_some]
    · rw [hsize]
      simp only [List.length_append, List.length_singleton, Nat.cast_add, Nat.cast_one]

theorem Holds.append (hv : Holds h v xs) (hpick : allocator.pick h = some c.1) :
    ∃ h' v', v.append h allocator c.2 = some (h', v') ∧ Holds h' v' (xs ++ [c]) ∧
      Turns h h' xs (xs ++ [c]) := by
  obtain ⟨h₁, hnew, hnode, hsame⟩ := @new_eq _ h c.1 ⟨c.2, none⟩ allocator hpick
  have hdead : h.node c.1 = none := allocator.fresh h c.1 hpick
  have hnot := hv.toChain.notMem hdead
  have hold : Holds h₁ v xs :=
    hv.congr fun a ha => hsame a (ne_of_mem_of_not_mem ha hnot)
  obtain ⟨h₂, v₂, happend, hholds, hkept⟩ := hold.appendNode hnode hnot
  refine ⟨h₂, v₂, ?_, hholds, ⟨fun a ha hc => ?_, fun a ha hn => ?_, fun a ha hn => ?_⟩⟩
  · rw [NodeVector.append, hnew]
    exact happend
  · rw [hkept a ha, hsame a fun heq => hc (by simp [heq])]
  · rw [addresses_append] at ha
    rcases List.mem_append.mp ha with ha | ha
    · exact absurd ha hn
    · rw [List.mem_singleton.mp ha, hdead]
  · exact absurd (by simp [ha]) hn

/-! ## Removing -/

theorem freeFrom_eq (hl : Linked h none xs) (hnodup : (addresses xs).Nodup)
    (hfuel : xs.length ≤ fuel) : ∃ h', freeFrom fuel h (entry none xs) = some h' ∧
      Turns h h' xs [] := by
  induction xs generalizing h fuel with
  | nil =>
      refine ⟨h, ?_, Turns.refl h []⟩
      cases fuel <;> rfl
  | cons c xs ih =>
      obtain ⟨fuel, rfl⟩ := Nat.exists_eq_add_one_of_ne_zero (Nat.ne_zero_of_lt hfuel)
      obtain ⟨hc, hrest⟩ := hl
      obtain ⟨hnot, hnodup⟩ := List.nodup_cons.mp hnodup
      obtain ⟨h₁, hdelete, hgone, hsame, -⟩ := delete_eq hc
      have hload : h.load (some c.1) = some ⟨c.2, entry none xs⟩ := hc
      have hrest₁ : Linked h₁ none xs :=
        hrest.congr fun a ha => hsame a (ne_of_mem_of_not_mem ha hnot)
      obtain ⟨h₂, hfree, hturns⟩ := ih hrest₁ hnodup (Nat.le_of_succ_le_succ hfuel)
      refine ⟨h₂, ?_, ⟨fun a ha _ => ?_, fun a ha => absurd ha List.not_mem_nil,
        fun a ha _ => ?_⟩⟩
      · rw [entry_cons, freeFrom, hload, Option.bind_eq_bind, Option.bind_some, hdelete]
        exact hfree
      · rw [addresses_cons, List.mem_cons, not_or] at ha
        rw [hturns.kept a ha.2 List.not_mem_nil, hsame a ha.1]
      · rcases List.mem_cons.mp ha with rfl | ha
        · rw [hturns.kept c.1 hnot List.not_mem_nil, hgone]
        · exact hturns.gone a ha List.not_mem_nil

theorem Holds.freeData (hv : Holds h v xs) :
    ∃ h', v.freeData h = some (h', ⟨none, v.vectorSize⟩) ∧ Turns h h' xs [] := by
  obtain ⟨h', hfree, hturns⟩ :=
    freeFrom_eq hv.linked hv.nodup (hv.linked.length_le_log hv.nodup)
  refine ⟨h', ?_, hturns⟩
  rw [NodeVector.freeData, hv.head, hfree]
  rfl

/-- What taking out a node does to the nodes. -/
theorem turns_erase (hgone : h'.node c.1 = none)
    (hsame : ∀ a, a ∉ addresses (xs ++ ys) → a ≠ c.1 → h'.node a = h.node a) :
    Turns h h' (xs ++ c :: ys) (xs ++ ys) := by
  refine ⟨fun a ha hn => ?_, fun a ha hn => ?_, fun a ha hn => ?_⟩
  · exact hsame a hn fun heq => ha (by simp [heq])
  · exact absurd (by simp_all) hn
  · have heq : a = c.1 := by
      simp only [addresses_append, addresses_cons, List.mem_append, List.mem_cons] at ha hn
      tauto
    rw [heq, hgone]

/-- The node behind `b` is deleted and `b` linked to the next one. -/
theorem erase_next (hl : Linked h none (xs ++ b :: c :: ys))
    (hnodup : (addresses (xs ++ b :: c :: ys)).Nodup) : ∃ h₁ h₂, h.delete (some c.1) = some h₁ ∧
      h₁.setNext (some b.1) (entry none ys) = some h₂ ∧ Linked h₂ none (xs ++ b :: ys) ∧
      Turns h h₂ (xs ++ b :: c :: ys) (xs ++ b :: ys) := by
  obtain ⟨-, hb, hc, -⟩ := linked_append.mp hl
  have hne : b.1 ≠ c.1 := by
    simp only [addresses_append, addresses_cons, List.nodup_append, List.nodup_cons,
      List.mem_cons, not_or] at hnodup
    exact hnodup.2.1.1.1
  obtain ⟨h₁, hdelete, hgone, hsame, -⟩ := delete_eq hc
  have hb₁ := (hsame b.1 hne).trans hb
  have hother : ∀ a, a ≠ b.1 → a ≠ c.1 →
      (h₁.relink b.1 (entry none ys)).node a = h.node a := fun a hab hac =>
    (relink_of_ne hab).trans (hsame a hac)
  have hlast : (h₁.relink b.1 (entry none ys)).node c.1 = none :=
    (relink_of_ne hne.symm).trans hgone
  refine ⟨h₁, h₁.relink b.1 (entry none ys), hdelete, setNext_eq hb₁,
    hl.unlink hnodup (relink_self hb₁) hother, ?_⟩
  rw [List.append_cons xs b (c :: ys), List.append_cons xs b ys]
  exact turns_erase hlast fun a ha hac => hother a (fun heq => ha (by simp [heq])) hac

theorem nodup_erase (hnodup : (addresses (xs ++ c :: ys)).Nodup) : (addresses (xs ++ ys)).Nodup := by
  have hsub : (xs ++ ys).Sublist (xs ++ c :: ys) :=
    (List.Sublist.refl xs).append (List.sublist_cons_self c ys)
  exact hnodup.sublist (hsub.map Prod.fst)

theorem Holds.remove (hv : Holds h v (xs ++ c :: ys)) :
    ∃ h' v', v.remove h xs.length = some (h', v') ∧ Holds h' v' (xs ++ ys) ∧
      Turns h h' (xs ++ c :: ys) (xs ++ ys) := by
  have hindex : v.panicIfIllegalIndex xs.length = some () := hv.panicIfIllegalIndex (by simp)
  have hnodup := nodup_erase hv.nodup
  have hsize : v.vectorSize - 1 = (xs ++ ys).length := by
    rw [hv.size]
    simp only [List.length_append, List.length_cons]
    omega
  rcases List.eq_nil_or_concat xs with rfl | ⟨xs, b, rfl⟩
  · obtain ⟨hc, hrest⟩ := hv.linked
    obtain ⟨hnot, -⟩ := List.nodup_cons.mp hv.nodup
    obtain ⟨h₁, hdelete, hgone, hsame, -⟩ := delete_eq hc
    have hload : h.load (some c.1) = some ⟨c.2, entry none ys⟩ := hc
    refine ⟨h₁, ⟨entry none ys, v.vectorSize - 1⟩, ?_, ⟨⟨rfl, ?_, hnodup⟩, hsize⟩, ?_⟩
    · have hzero : (([] : List (ℕ × α)).length : ℤ) = 0 := rfl
      have hhead : v.head = some c.1 := hv.head
      simp only [NodeVector.remove, hindex, if_pos hzero, hhead, hload, hdelete,
        Option.bind_eq_bind, Option.bind_some]
    · exact hrest.congr fun a ha => hsame a (ne_of_mem_of_not_mem ha hnot)
    · exact turns_erase hgone fun a _ hac => hsame a hac
  · rw [List.concat_eq_append, List.append_assoc] at *
    obtain ⟨h₁, h₂, hdelete, hset, hlinked, hturns⟩ := erase_next hv.linked hv.nodup
    obtain ⟨-, hb, hc, -⟩ := linked_append.mp hv.linked
    have hloadb : h.load (some b.1) = some ⟨b.2, some c.1⟩ := hb
    have hloadc : h.load (some c.1) = some ⟨c.2, entry none ys⟩ := hc
    have hbefore : v.getNode h ((xs ++ [b]).length - 1 : ℤ) = some (some b.1) := by
      have hcast : ((xs ++ [b]).length : ℤ) - 1 = xs.length := by simp
      have hshape : Holds h v (xs ++ b :: c :: ys) := hv
      rw [hcast]
      exact hshape.getNode
    have hzero : ((xs ++ [b]).length : ℤ) ≠ 0 := by
      simp only [List.length_append, List.length_singleton]
      omega
    refine ⟨h₂, ⟨v.head, v.vectorSize - 1⟩, ?_, ⟨⟨?_, hlinked, hnodup⟩, hsize⟩, ?_⟩
    · simp only [NodeVector.remove, hindex, if_neg hzero, hbefore, hloadb, hloadc, hdelete, hset,
        Option.bind_eq_bind, Option.bind_some]
    · rw [hv.head]
      simp only [entry_append, entry_cons, List.singleton_append]
    · rwa [List.append_assoc]

theorem beforeLastFrom_eq (hl : Linked h none (xs ++ [b, c])) (hfuel : xs.length < fuel) :
    beforeLastFrom h fuel (entry none (xs ++ [b, c])) = some (some b.1) := by
  induction xs generalizing fuel with
  | nil =>
      obtain ⟨fuel, rfl⟩ := Nat.exists_eq_add_one_of_ne_zero (Nat.ne_zero_of_lt hfuel)
      obtain ⟨hb, hc, -⟩ := hl
      have hloadb : h.load (some b.1) = some ⟨b.2, some c.1⟩ := hb
      have hloadc : h.load (some c.1) = some ⟨c.2, none⟩ := hc
      rw [List.nil_append, entry_cons, beforeLastFrom, hloadb, Option.bind_eq_bind,
        Option.bind_some, hloadc]
      rfl
  | cons d xs ih =>
      obtain ⟨fuel, rfl⟩ := Nat.exists_eq_add_one_of_ne_zero (Nat.ne_zero_of_lt hfuel)
      obtain ⟨hd, hrest⟩ := hl
      have hloadd : h.load (some d.1) = some ⟨d.2, entry none (xs ++ [b, c])⟩ := hd
      obtain ⟨n, hloadn, hmore⟩ : ∃ n, h.load (entry none (xs ++ [b, c])) = some n ∧
          n.next ≠ none := by
        cases xs with
        | nil => exact ⟨_, hrest.1, by simp⟩
        | cons e xs => exact ⟨_, hrest.1, fun hnone => by simpa using entry_eq_none.mp hnone⟩
      rw [List.cons_append, entry_cons, beforeLastFrom, hloadd, Option.bind_eq_bind,
        Option.bind_some, hloadn, Option.bind_some, if_neg hmore]
      exact ih hrest (Nat.lt_of_succ_lt_succ hfuel)

theorem Holds.removeAt {i : ℕ} (hv : Holds h v xs) (hi : i < xs.length) :
    ∃ h' v', v.remove h i = some (h', v') ∧ Holds h' v' (xs.eraseIdx i) ∧
      Turns h h' xs (xs.eraseIdx i) := by
  have hsplit : xs = xs.take i ++ xs[i] :: xs.drop (i + 1) := by simp
  have herase : xs.eraseIdx i = xs.take i ++ xs.drop (i + 1) := List.eraseIdx_eq_take_drop_succ xs i
  rw [hsplit] at hv
  obtain ⟨h', v', hremove, hholds, hturns⟩ := hv.remove
  rw [List.length_take_of_le hi.le] at hremove
  rw [← hsplit, ← herase] at hturns
  rw [← herase] at hholds
  exact ⟨h', v', hremove, hholds, hturns⟩

theorem Holds.popBack (hv : Holds h v (xs ++ [c])) : ∃ h' v', v.popBack h = some (h', v') ∧
    Holds h' v' xs ∧ Turns h h' (xs ++ [c]) xs := by
  have hsize := hv.size
  rcases List.eq_nil_or_concat xs with rfl | ⟨xs, b, rfl⟩
  · obtain ⟨h', hfree, hturns⟩ := hv.freeData
    have hempty : v.empty = false := decide_eq_false (by simp [hsize])
    refine ⟨h', emptyVector, ?_, holds_emptyVector, hturns⟩
    have hone : v.size = 1 := hsize
    rw [NodeVector.popBack, hempty, if_neg Bool.false_ne_true, if_pos hone, hfree]
    rfl
  · rw [List.concat_eq_append, List.append_assoc] at *
    obtain ⟨h₁, h₂, hdelete, hset, hlinked, hturns⟩ := erase_next hv.linked hv.nodup
    obtain ⟨-, hb, -⟩ := linked_append.mp hv.linked
    have hload : h.load (some b.1) = some ⟨b.2, some c.1⟩ := hb
    have hlength := hv.linked.length_le_log hv.nodup
    simp only [List.length_append, List.length_cons, List.length_nil] at hsize hlength
    have hempty : v.empty = false := decide_eq_false (by omega)
    have hone : v.size ≠ 1 := by
      rw [NodeVector.size]
      omega
    have hlast : beforeLastFrom h h.log.length v.head = some (some b.1) := by
      rw [hv.head]
      exact beforeLastFrom_eq hv.linked (by omega)
    refine ⟨h₂, ⟨v.head, v.vectorSize - 1⟩, ?_, ⟨⟨?_, hlinked, ?_⟩, ?_⟩, hturns⟩
    · rw [entry_nil] at hset
      simp only [NodeVector.popBack, hempty, if_neg Bool.false_ne_true, if_neg hone, hlast, hload,
        hdelete, hset, Option.bind_eq_bind, Option.bind_some]
    · rw [hv.head]
      simp only [entry_append, entry_cons, List.singleton_append]
    · have hsub : (xs ++ [b]).Sublist (xs ++ [b, c]) :=
        (List.Sublist.refl xs).append (List.sublist_append_left [b] [c])
      exact hv.nodup.sublist (hsub.map Prod.fst)
    · simp only [List.length_append, List.length_singleton]
      omega

end NodeVector

end AviKernel
