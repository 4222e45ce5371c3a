import Mathlib.Tactic

/-!
# Chains of nodes

Nodes are allocated one by one, and each points to the next.  A chain is told by the list
of its nodes, each an address with what is stored there.  The heap counts how often each
address was allocated and deleted.
-/

namespace AviKernel

/-- A pointer to a node; `none` is null. -/
abbrev Link := Option ℕ

structure Node (α : Type*) where
  data : α
  next : Link

inductive NodeEvent
  | new (a : ℕ)
  | delete (a : ℕ)
deriving DecidableEq

structure NodeHeap (α : Type*) where
  node : ℕ → Option (Node α)
  log : List NodeEvent
  balanced : ∀ a, log.count (.new a) = log.count (.delete a) + if (node a).isSome then 1 else 0

/-- It may answer that there is no memory. -/
structure NodeAllocator (α : Type*) where
  pick : NodeHeap α → Option ℕ
  fresh : ∀ h a, pick h = some a → h.node a = none

def NodeAllocator.Succeeds {α : Type*} (allocator : NodeAllocator α) : Prop :=
  ∀ h, allocator.pick h ≠ none

variable {α : Type*} {h h' h'' : NodeHeap α} {a b : ℕ} {n : Node α} {p q : Link}
  {c : ℕ × α} {xs ys zs : List (ℕ × α)} {allocator : NodeAllocator α}

namespace NodeHeap

def empty : NodeHeap α := ⟨fun _ => none, [], by simp⟩

def load (h : NodeHeap α) (p : Link) : Option (Node α) := p.bind h.node

/-- The node at `a` points to `q`. -/
def relink (h : NodeHeap α) (a : ℕ) (q : Link) : NodeHeap α where
  node := Function.update h.node a ((h.node a).map fun n => { n with next := q })
  log := h.log
  balanced := by
    intro b
    rw [h.balanced b]
    by_cases hb : b = a
    · subst hb
      rw [Function.update_self, Option.isSome_map]
    · rw [Function.update_of_ne hb]

def setNext (h : NodeHeap α) (p q : Link) : Option (NodeHeap α) :=
  p.bind fun a => (h.node a).map fun _ => h.relink a q

def insert (h : NodeHeap α) (a : ℕ) (n : Node α) (hdead : h.node a = none) : NodeHeap α where
  node := Function.update h.node a (some n)
  log := h.log ++ [.new a]
  balanced := by
    intro b
    have hcount := h.balanced b
    by_cases hb : b = a
    · subst hb
      rw [hdead] at hcount
      simpa using hcount
    · simpa [Function.update_of_ne hb, Ne.symm hb] using hcount

def erase (h : NodeHeap α) (a : ℕ) (hlive : (h.node a).isSome) : NodeHeap α where
  node := Function.update h.node a none
  log := h.log ++ [.delete a]
  balanced := by
    intro b
    have hcount := h.balanced b
    by_cases hb : b = a
    · subst hb
      simpa [hlive] using hcount
    · simpa [Function.update_of_ne hb, Ne.symm hb] using hcount

/-- The address of a node that is made, and the heap with it. -/
def new (h : NodeHeap α) (allocator : NodeAllocator α) (n : Node α) : Option (ℕ × NodeHeap α) :=
  match hpick : allocator.pick h with
  | none => none
  | some a => some (a, h.insert a n (allocator.fresh h a hpick))

/-- A node is not deleted twice. -/
def delete (h : NodeHeap α) : Link → Option (NodeHeap α)
  | none => none
  | some a => if hlive : (h.node a).isSome then some (h.erase a hlive) else none

theorem setNext_eq (ha : h.node a = some n) : h.setNext (some a) q = some (h.relink a q) := by
  rw [setNext, Option.bind_some, ha, Option.map_some]

theorem relink_self (ha : h.node a = some n) : (h.relink a q).node a = some ⟨n.data, q⟩ := by
  have hself : (h.relink a q).node a = (h.node a).map fun n => ⟨n.data, q⟩ :=
    Function.update_self _ _ _
  rw [hself, ha, Option.map_some]

theorem relink_of_ne (hne : b ≠ a) : (h.relink a q).node b = h.node b :=
  Function.update_of_ne hne _ _

theorem new_eq (hpick : allocator.pick h = some a) : ∃ h', h.new allocator n = some (a, h') ∧
    h'.node a = some n ∧ ∀ b, b ≠ a → h'.node b = h.node b := by
  refine ⟨h.insert a n (allocator.fresh h a hpick), ?_, Function.update_self _ _ _,
    fun b hb => Function.update_of_ne hb _ _⟩
  unfold new
  split
  · next hnone =>
      rw [hpick] at hnone
      cases hnone
  · next b hb =>
      obtain rfl : a = b := Option.some.inj (hpick.symm.trans hb)
      rfl

theorem new_eq_none (hpick : allocator.pick h = none) : h.new allocator n = none := by
  unfold new
  split
  · rfl
  · next a ha =>
      rw [hpick] at ha
      cases ha

theorem delete_eq (ha : h.node a = some n) : ∃ h', h.delete (some a) = some h' ∧
    h'.node a = none ∧ (∀ b, b ≠ a → h'.node b = h.node b) ∧
    h'.log.length = h.log.length + 1 := by
  have hlive : (h.node a).isSome := by rw [ha, Option.isSome_some]
  exact ⟨h.erase a hlive, dif_pos hlive, Function.update_self _ _ _,
    fun b hb => Function.update_of_ne hb _ _, List.length_append⟩

/-- What is in use was allocated. -/
theorem new_mem_log (ha : h.node a = some n) : NodeEvent.new a ∈ h.log := by
  have hcount := h.balanced a
  rw [ha, Option.isSome_some, if_pos rfl] at hcount
  exact List.count_pos_iff.mp (by omega)

/-- There are at most as many nodes as were allocated, so a walk that takes longer does not
end. -/
theorem length_le_log {as : List ℕ} (hnodup : as.Nodup) (hlive : ∀ a ∈ as, (h.node a).isSome) :
    as.length ≤ h.log.length := by
  have hsub : as.map NodeEvent.new ⊆ h.log := by
    intro e he
    obtain ⟨a, ha, rfl⟩ := List.mem_map.mp he
    obtain ⟨n, hn⟩ := Option.isSome_iff_exists.mp (hlive a ha)
    exact new_mem_log hn
  have hinj : Function.Injective NodeEvent.new := fun a b hab => by
    cases hab
    rfl
  have hle := ((hnodup.map hinj).subperm hsub).length_le
  rwa [List.length_map] at hle

end NodeHeap

open NodeHeap

def NodeEvent.limit : NodeEvent → ℕ
  | .new a => a + 1
  | .delete _ => 0

/-- It goes on behind all that there ever was. -/
def NodeAllocator.beyond : NodeAllocator α where
  pick h := some (h.log.map NodeEvent.limit).sum
  fresh := by
    intro h a ha
    obtain rfl := Option.some.inj ha
    by_contra hlive
    obtain ⟨n, hn⟩ := Option.ne_none_iff_exists'.mp hlive
    have hle := List.le_sum_of_mem (List.mem_map_of_mem (f := NodeEvent.limit) (new_mem_log hn))
    exact Nat.not_succ_le_self _ hle

theorem NodeAllocator.beyond_succeeds : (NodeAllocator.beyond : NodeAllocator α).Succeeds :=
  fun _ => Option.some_ne_none _

/-! ## Segments -/

/-- Where the nodes begin; `q` where there are none. -/
def entry (q : Link) : List (ℕ × α) → Link
  | [] => q
  | c :: _ => some c.1

@[simp] theorem entry_nil : entry q ([] : List (ℕ × α)) = q := rfl

@[simp] theorem entry_cons : entry q (c :: xs) = some c.1 := rfl

@[simp] theorem entry_append : entry q (xs ++ ys) = entry (entry q ys) xs := by
  cases xs <;> rfl

theorem entry_eq_none : entry none xs = none ↔ xs = [] := by
  cases xs <;> simp

/-- The nodes are linked in order, and the last one points to `q`. -/
def Linked (h : NodeHeap α) (q : Link) : List (ℕ × α) → Prop
  | [] => True
  | c :: cs => h.node c.1 = some ⟨c.2, entry q cs⟩ ∧ Linked h q cs

@[simp] theorem linked_nil : Linked h q [] := trivial

@[simp] theorem linked_cons :
    Linked h q (c :: xs) ↔ h.node c.1 = some ⟨c.2, entry q xs⟩ ∧ Linked h q xs := Iff.rfl

theorem linked_append :
    Linked h q (xs ++ ys) ↔ Linked h (entry q ys) xs ∧ Linked h q ys := by
  induction xs with
  | nil => simp
  | cons c xs ih =>
      rw [List.cons_append, linked_cons, linked_cons, entry_append, ih, and_assoc]

def addresses (xs : List (ℕ × α)) : List ℕ := xs.map Prod.fst

@[simp] theorem addresses_nil : addresses ([] : List (ℕ × α)) = [] := rfl

@[simp] theorem addresses_cons : addresses (c :: xs) = c.1 :: addresses xs := rfl

@[simp] theorem addresses_append : addresses (xs ++ ys) = addresses xs ++ addresses ys :=
  List.map_append

@[simp] theorem length_addresses : (addresses xs).length = xs.length := List.length_map _

theorem nodup_concat (hnodup : (addresses xs).Nodup) (hc : c.1 ∉ addresses xs) :
    (addresses (xs ++ [c])).Nodup := by
  rw [addresses_append]
  refine List.nodup_append.mpr ⟨hnodup, List.nodup_singleton _, fun a ha b hb => ?_⟩
  rw [List.mem_singleton.mp hb]
  exact ne_of_mem_of_not_mem ha hc

theorem Linked.live (hl : Linked h q xs) : ∀ a ∈ addresses xs, (h.node a).isSome := by
  induction xs with
  | nil => simp
  | cons c xs ih =>
      rw [addresses_cons, List.forall_mem_cons]
      exact ⟨by rw [hl.1, Option.isSome_some], ih hl.2⟩

theorem Linked.congr (hl : Linked h q xs) (hsame : ∀ a ∈ addresses xs, h'.node a = h.node a) :
    Linked h' q xs := by
  induction xs with
  | nil => trivial
  | cons c xs ih =>
      rw [addresses_cons, List.forall_mem_cons] at hsame
      exact ⟨hsame.1.trans hl.1, ih hl.2 hsame.2⟩

/-- A node outside the segment may point elsewhere. -/
theorem Linked.relink (hl : Linked h q xs) (ha : a ∉ addresses xs) :
    Linked (h.relink a p) q xs :=
  hl.congr fun _ hb => relink_of_ne (ne_of_mem_of_not_mem hb ha)

/-- The last node of the segment points elsewhere. -/
theorem Linked.relink_last (hl : Linked h q (xs ++ [c])) (hnodup : (addresses (xs ++ [c])).Nodup) :
    Linked (h.relink c.1 p) p (xs ++ [c]) := by
  rw [addresses_append, List.nodup_append] at hnodup
  have hc : c.1 ∉ addresses xs := fun hmem =>
    hnodup.2.2 c.1 hmem c.1 (List.mem_singleton.mpr rfl) rfl
  obtain ⟨hxs, hlast, -⟩ := linked_append.mp hl
  exact linked_append.mpr ⟨hxs.relink hc, relink_self hlast, trivial⟩

/-- The node `c` behind `b` is taken out of the segment. -/
theorem Linked.unlink {b : ℕ × α} (hl : Linked h q (xs ++ b :: c :: ys))
    (hnodup : (addresses (xs ++ b :: c :: ys)).Nodup)
    (hb : h'.node b.1 = some ⟨b.2, entry q ys⟩)
    (hsame : ∀ a, a ≠ b.1 → a ≠ c.1 → h'.node a = h.node a) :
    Linked h' q (xs ++ b :: ys) := by
  simp only [addresses_append, addresses_cons, List.nodup_append, List.nodup_cons,
    List.mem_cons, not_or, forall_eq_or_imp] at hnodup
  obtain ⟨-, ⟨⟨-, hbys⟩, hcys, -⟩, hxs⟩ := hnodup
  obtain ⟨hfirst, -, -, hrest⟩ := linked_append.mp hl
  refine linked_append.mpr ⟨hfirst.congr fun a ha => ?_, hb, hrest.congr fun a ha => ?_⟩
  · exact hsame a (hxs a ha).1 (hxs a ha).2.1
  · exact hsame a (ne_of_mem_of_not_mem ha hbys) (ne_of_mem_of_not_mem ha hcys)

/-- The address of the last node. -/
def lastLink (xs : List (ℕ × α)) : Link := xs.getLast?.map Prod.fst

@[simp] theorem lastLink_nil : lastLink ([] : List (ℕ × α)) = none := rfl

@[simp] theorem lastLink_concat : lastLink (xs ++ [c]) = some c.1 := by
  rw [lastLink, List.getLast?_concat, Option.map_some]

theorem lastLink_append (hys : ys ≠ []) : lastLink (xs ++ ys) = lastLink ys := by
  rw [lastLink, lastLink, List.getLast?_append_of_ne_nil xs hys]

/-- The last node of a segment, if there is one, points elsewhere. -/
theorem Linked.retarget (hl : Linked h q xs) (hnodup : (addresses xs).Nodup) (hxs : xs ≠ []) :
    ∃ h', h.setNext (lastLink xs) p = some h' ∧ Linked h' p xs ∧
      ∀ a, a ∉ addresses xs → h'.node a = h.node a := by
  rcases List.eq_nil_or_concat xs with rfl | ⟨xs, c, rfl⟩
  · exact absurd rfl hxs
  · rw [List.concat_eq_append] at *
    have hc : h.node c.1 = some ⟨c.2, q⟩ := (linked_append.mp hl).2.1
    refine ⟨h.relink c.1 p, ?_, hl.relink_last hnodup, fun a ha => relink_of_ne ?_⟩
    · rw [lastLink_concat]
      exact setNext_eq hc
    · rintro rfl
      exact ha (by simp)

theorem Linked.length_le_log (hl : Linked h q xs) (hnodup : (addresses xs).Nodup) :
    xs.length ≤ h.log.length := by
  have hle := NodeHeap.length_le_log hnodup hl.live
  rwa [length_addresses] at hle

/-! ## Chains -/

/-- From `p` on there are the nodes `xs`, and then there is nothing. -/
structure Chain (h : NodeHeap α) (p : Link) (xs : List (ℕ × α)) : Prop where
  head : p = entry none xs
  linked : Linked h none xs
  nodup : (addresses xs).Nodup

theorem chain_nil : Chain h none [] := ⟨rfl, trivial, List.nodup_nil⟩

theorem Chain.congr (hc : Chain h p xs) (hsame : ∀ a ∈ addresses xs, h'.node a = h.node a) :
    Chain h' p xs :=
  ⟨hc.head, hc.linked.congr hsame, hc.nodup⟩

theorem Chain.notMem (hc : Chain h p xs) (ha : h.node a = none) : a ∉ addresses xs := by
  intro hmem
  have hlive := hc.linked.live a hmem
  rw [ha] at hlive
  cases hlive

/-- A node that points nowhere comes behind all others. -/
theorem Chain.concat (hc : Chain h p xs) (hxs : xs ≠ []) (hd : h.node c.1 = some ⟨c.2, none⟩)
    (hnew : c.1 ∉ addresses xs) : ∃ h', h.setNext (lastLink xs) (some c.1) = some h' ∧
      Chain h' p (xs ++ [c]) ∧ ∀ a, a ∉ addresses xs → h'.node a = h.node a := by
  obtain ⟨h', hset, hlinked, hsame⟩ := hc.linked.retarget (p := some c.1) hc.nodup hxs
  have hlast : Linked h' none [c] := ⟨(hsame c.1 hnew).trans hd, trivial⟩
  refine ⟨h', hset, ⟨?_, linked_append.mpr ⟨hlinked, hlast⟩, nodup_concat hc.nodup hnew⟩, hsame⟩
  rw [hc.head]
  cases xs with
  | nil => exact absurd rfl hxs
  | cons d xs => rfl

/-- The nodes `xs` are turned into the nodes `ys`: new ones are allocated, those that are
not used any more are deleted, and no others are touched. -/
structure Turns (h h' : NodeHeap α) (xs ys : List (ℕ × α)) : Prop where
  kept : ∀ a, a ∉ addresses xs → a ∉ addresses ys → h'.node a = h.node a
  made : ∀ a ∈ addresses ys, a ∉ addresses xs → h.node a = none
  gone : ∀ a ∈ addresses xs, a ∉ addresses ys → h'.node a = none

theorem Turns.refl (h : NodeHeap α) (xs : List (ℕ × α)) : Turns h h xs xs :=
  ⟨fun _ _ _ => rfl, fun _ ha hn => absurd ha hn, fun _ ha hn => absurd ha hn⟩

end AviKernel
