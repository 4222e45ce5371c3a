import AviKernel.Library.Ownership
import AviKernel.Library.Runs
import AviKernel.Utils.VectorNodes

/-!
# Vectors as lists

A program has several vectors on one heap.  Each owns the nodes of its chain, and whatever
is done to one of them the others keep theirs, so that the program can be told with lists.
-/

namespace AviKernel

inductive VectorResult (α : Type)
  | element (data : α)
  | truth (b : Bool)
  | number (n : ℤ)

/-- The vectors by the places of the objects, and what the calls have returned. -/
structure Vectors (α : Type) where
  heap : NodeHeap α
  vector : ℕ → Option NodeVector
  results : List (VectorResult α)

namespace Vectors

variable {α : Type}

/-! ## Calls -/

section Calls

variable (s : Vectors α) (x y : ℕ) (allocator : NodeAllocator α)

def set (h : NodeHeap α) (v : Option NodeVector) : Vectors α :=
  { s with heap := h, vector := Function.update s.vector x v }

def append (data : α) : Option (Vectors α) := do
  let v ← s.vector x
  let (h, v) ← v.append s.heap allocator data
  some (s.set x h (some v))

/-- The loop of `append_vector` from the index on.  The length of the other vector is asked
for at every turn; there are not more turns than it was at first. -/
def appendFrom : ℕ → ℕ → Vectors α → Option (Vectors α)
  | 0, i, s => do
      let other ← s.vector y
      if i < other.size then none else some s
  | todo + 1, i, s => do
      let other ← s.vector y
      if i < other.size then do
        let data ← other.get s.heap i
        let s ← s.append x allocator data
        appendFrom todo (i + 1) s
      else some s

def appendVector : Option (Vectors α) := do
  let other ← s.vector y
  appendFrom x y allocator other.size.toNat 0 s

/-- The operator `=`. -/
def assign : Option (Vectors α) := do
  let v ← s.vector x
  let (h, _) ← v.freeData s.heap
  (s.set x h (some NodeVector.emptyVector)).appendVector x y allocator

/-- The copy constructor. -/
def copy : Option (Vectors α) :=
  (s.set x s.heap (some NodeVector.emptyVector)).appendVector x y allocator

def destroy : Option (Vectors α) := do
  let v ← s.vector x
  let (h, _) ← v.freeData s.heap
  some (s.set x h none)

def remove (index : ℤ) : Option (Vectors α) := do
  let v ← s.vector x
  let (h, v) ← v.remove s.heap index
  some (s.set x h (some v))

def popBack : Option (Vectors α) := do
  let v ← s.vector x
  let (h, v) ← v.popBack s.heap
  some (s.set x h (some v))

def answer (r : Option (VectorResult α)) : Option (Vectors α) :=
  r.map fun r => { s with results := s.results ++ [r] }

end Calls

inductive Action (α : Type)
  | construct (x : ℕ)
  | copy (x y : ℕ) (allocator : NodeAllocator α)
  | assign (x y : ℕ) (allocator : NodeAllocator α)
  | destroy (x : ℕ)
  | append (x : ℕ) (data : α) (allocator : NodeAllocator α)
  | remove (x : ℕ) (index : ℤ)
  | popBack (x : ℕ)
  | get (x : ℕ) (index : ℤ)
  | exist (x : ℕ) (obj : α)
  | empty (x : ℕ)
  | size (x : ℕ)

def step [BEq α] (s : Vectors α) : Action α → Option (Vectors α)
  | .construct x => some (s.set x s.heap (some NodeVector.emptyVector))
  | .copy x y allocator => s.copy x y allocator
  | .assign x y allocator => s.assign x y allocator
  | .destroy x => s.destroy x
  | .append x data allocator => s.append x allocator data
  | .remove x index => s.remove x index
  | .popBack x => s.popBack x
  | .get x index => s.answer ((s.vector x).bind fun v => (v.get s.heap index).map .element)
  | .exist x obj => s.answer ((s.vector x).bind fun v => (v.exist s.heap obj).map .truth)
  | .empty x => s.answer ((s.vector x).map fun v => .truth v.empty)
  | .size x => s.answer ((s.vector x).map fun v => .number v.size)

def start : Vectors α := ⟨NodeHeap.empty, fun _ => none, []⟩

/-! ## Lists in their place -/

structure Lists (α : Type) where
  list : ℕ → Option (List α)
  results : List (VectorResult α)

namespace Lists

def start : Lists α := ⟨fun _ => none, []⟩

def set (u : Lists α) (x : ℕ) (l : Option (List α)) : Lists α :=
  { u with list := Function.update u.list x l }

def answer (u : Lists α) (r : Option (VectorResult α)) : Option (Lists α) :=
  r.map fun r => { u with results := u.results ++ [r] }

def step [BEq α] (u : Lists α) : Action α → Option (Lists α)
  | .construct x => some (u.set x (some []))
  | .copy x y _ | .assign x y _ => (u.list y).map fun l => u.set x (some l)
  | .destroy x => some (u.set x none)
  | .append x data _ => (u.list x).map fun l => u.set x (some (l ++ [data]))
  | .remove x index => (u.list x).map fun l => u.set x (some (l.eraseIdx index.toNat))
  | .popBack x => (u.list x).map fun l => u.set x (some l.dropLast)
  | .get x index => u.answer ((u.list x).bind fun l => l[index.toNat]?.map .element)
  | .exist x obj => u.answer ((u.list x).map fun l => .truth (l.any fun a => a == obj))
  | .empty x => u.answer ((u.list x).map fun l => .truth l.isEmpty)
  | .size x => u.answer ((u.list x).map fun l => .number l.length)

/-- The objects exist, or do not where one is made; the indices are in range, the two
objects of an assignment are different, and the allocations succeed. -/
def Allowed (u : Lists α) : Action α → Prop
  | .construct x => u.list x = none
  | .copy x y allocator => u.list x = none ∧ (u.list y).isSome ∧ allocator.Succeeds
  | .assign x y allocator =>
      x ≠ y ∧ (u.list x).isSome ∧ (u.list y).isSome ∧ allocator.Succeeds
  | .append x _ allocator => (u.list x).isSome ∧ allocator.Succeeds
  | .remove x index | .get x index => ∃ l, u.list x = some l ∧ 0 ≤ index ∧ index < l.length
  | .popBack x => ∃ l, u.list x = some l ∧ l ≠ []
  | .destroy x | .exist x _ | .empty x | .size x => (u.list x).isSome

end Lists

/-! ## Who owns a node -/

abbrev Chains (α : Type) := ℕ → Option (List (ℕ × α))

/-- The addresses of the nodes of one vector. -/
def nodesOf (chains : Chains α) (x : ℕ) : List ℕ := addresses ((chains x).getD [])

/-- Each vector has a chain as long as it says, no two have a node in common, and every
node in use belongs to one of them. -/
structure Owns (s : Vectors α) (chains : Chains α) : Prop where
  holds : ∀ x, Option.Rel (NodeVector.Holds s.heap) (s.vector x) (chains x)
  apart : ∀ x y, x ≠ y → ∀ a ∈ nodesOf chains x, a ∉ nodesOf chains y
  live : ∀ a, (s.heap.node a).isSome → ∃ x, a ∈ nodesOf chains x

/-- Each allocation of an address was followed by one deletion, but for the last one of a
node that is in a chain. -/
structure Accounted (s : Vectors α) (chains : Chains α) : Prop where
  held : ∀ x, ∀ a ∈ nodesOf chains x,
    s.heap.log.count (.new a) = s.heap.log.count (.delete a) + 1
  released : ∀ a, (∀ x, a ∉ nodesOf chains x) →
    s.heap.log.count (.new a) = s.heap.log.count (.delete a)

/-- The vectors hold the lists, and the calls have returned the same. -/
def Represents (s : Vectors α) (u : Lists α) : Prop :=
  ∃ chains, Owns s chains ∧ Accounted s chains ∧
    (∀ x, u.list x = (chains x).map (List.map Prod.snd)) ∧ s.results = u.results

variable {s t : Vectors α} {u w : Lists α} {chains : Chains α} {xs ys zs : List (ℕ × α)}
  {h : NodeHeap α} {v : Option NodeVector} {x y z i todo : ℕ} {allocator : NodeAllocator α}

theorem nodesOf_some (hx : chains x = some xs) : nodesOf chains x = addresses xs := by
  rw [nodesOf, hx, Option.getD_some]

theorem nodesOf_update {o : Option (List (ℕ × α))} :
    nodesOf (Function.update chains x o) =
      Function.update (nodesOf chains) x (addresses (o.getD [])) := by
  funext y
  by_cases hy : y = x
  · rw [nodesOf, hy, Function.update_self, Function.update_self]
  · rw [nodesOf, Function.update_of_ne hy, Function.update_of_ne hy, nodesOf]

theorem Owns.get (ho : Owns s chains) (hx : chains x = some xs) :
    ∃ v, s.vector x = some v ∧ v.Holds s.heap xs := by
  have hrel := ho.holds x
  rw [hx] at hrel
  cases hv : s.vector x with
  | none =>
      rw [hv] at hrel
      cases hrel
  | some v =>
      rw [hv] at hrel
      exact ⟨v, rfl, Option.rel_some_some.mp hrel⟩

theorem Owns.isSome (ho : Owns s chains) {a : ℕ} (ha : a ∈ nodesOf chains x) :
    (s.heap.node a).isSome := by
  cases hx : chains x with
  | none =>
      rw [nodesOf, hx] at ha
      cases ha
  | some xs =>
      obtain ⟨v, -, hv⟩ := ho.get hx
      rw [nodesOf_some hx] at ha
      exact hv.linked.live a ha

theorem Owns.accounted (ho : Owns s chains) : Accounted s chains where
  held x a ha := by
    rw [s.heap.balanced a, if_pos (ho.isSome ha)]
  released a ha := by
    have hdead : ¬ (s.heap.node a).isSome := fun hlive =>
      (ho.live a hlive).elim fun x hx => ha x hx
    rw [s.heap.balanced a, if_neg hdead, Nat.add_zero]

theorem Owns.shares (ho : Owns s chains) : Shares s.heap (nodesOf chains) ∅ where
  live _ _ ha := ho.isSome ha
  apart := ho.apart
  lost a ha := absurd ha (Finset.notMem_empty a)
  used a ha := Or.inr (ho.live a ha)

/-- A vector is changed and the others keep their nodes. -/
theorem Owns.set {o : Option (List (ℕ × α))} (ho : Owns s chains)
    (hturns : Turns s.heap h ((chains x).getD []) (o.getD []))
    (hv : Option.Rel (NodeVector.Holds h) v o) :
    Owns (s.set x h v) (Function.update chains x o) := by
  have hlive : ∀ a ∈ addresses (o.getD []), (h.node a).isSome := by
    cases hv with
    | none => exact fun a ha => absurd ha List.not_mem_nil
    | some hv => exact hv.linked.live
  have hshares : Shares h (nodesOf (Function.update chains x o)) ∅ := by
    rw [nodesOf_update]
    exact ho.shares.turn rfl hturns hlive
  refine ⟨fun y => ?_, hshares.apart, fun a ha => ?_⟩
  · by_cases hy : y = x
    · subst hy
      simpa only [Vectors.set, Function.update_self] using hv
    · have hrel := ho.holds y
      simp only [Vectors.set, Function.update_of_ne hy]
      cases hchain : chains y with
      | none =>
          rw [hchain] at hrel
          cases hvector : s.vector y with
          | none => exact Option.rel_none_none
          | some v =>
              rw [hvector] at hrel
              cases hrel
      | some ys =>
          obtain ⟨v, hvector, hholds⟩ := ho.get hchain
          rw [hvector]
          refine Option.rel_some_some.mpr (hholds.congr fun a ha => ?_)
          rw [← nodesOf_some hchain] at ha
          exact (ho.shares.frame rfl hturns (Or.inr ⟨y, hy, ha⟩)).2
  · exact (hshares.used a ha).resolve_left (Finset.notMem_empty a)

theorem Owns.change {v : NodeVector} (ho : Owns s chains) (hx : chains x = some xs)
    (hturns : Turns s.heap h xs ys) (hv : v.Holds h ys) :
    Owns (s.set x h (some v)) (Function.update chains x (some ys)) := by
  refine ho.set ?_ (Option.rel_some_some.mpr hv)
  rwa [hx]

theorem Owns.make (ho : Owns s chains) (hx : chains x = none) :
    Owns (s.set x s.heap (some NodeVector.emptyVector)) (Function.update chains x (some [])) := by
  refine ho.set ?_ (Option.rel_some_some.mpr NodeVector.holds_emptyVector)
  rw [hx]
  exact Turns.refl _ _

/-! ## One call -/

theorem Owns.append (ho : Owns s chains) (data : α) (hx : chains x = some xs)
    (hsucceeds : allocator.Succeeds) : ∃ t c, s.append x allocator data = some t ∧
      Owns t (Function.update chains x (some (xs ++ [c]))) ∧ c.2 = data ∧
      t.results = s.results := by
  obtain ⟨v, hvector, hv⟩ := ho.get hx
  obtain ⟨a, hpick⟩ := Option.ne_none_iff_exists'.mp (hsucceeds s.heap)
  have hpick' : allocator.pick s.heap = some (a, data).1 := hpick
  obtain ⟨h, v', happend, hholds, hturns⟩ := hv.append hpick'
  refine ⟨s.set x h (some v'), (a, data), ?_, ho.change hx hturns hholds, rfl, rfl⟩
  rw [Vectors.append, hvector, Option.bind_eq_bind, Option.bind_some, happend]
  rfl

/-- The elements of the other vector from the index on are appended one by one. -/
theorem Owns.appendFrom (ho : Owns s chains) (hne : x ≠ y) (hx : chains x = some xs)
    (hy : chains y = some ys) (hsucceeds : allocator.Succeeds) (htodo : i + todo = ys.length) :
    ∃ t zs, appendFrom x y allocator todo i s = some t ∧
      Owns t (Function.update chains x (some (xs ++ zs))) ∧
      zs.map Prod.snd = (ys.drop i).map Prod.snd ∧ t.results = s.results := by
  induction todo generalizing i s chains xs with
  | zero =>
      obtain ⟨v, hvector, hv⟩ := ho.get hy
      have hend : ¬ (i : ℤ) < v.size := by
        rw [NodeVector.size, hv.size]
        omega
      refine ⟨s, [], ?_, ?_, ?_, rfl⟩
      · rw [Vectors.appendFrom, hvector, Option.bind_eq_bind, Option.bind_some, if_neg hend]
      · rwa [List.append_nil, ← hx, Function.update_eq_self]
      · rw [List.drop_of_length_le (by omega)]
  | succ todo ih =>
      obtain ⟨v, hvector, hv⟩ := ho.get hy
      have hmore : (i : ℤ) < v.size := by
        rw [NodeVector.size, hv.size]
        omega
      have hi : i < ys.length := by omega
      obtain ⟨s₁, c, happend, ho₁, hc, hresults⟩ := ho.append ys[i].2 hx hsucceeds
      have hx₁ : Function.update chains x (some (xs ++ [c])) x = some (xs ++ [c]) :=
        Function.update_self _ _ _
      have hy₁ : Function.update chains x (some (xs ++ [c])) y = some ys := by
        rw [Function.update_of_ne hne.symm, hy]
      have htodo₁ : i + 1 + todo = ys.length := by omega
      obtain ⟨t, zs, hrest, hot, hzs, hresults'⟩ := ih ho₁ hx₁ hy₁ htodo₁
      refine ⟨t, c :: zs, ?_, ?_, ?_, hresults'.trans hresults⟩
      · rw [Vectors.appendFrom, hvector, Option.bind_eq_bind, Option.bind_some, if_pos hmore,
          hv.get_eq hi, Option.bind_eq_bind, Option.bind_some, happend]
        exact hrest
      · rwa [Function.update_idem, List.append_assoc] at hot
      · rw [List.drop_eq_getElem_cons hi, List.map_cons, List.map_cons, hzs, hc]

theorem Owns.appendVector (ho : Owns s chains) (hne : x ≠ y) (hx : chains x = some xs)
    (hy : chains y = some ys) (hsucceeds : allocator.Succeeds) :
    ∃ t zs, s.appendVector x y allocator = some t ∧
      Owns t (Function.update chains x (some (xs ++ zs))) ∧
      zs.map Prod.snd = ys.map Prod.snd ∧ t.results = s.results := by
  obtain ⟨v, hvector, hv⟩ := ho.get hy
  have htodo : v.size.toNat = ys.length := by
    rw [NodeVector.size, hv.size, Int.toNat_natCast]
  rw [Vectors.appendVector, hvector, Option.bind_eq_bind, Option.bind_some, htodo]
  exact ho.appendFrom hne hx hy hsucceeds (Nat.zero_add _)

/-- What `operator=` does before it looks at the other vector. -/
theorem Owns.empty (ho : Owns s chains) (hx : chains x = some xs) :
    ∃ v h, s.vector x = some v ∧ v.freeData s.heap = some (h, ⟨none, v.vectorSize⟩) ∧
      Owns (s.set x h (some NodeVector.emptyVector)) (Function.update chains x (some [])) ∧
      Owns (s.set x h none) (Function.update chains x none) := by
  obtain ⟨v, hvector, hv⟩ := ho.get hx
  obtain ⟨h, hfree, hturns⟩ := hv.freeData
  refine ⟨v, h, hvector, hfree, ho.change hx hturns NodeVector.holds_emptyVector,
    ho.set ?_ Option.rel_none_none⟩
  rwa [hx]

theorem Owns.assign (ho : Owns s chains) (hne : x ≠ y) (hx : chains x = some xs)
    (hy : chains y = some ys) (hsucceeds : allocator.Succeeds) :
    ∃ t zs, s.assign x y allocator = some t ∧ Owns t (Function.update chains x (some zs)) ∧
      zs.map Prod.snd = ys.map Prod.snd ∧ t.results = s.results := by
  obtain ⟨v, h, hvector, hfree, ho₁, -⟩ := ho.empty hx
  have hy₁ : Function.update chains x (some []) y = some ys := by
    rw [Function.update_of_ne hne.symm, hy]
  obtain ⟨t, zs, happend, hot, hzs, hresults⟩ :=
    ho₁.appendVector hne (Function.update_self _ _ _) hy₁ hsucceeds
  rw [Function.update_idem, List.nil_append] at hot
  refine ⟨t, zs, ?_, hot, hzs, hresults⟩
  rw [Vectors.assign, hvector, Option.bind_eq_bind, Option.bind_some, hfree]
  exact happend

/-- A vector that is assigned to itself is empty before it is read. -/
theorem Owns.assign_self (ho : Owns s chains) (hx : chains x = some xs) :
    ∃ t, s.assign x x allocator = some t ∧ Owns t (Function.update chains x (some [])) := by
  obtain ⟨v, h, hvector, hfree, ho₁, -⟩ := ho.empty hx
  refine ⟨_, ?_, ho₁⟩
  have hself : (s.set x h (some NodeVector.emptyVector)).vector x =
      some NodeVector.emptyVector := Function.update_self _ _ _
  have hend : ¬ ((0 : ℕ) : ℤ) < NodeVector.emptyVector.size := lt_irrefl 0
  have hturn : Vectors.appendFrom x x allocator 0 0 (s.set x h (some NodeVector.emptyVector)) =
      some (s.set x h (some NodeVector.emptyVector)) := by
    rw [Vectors.appendFrom, hself, Option.bind_eq_bind, Option.bind_some, if_neg hend]
  rw [Vectors.assign, hvector, Option.bind_eq_bind, Option.bind_some, hfree]
  simp only [Option.bind_some, Vectors.appendVector, hself, Option.bind_eq_bind]
  exact hturn

theorem Owns.copy (ho : Owns s chains) (hx : chains x = none) (hy : chains y = some ys)
    (hsucceeds : allocator.Succeeds) :
    ∃ t zs, s.copy x y allocator = some t ∧ Owns t (Function.update chains x (some zs)) ∧
      zs.map Prod.snd = ys.map Prod.snd ∧ t.results = s.results := by
  have hne : x ≠ y := by
    rintro rfl
    rw [hx] at hy
    cases hy
  have hy₁ : Function.update chains x (some []) y = some ys := by
    rw [Function.update_of_ne hne.symm, hy]
  obtain ⟨t, zs, happend, hot, hzs, hresults⟩ :=
    (ho.make hx).appendVector hne (Function.update_self _ _ _) hy₁ hsucceeds
  rw [Function.update_idem, List.nil_append] at hot
  exact ⟨t, zs, happend, hot, hzs, hresults⟩

/-! ## Runs -/

theorem Represents.of_owns (ho : Owns t (Function.update chains x (some zs)))
    (hlists : ∀ x, u.list x = (chains x).map (List.map Prod.snd)) (hresults : t.results = u.results)
    {l : List α} (hl : zs.map Prod.snd = l) : Represents t (u.set x (some l)) := by
  refine ⟨_, ho, ho.accounted, fun y => ?_, hresults⟩
  by_cases hy : y = x
  · subst hy
    simp only [Lists.set, Function.update_self, Option.map_some, hl]
  · simp only [Lists.set, Function.update_of_ne hy, hlists]

/-- The chain of a vector that has a list. -/
theorem chain_of_list {l : List α} (hlists : ∀ x, u.list x = (chains x).map (List.map Prod.snd))
    (hl : u.list x = some l) : ∃ xs, chains x = some xs ∧ xs.map Prod.snd = l := by
  rw [hlists] at hl
  exact Option.map_eq_some_iff.mp hl

theorem chain_eq_none (hlists : ∀ x, u.list x = (chains x).map (List.map Prod.snd))
    (hl : u.list x = none) : chains x = none := by
  rw [hlists] at hl
  exact Option.map_eq_none_iff.mp hl

theorem Represents.answer {r r' : Option (VectorResult α)} {q : VectorResult α}
    (hr : Represents s u) (hs : r = some q) (hu : r' = some q) :
    ∃ t w, s.answer r = some t ∧ u.answer r' = some w ∧ Represents t w := by
  subst hs hu
  obtain ⟨chains, ho, ha, hlists, hresults⟩ := hr
  refine ⟨_, _, rfl, rfl, chains, ⟨ho.holds, ho.apart, ho.live⟩, ⟨ha.held, ha.released⟩,
    hlists, ?_⟩
  simp only [hresults]

theorem Owns.remove {i : ℕ} (ho : Owns s chains) (hx : chains x = some xs) (hi : i < xs.length) :
    ∃ t, s.remove x i = some t ∧ Owns t (Function.update chains x (some (xs.eraseIdx i))) ∧
      t.results = s.results := by
  obtain ⟨v, hvector, hv⟩ := ho.get hx
  obtain ⟨h, v', hremove, hholds, hturns⟩ := hv.removeAt hi
  refine ⟨s.set x h (some v'), ?_, ho.change hx hturns hholds, rfl⟩
  simp only [Vectors.remove, hvector, hremove, Option.bind_eq_bind, Option.bind_some]

theorem Owns.popBack {c : ℕ × α} (ho : Owns s chains) (hx : chains x = some (xs ++ [c])) :
    ∃ t, s.popBack x = some t ∧ Owns t (Function.update chains x (some xs)) ∧
      t.results = s.results := by
  obtain ⟨v, hvector, hv⟩ := ho.get hx
  obtain ⟨h, v', hpop, hholds, hturns⟩ := hv.popBack
  refine ⟨s.set x h (some v'), ?_, ho.change hx hturns hholds, rfl⟩
  simp only [Vectors.popBack, hvector, hpop, Option.bind_eq_bind, Option.bind_some]

/-- The vector of an object that exists. -/
theorem Owns.read (ho : Owns s chains) (hlists : ∀ x, u.list x = (chains x).map (List.map Prod.snd))
    (hx : (u.list x).isSome) : ∃ v xs, u.list x = some (xs.map Prod.snd) ∧ s.vector x = some v ∧
      NodeVector.Holds s.heap v xs := by
  obtain ⟨l, hl⟩ := Option.isSome_iff_exists.mp hx
  obtain ⟨xs, hchain, rfl⟩ := chain_of_list hlists hl
  obtain ⟨v, hvector, hv⟩ := ho.get hchain
  exact ⟨v, xs, hl, hvector, hv⟩

/-- A call on the vectors does what it says to the lists. -/
theorem step_represents [BEq α] {a : Action α} (hr : Represents s u) (ha : u.Allowed a) :
    ∃ t w, step s a = some t ∧ u.step a = some w ∧ Represents t w := by
  obtain ⟨chains, ho, hacc, hlists, hresults⟩ := hr
  cases a with
  | construct x =>
      have ho₁ := ho.make (chain_eq_none hlists ha)
      exact ⟨_, _, rfl, rfl, Represents.of_owns ho₁ hlists hresults rfl⟩
  | copy x y allocator =>
      obtain ⟨hx, hy, hsucceeds⟩ := ha
      obtain ⟨l, hl⟩ := Option.isSome_iff_exists.mp hy
      obtain ⟨ys, hy, rfl⟩ := chain_of_list hlists hl
      obtain ⟨t, zs, ht, hot, hzs, hres⟩ := ho.copy (chain_eq_none hlists hx) hy hsucceeds
      refine ⟨t, _, ht, ?_, Represents.of_owns hot hlists (hres.trans hresults) hzs⟩
      rw [Lists.step, hl, Option.map_some]
  | assign x y allocator =>
      obtain ⟨hne, hx, hy, hsucceeds⟩ := ha
      obtain ⟨k, hk⟩ := Option.isSome_iff_exists.mp hx
      obtain ⟨l, hl⟩ := Option.isSome_iff_exists.mp hy
      obtain ⟨xs, hx, -⟩ := chain_of_list hlists hk
      obtain ⟨ys, hy, rfl⟩ := chain_of_list hlists hl
      obtain ⟨t, zs, ht, hot, hzs, hres⟩ := ho.assign hne hx hy hsucceeds
      refine ⟨t, _, ht, ?_, Represents.of_owns hot hlists (hres.trans hresults) hzs⟩
      rw [Lists.step, hl, Option.map_some]
  | destroy x =>
      obtain ⟨l, hl⟩ := Option.isSome_iff_exists.mp ha
      obtain ⟨xs, hx, -⟩ := chain_of_list hlists hl
      obtain ⟨v, h, hvector, hfree, -, hot⟩ := ho.empty hx
      refine ⟨s.set x h none, _, ?_, rfl, _, hot, hot.accounted, fun y => ?_, hresults⟩
      · rw [Vectors.step, Vectors.destroy, hvector, Option.bind_eq_bind, Option.bind_some, hfree]
        rfl
      · by_cases hy : y = x
        · subst hy
          simp only [Lists.set, Function.update_self, Option.map_none]
        · simp only [Lists.set, Function.update_of_ne hy, hlists]
  | append x data allocator =>
      obtain ⟨hx, hsucceeds⟩ := ha
      obtain ⟨l, hl⟩ := Option.isSome_iff_exists.mp hx
      obtain ⟨xs, hx, rfl⟩ := chain_of_list hlists hl
      obtain ⟨t, c, ht, hot, rfl, hres⟩ := ho.append data hx hsucceeds
      refine ⟨t, _, ht, ?_, Represents.of_owns hot hlists (hres.trans hresults) List.map_append⟩
      rw [Lists.step, hl, Option.map_some]
      rfl
  | remove x index =>
      obtain ⟨l, hl, hpos, hlt⟩ := ha
      obtain ⟨xs, hx, rfl⟩ := chain_of_list hlists hl
      obtain ⟨i, rfl⟩ := Int.eq_ofNat_of_zero_le hpos
      rw [List.length_map] at hlt
      obtain ⟨t, ht, hot, hres⟩ := ho.remove hx (i := i) (by omega)
      refine ⟨t, _, ht, ?_, Represents.of_owns hot hlists (hres.trans hresults)
        (List.eraseIdx_map _ _ _).symm⟩
      rw [Lists.step, hl, Option.map_some, Int.toNat_natCast]
  | popBack x =>
      obtain ⟨l, hl, hnil⟩ := ha
      obtain ⟨xs, hx, rfl⟩ := chain_of_list hlists hl
      rcases List.eq_nil_or_concat xs with rfl | ⟨xs, c, rfl⟩
      · exact absurd rfl hnil
      · rw [List.concat_eq_append] at *
        obtain ⟨t, ht, hot, hres⟩ := ho.popBack hx
        refine ⟨t, _, ht, ?_, Represents.of_owns hot hlists (hres.trans hresults) rfl⟩
        rw [Lists.step, hl, Option.map_some, List.map_append, List.map_singleton,
          List.dropLast_concat]
  | get x index =>
      obtain ⟨l, hl, hpos, hlt⟩ := ha
      obtain ⟨xs, hx, rfl⟩ := chain_of_list hlists hl
      obtain ⟨i, rfl⟩ := Int.eq_ofNat_of_zero_le hpos
      rw [List.length_map] at hlt
      have hi : i < xs.length := by omega
      obtain ⟨v, hvector, hv⟩ := ho.get hx
      refine Represents.answer (q := .element xs[i].2) ⟨chains, ho, hacc, hlists, hresults⟩ ?_ ?_
      · rw [hvector, Option.bind_some, hv.get_eq hi, Option.map_some]
      · simp [hl, hi]
  | exist x obj =>
      obtain ⟨v, xs, hl, hvector, hv⟩ := ho.read hlists ha
      refine Represents.answer ⟨chains, ho, hacc, hlists, hresults⟩ ?_
        (congrArg (Option.map _) hl)
      simp [hvector, hv.exist, Function.comp_def]
  | empty x =>
      obtain ⟨v, xs, hl, hvector, hv⟩ := ho.read hlists ha
      refine Represents.answer ⟨chains, ho, hacc, hlists, hresults⟩ ?_
        (congrArg (Option.map _) hl)
      simp [hvector, hv.empty_eq]
  | size x =>
      obtain ⟨v, xs, hl, hvector, hv⟩ := ho.read hlists ha
      refine Represents.answer ⟨chains, ho, hacc, hlists, hresults⟩ ?_
        (congrArg (Option.map _) hl)
      simp [hvector, NodeVector.size, hv.size]

theorem owns_start : Owns (start : Vectors α) fun _ => none where
  holds _ := Option.rel_none_none
  apart _ _ _ _ ha := absurd ha List.not_mem_nil
  live _ ha := by cases ha

theorem represents_start : Represents (start : Vectors α) Lists.start :=
  ⟨_, owns_start, owns_start.accounted, fun _ => rfl, rfl⟩

/-- The vectors of a program are lists, through all of its calls. -/
theorem listed_of_run [BEq α] {as : List (Action α)}
    (hallowed : RunAll Lists.step Lists.Allowed Lists.start as) :
    Simulates step Lists.step Represents start Lists.start as := by
  have hstep : ∀ (s : Vectors α) (u : Lists α) (a : Action α), Represents s u → True →
      u.Allowed a → ((∃ t w, step s a = some t ∧ u.step a = some w ∧ Represents t w) ↔ True) :=
    fun _ _ _ hr _ ha => iff_of_true (step_represents hr ha) trivial
  exact (simulates_iff hstep (fun _ _ _ _ _ _ => trivial) represents_start trivial hallowed).mpr
    fun _ _ => trivial

/-- A vector, a copy of it, and a change of each of them. -/
def copiedActions : List (Action ℕ) :=
  [.construct 0, .append 0 5 .beyond, .append 0 6 .beyond, .copy 1 0 .beyond, .remove 0 0,
    .popBack 1, .assign 0 1 .beyond, .get 0 0, .exist 1 6, .size 0, .destroy 1]

theorem listed_of_run_copied :
    Simulates step Lists.step Represents start Lists.start copiedActions := by
  apply listed_of_run
  simp [copiedActions, Lists.step, Lists.Allowed, Lists.start, Lists.set, Lists.answer,
    NodeAllocator.beyond_succeeds]

end Vectors

end AviKernel
