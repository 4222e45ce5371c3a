import AviKernel.Utils.VectorRuns

/-!
# Assignment of vectors

The destination frees its nodes before the source is read, and they may be the same
object.  Paths and mounts are assigned member by member.
-/

namespace AviKernel

/-- A path, with the place of its vector of parts. -/
structure PathObject where
  folder : Bool
  parts : ℕ

/-- A mount, with the address of its file system. -/
structure MountedFSObject where
  mountPath : PathObject
  fs : ℕ

namespace Vectors

variable {α : Type}

section Assignment

variable (s : Vectors α) (allocator : NodeAllocator α)

def assignPath (p q : PathObject) : Option (Vectors α × PathObject) :=
  (s.assign p.parts q.parts allocator).map fun s => (s, ⟨q.folder, p.parts⟩)

def assignMountedFS (m n : MountedFSObject) : Option (Vectors α × MountedFSObject) :=
  (s.assignPath allocator m.mountPath n.mountPath).map fun (s, path) => (s, ⟨path, n.fs⟩)

/-- The vectors own their nodes. -/
def Valid : Prop := ∃ chains, Owns s chains

/-- The vector at `x` has the elements `l`. -/
def Contains (x : ℕ) (l : List α) : Prop :=
  ∃ v xs, s.vector x = some v ∧ v.Holds s.heap xs ∧ xs.map Prod.snd = l

/-- After the assignment the destination has the elements that the source had, and a source
that is another object still has them. -/
def AssignsValue (x y : ℕ) : Prop :=
  ∃ t, s.assign x y allocator = some t ∧
    ∀ l, s.Contains y l → t.Contains x l ∧ (y ≠ x → t.Contains y l)

def AssignsPath (p q : PathObject) : Prop :=
  ∃ t r, s.assignPath allocator p q = some (t, r) ∧ r.folder = q.folder ∧
    ∀ l, s.Contains q.parts l → t.Contains r.parts l ∧ (q.parts ≠ p.parts → t.Contains q.parts l)

def AssignsMountedFS (m n : MountedFSObject) : Prop :=
  ∃ t r, s.assignMountedFS allocator m n = some (t, r) ∧ r.fs = n.fs ∧
    r.mountPath.folder = n.mountPath.folder ∧
    ∀ l, s.Contains n.mountPath.parts l → t.Contains r.mountPath.parts l ∧
      (n.mountPath.parts ≠ m.mountPath.parts → t.Contains n.mountPath.parts l)

end Assignment

variable {s t : Vectors α} {chains : Chains α} {xs : List (ℕ × α)} {x y : ℕ} {k l : List α}
  {allocator : NodeAllocator α}

theorem Owns.contains (ho : Owns s chains) (hx : chains x = some xs) :
    s.Contains x (xs.map Prod.snd) := by
  obtain ⟨v, hvector, hv⟩ := ho.get hx
  exact ⟨v, xs, hvector, hv, rfl⟩

theorem Owns.exists_chain (ho : Owns s chains) (hx : s.Contains x l) :
    ∃ xs, chains x = some xs := by
  obtain ⟨v, -, hvector, -⟩ := hx
  have hrel := ho.holds x
  rw [hvector] at hrel
  cases hchain : chains x with
  | none =>
      rw [hchain] at hrel
      cases hrel
  | some xs => exact ⟨xs, rfl⟩

/-- The length that the object keeps tells two lists apart. -/
theorem Contains.length_eq (hk : s.Contains x k) (hl : s.Contains x l) : k.length = l.length := by
  obtain ⟨v, xs, hv, hxs, rfl⟩ := hk
  obtain ⟨w, ys, hw, hys, rfl⟩ := hl
  obtain rfl : v = w := Option.some.inj (hv.symm.trans hw)
  have hsize := hxs.size.symm.trans hys.size
  rw [List.length_map, List.length_map]
  omega

/-- A chain is determined by where it starts. -/
theorem chain_unique {h : NodeHeap α} {p : Link} {ys : List (ℕ × α)} (hxs : Chain h p xs)
    (hys : Chain h p ys) : xs = ys := by
  have hlinked : ∀ xs ys : List (ℕ × α), Linked h none xs → Linked h none ys →
      entry none xs = entry none ys → xs = ys := by
    intro xs
    induction xs with
    | nil =>
        intro ys _ _ heq
        exact (entry_eq_none.mp heq.symm).symm
    | cons c xs ih =>
        intro ys hl hm heq
        cases ys with
        | nil => cases heq
        | cons d ys =>
            have haddress : c.1 = d.1 := Option.some.inj heq
            have hnode := hl.1.symm.trans ((congrArg h.node haddress).trans hm.1)
            rw [Option.some.injEq, Node.mk.injEq] at hnode
            rw [Prod.ext haddress hnode.1, ih ys hl.2 hm.2 hnode.2]
  exact hlinked xs ys hxs.linked hys.linked (hxs.head.symm.trans hys.head)

theorem Contains.unique (hk : s.Contains x k) (hl : s.Contains x l) : k = l := by
  obtain ⟨v, xs, hv, hxs, rfl⟩ := hk
  obtain ⟨w, ys, hw, hys, rfl⟩ := hl
  obtain rfl : v = w := Option.some.inj (hv.symm.trans hw)
  rw [chain_unique hxs.toChain hys.toChain]

/-- Only a vector without elements survives an assignment to itself. -/
theorem assign_iff (hs : s.Valid) (hx : s.Contains x k) (hy : s.Contains y l)
    (hsucceeds : allocator.Succeeds) : s.AssignsValue allocator x y ↔ y ≠ x ∨ l = [] := by
  obtain ⟨chains, ho⟩ := hs
  obtain ⟨xs, hx⟩ := ho.exists_chain hx
  by_cases hne : y = x
  · subst hne
    obtain ⟨t, ht, hot⟩ := @Owns.assign_self α s chains xs y allocator ho hx
    have hempty : t.Contains y [] := hot.contains (Function.update_self _ _ _)
    constructor
    · rintro ⟨t', ht', hvalue⟩
      obtain rfl : t = t' := Option.some.inj (ht.symm.trans ht')
      exact Or.inr ((hvalue l hy).1.unique hempty)
    · rintro (hne | rfl)
      · exact absurd rfl hne
      · refine ⟨t, ht, fun l' hl' => ?_⟩
        obtain rfl := hl'.unique hy
        exact ⟨hempty, fun hne => absurd rfl hne⟩
  · refine iff_of_true ?_ (Or.inl hne)
    obtain ⟨ys, hchain⟩ := ho.exists_chain hy
    obtain ⟨t, zs, ht, hot, hzs, -⟩ := ho.assign (Ne.symm hne) hx hchain hsucceeds
    have hdestination := hot.contains (Function.update_self x (some zs) chains)
    have hsource := hot.contains ((Function.update_of_ne hne (some zs) chains).trans hchain)
    refine ⟨t, ht, fun l' hl' => ?_⟩
    obtain rfl := hl'.unique (ho.contains hchain)
    rw [hzs] at hdestination
    exact ⟨hdestination, fun _ => hsource⟩

theorem assignsPath_iff {p q : PathObject} :
    s.AssignsPath allocator p q ↔ s.AssignsValue allocator p.parts q.parts := by
  constructor
  · rintro ⟨t, r, hassign, -, hvalue⟩
    obtain ⟨t', ht, heq⟩ := Option.map_eq_some_iff.mp hassign
    cases heq
    exact ⟨t, ht, hvalue⟩
  · rintro ⟨t, ht, hvalue⟩
    exact ⟨t, ⟨q.folder, p.parts⟩, by rw [assignPath, ht, Option.map_some], rfl, hvalue⟩

theorem assignsMountedFS_iff {m n : MountedFSObject} : s.AssignsMountedFS allocator m n ↔
    s.AssignsValue allocator m.mountPath.parts n.mountPath.parts := by
  rw [← assignsPath_iff]
  constructor
  · rintro ⟨t, r, hassign, -, hfolder, hvalue⟩
    obtain ⟨⟨t', path⟩, ht, heq⟩ := Option.map_eq_some_iff.mp hassign
    cases heq
    exact ⟨t, path, ht, hfolder, hvalue⟩
  · rintro ⟨t, r, ht, hfolder, hvalue⟩
    exact ⟨t, ⟨r, n.fs⟩, by rw [assignMountedFS, ht, Option.map_some], rfl, hfolder, hvalue⟩

/-- Vectors, paths and mounts are assigned by value where the two objects are different or
have no elements. -/
theorem assignsValue_iff (hs : s.Valid) (hx : s.Contains x k) (hy : s.Contains y l)
    (hsucceeds : allocator.Succeeds) (folder folder' : Bool) (fs fs' : ℕ) :
    (s.AssignsValue allocator x y ↔ y ≠ x ∨ l = []) ∧
      (s.AssignsPath allocator ⟨folder, x⟩ ⟨folder', y⟩ ↔ y ≠ x ∨ l = []) ∧
      (s.AssignsMountedFS allocator ⟨⟨folder, x⟩, fs⟩ ⟨⟨folder', y⟩, fs'⟩ ↔ y ≠ x ∨ l = []) := by
  have hiff := assign_iff hs hx hy hsucceeds
  exact ⟨hiff, assignsPath_iff.trans hiff, assignsMountedFS_iff.trans hiff⟩

theorem empty_node : (NodeHeap.empty : NodeHeap ℕ).node 0 = none := rfl

/-- One vector with the element `7`. -/
def single : Vectors ℕ where
  heap := NodeHeap.empty.insert 0 ⟨7, none⟩ empty_node
  vector := Function.update (fun _ => none) 0 (some ⟨some 0, 1⟩)
  results := []

theorem single_owns : Owns single (Function.update (fun _ => none) 0 (some [(0, 7)])) := by
  refine ⟨fun x => ?_, fun x y hxy a ha => ?_, fun a ha => ?_⟩
  · by_cases hx : x = 0
    · subst hx
      exact Option.rel_some_some.mpr ⟨⟨rfl, ⟨rfl, trivial⟩, List.nodup_singleton 0⟩, rfl⟩
    · simp only [single, Function.update_of_ne hx]
      exact Option.rel_none_none
  · by_cases hx : x = 0
    · subst hx
      rw [nodesOf_update, Function.update_of_ne hxy.symm]
      exact List.not_mem_nil
    · rw [nodesOf_update, Function.update_of_ne hx] at ha
      cases ha
  · refine ⟨0, ?_⟩
    rw [nodesOf_update, Function.update_self]
    by_contra hne
    have hne : a ≠ 0 := by
      rintro rfl
      exact hne (List.mem_singleton_self 0)
    have hlive : ((Function.update (fun _ => none) 0 (some ⟨7, none⟩) :
      ℕ → Option (Node ℕ)) a).isSome := ha
    rw [Function.update_of_ne hne] at hlive
    cases hlive

theorem single_contains : single.Contains 0 [7] :=
  single_owns.contains (Function.update_self _ _ _)

theorem assignsValue_iff_single :
    (single.AssignsValue .beyond 0 0 ↔ 0 ≠ 0 ∨ [7] = []) ∧
      (single.AssignsPath .beyond ⟨true, 0⟩ ⟨true, 0⟩ ↔ 0 ≠ 0 ∨ [7] = []) ∧
      (single.AssignsMountedFS .beyond ⟨⟨true, 0⟩, 1⟩ ⟨⟨true, 0⟩, 1⟩ ↔ 0 ≠ 0 ∨ [7] = []) :=
  assignsValue_iff ⟨_, single_owns⟩ single_contains single_contains
    NodeAllocator.beyond_succeeds true true 1 1

/-- The element is lost. -/
theorem not_assignsValue : ¬ ∀ (s : Vectors ℕ) (x y : ℕ) (k l : List ℕ), s.Valid →
    s.Contains x k → s.Contains y l → s.AssignsValue .beyond x y := by
  intro h
  have hvalue := h single 0 0 [7] [7] ⟨_, single_owns⟩ single_contains single_contains
  have hiff := assign_iff ⟨_, single_owns⟩ single_contains single_contains
    NodeAllocator.beyond_succeeds
  rcases hiff.mp hvalue with hne | hnil
  · exact hne rfl
  · cases hnil

end Vectors

end AviKernel
