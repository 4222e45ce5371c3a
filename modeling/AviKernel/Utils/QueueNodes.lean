import AviKernel.Library.Ownership
import AviKernel.Library.Runs
import AviKernel.Utils.Queue
import AviKernel.Utils.VectorNodes

/-!
# The nodes of the queues

A program has several queues on one heap.  What is taken out of a queue leaves its node
behind, and a node that is left behind stays in use for ever.
-/

namespace AviKernel

open NodeHeap

/-- The queues by the places of the objects. -/
structure Queues (α : Type) where
  heap : NodeHeap α
  queue : ℕ → Option Queue

namespace Queues

variable {α : Type}

section Calls

variable (s : Queues α) (x y : ℕ) (allocator : NodeAllocator α)

def set (h : NodeHeap α) (q : Option Queue) : Queues α := ⟨h, Function.update s.queue x q⟩

def emptyQueue : Queue := ⟨none, none, 0⟩

/-- An object is made where there is none. -/
def construct : Option (Queues α) :=
  if (s.queue x).isSome then none else some (s.set x s.heap (some emptyQueue))

def copy : Option (Queues α) :=
  if (s.queue x).isSome then none
  else do
    let other ← s.queue y
    let (h, q, other) ← other.copy s.heap allocator
    some ((s.set y h (some other)).set x h (some q))

/-- The loop of the destructor is the one of `free_data` of a vector. -/
def destroy : Option (Queues α) := do
  let q ← s.queue x
  let h ← NodeVector.freeFrom s.heap.log.length s.heap q.head
  some (s.set x h none)

def enqueue (data : α) : Option (Queues α) := do
  let q ← s.queue x
  let (h, q) ← q.enqueue s.heap allocator data
  some (s.set x h (some q))

def dequeue : Option (Queues α) := do
  let q ← s.queue x
  let (_, q) ← q.dequeue s.heap
  some (s.set x s.heap (some q))

end Calls

inductive Action (α : Type)
  | construct (x : ℕ)
  | copy (x y : ℕ) (allocator : NodeAllocator α)
  | destroy (x : ℕ)
  | enqueue (x : ℕ) (data : α) (allocator : NodeAllocator α)
  | dequeue (x : ℕ)

def step (s : Queues α) : Action α → Option (Queues α)
  | .construct x => s.construct x
  | .copy x y allocator => s.copy x y allocator
  | .destroy x => s.destroy x
  | .enqueue x data allocator => s.enqueue x allocator data
  | .dequeue x => s.dequeue x

def start : Queues α := ⟨NodeHeap.empty, fun _ => none⟩

/-- The head of a queue leads to the node. -/
def Reachable (s : Queues α) (a : ℕ) : Prop :=
  ∃ x q, s.queue x = some q ∧ Reaches s.heap q.head a

/-- `size` of the queue at a place. -/
def sizeAt (s : Queues α) (x : ℕ) : ℤ := ((s.queue x).map Queue.size).getD 0

/-- Every node in use is in a queue, the queues are as long as there are nodes, and a
destructor deletes all nodes of its queue. -/
structure Reclaimed (s : Queues α) : Prop where
  reachable : ∀ a, (s.heap.node a).isSome ↔ s.Reachable a
  finite : {x | (s.queue x).isSome}.Finite
  count : ({a | (s.heap.node a).isSome}.ncard : ℤ) = ∑ᶠ x, s.sizeAt x
  destroyed : ∀ x q, s.queue x = some q → ∃ t, s.destroy x = some t ∧
    ∀ a, Reaches s.heap q.head a → t.heap.node a = none

/-- Nothing is taken out, and no queue is copied that would have to be turned round. -/
def Spares (s : Queues α) : Action α → Prop
  | .dequeue _ => False
  | .copy _ y _ => ∀ q, s.queue y = some q → q.empty = true
  | .construct _ | .destroy _ | .enqueue _ _ _ => True

/-! ## Who owns a node -/

/-- Each queue has its chain, and the nodes in use are those of the chains and the ones that
were left behind. -/
structure Owns (s : Queues α) (chains : ℕ → List (ℕ × α)) (astray : Finset ℕ) : Prop where
  holds : ∀ x q, s.queue x = some q → q.Holds s.heap (chains x)
  nobody : ∀ x, s.queue x = none → chains x = []
  shares : Shares s.heap (fun x => addresses (chains x)) astray
  finite : {x | (s.queue x).isSome}.Finite

variable {s t : Queues α} {chains chains' : ℕ → List (ℕ × α)} {astray : Finset ℕ}
  {xs ys : List (ℕ × α)} {h : NodeHeap α} {q : Queue} {c : ℕ × α} {x y a : ℕ}
  {allocator : NodeAllocator α}

theorem own_update : (fun y => addresses (Function.update chains x ys y)) =
    Function.update (fun y => addresses (chains y)) x (addresses ys) := by
  funext y
  by_cases hy : y = x
  · rw [hy, Function.update_self, Function.update_self]
  · rw [Function.update_of_ne hy, Function.update_of_ne hy]

theorem owns_start : Owns (start : Queues α) (fun _ => []) ∅ := by
  refine ⟨?_, fun _ _ => rfl, ⟨?_, ?_, ?_, ?_⟩, ?_⟩
  · rintro x q ⟨⟩
  · exact fun _ a ha => absurd ha List.not_mem_nil
  · exact fun _ _ _ a ha => absurd ha List.not_mem_nil
  · exact fun a ha => absurd ha (Finset.notMem_empty a)
  · rintro a ⟨⟩
  · refine Set.finite_empty.subset ?_
    rintro x ⟨⟩

theorem finite_set {o : Option Queue} (hfinite : {x | (s.queue x).isSome}.Finite) :
    {y | ((s.set x h o).queue y).isSome}.Finite := by
  refine (hfinite.insert x).subset fun y hy => ?_
  by_cases hyx : y = x
  · exact Or.inl hyx
  · have hsame : (s.set x h o).queue y = s.queue y := Function.update_of_ne hyx _ _
    rw [Set.mem_ofPred_eq, hsame] at hy
    exact Or.inr hy

/-- One queue has other nodes, and the chains of the others are as they were. -/
theorem Owns.replace {o : Option Queue} {astray' : Finset ℕ} (ho : Owns s chains astray)
    (hsame : ∀ y, y ≠ x → ∀ a ∈ addresses (chains y), h.node a = s.heap.node a)
    (hshares : Shares h (Function.update (fun y => addresses (chains y)) x (addresses ys)) astray')
    (hq : ∀ q, o = some q → q.Holds h ys) (hnone : o = none → ys = []) :
    Owns (s.set x h o) (Function.update chains x ys) astray' := by
  have hself : (s.set x h o).queue x = o := Function.update_self _ _ _
  have hother : ∀ y, y ≠ x → (s.set x h o).queue y = s.queue y := fun y hy =>
    Function.update_of_ne hy _ _
  refine ⟨fun y q hy => ?_, fun y hy => ?_, ?_, finite_set ho.finite⟩
  · by_cases hyx : y = x
    · subst hyx
      rw [Function.update_self]
      exact hq q (hself.symm.trans hy)
    · rw [Function.update_of_ne hyx]
      exact (ho.holds y q ((hother y hyx).symm.trans hy)).congr (hsame y hyx)
  · by_cases hyx : y = x
    · subst hyx
      rw [Function.update_self]
      exact hnone (hself.symm.trans hy)
    · rw [Function.update_of_ne hyx]
      exact ho.nobody y ((hother y hyx).symm.trans hy)
  · rwa [own_update]

/-- The chain of one queue is turned. -/
theorem Owns.set {o : Option Queue} (ho : Owns s chains astray)
    (hturns : Turns s.heap h (chains x) ys) (hlive : ∀ a ∈ addresses ys, (h.node a).isSome)
    (hq : ∀ q, o = some q → q.Holds h ys) (hnone : o = none → ys = []) :
    Owns (s.set x h o) (Function.update chains x ys) astray := by
  refine ho.replace (fun y hy a ha => ?_) (ho.shares.turn rfl hturns hlive) hq hnone
  exact (ho.shares.frame rfl hturns (Or.inr ⟨y, hy, ha⟩)).2

/-! ## One call -/

theorem Owns.construct (ho : Owns s chains astray) (hstep : s.construct x = some t) :
    Owns t (Function.update chains x []) astray := by
  unfold Queues.construct at hstep
  split at hstep
  · cases hstep
  · next hnew =>
      cases hstep
      have hx : chains x = [] := ho.nobody x (by simpa using hnew)
      refine ho.set ?_ (fun a ha => absurd ha List.not_mem_nil) ?_ fun hnone => by cases hnone
      · rw [hx]
        exact Turns.refl _ _
      · rintro q ⟨⟩
        exact Queue.holds_nil

theorem Owns.enqueue {data : α} (ho : Owns s chains astray)
    (hstep : s.enqueue x allocator data = some t) :
    ∃ a, Owns t (Function.update chains x (chains x ++ [(a, data)])) astray := by
  obtain ⟨q, hq, hstep⟩ := Option.bind_eq_some_iff.mp hstep
  obtain ⟨⟨h, q'⟩, henqueue, hset⟩ := Option.bind_eq_some_iff.mp hstep
  cases hset
  obtain ⟨a, hpick⟩ := Queue.pick_of_enqueue henqueue
  have hholds := ho.holds x q hq
  have hpick' : allocator.pick s.heap = some (a, data).1 := hpick
  obtain ⟨h₁, q₁, heq, hnew, hsame⟩ := hholds.enqueue hpick'
  obtain ⟨rfl, rfl⟩ : h₁ = h ∧ q₁ = q' := by simpa using heq.symm.trans henqueue
  have hdead : s.heap.node a = none := allocator.fresh s.heap a hpick
  refine ⟨a, ho.set ⟨fun b hb hn => ?_, fun b hb hn => ?_, fun b hb hn => ?_⟩ ?_ ?_ ?_⟩
  · exact hsame b hb fun heq => hn (by simp [heq])
  · rw [addresses_append] at hb
    rcases List.mem_append.mp hb with hb | hb
    · exact absurd hb hn
    · rw [List.mem_singleton.mp hb]
      exact hdead
  · exact absurd (by simp [hb]) hn
  · exact hnew.linked.live
  · rintro q ⟨⟩
    exact hnew
  · rintro ⟨⟩

/-- The node is left behind. -/
theorem Owns.dequeue (ho : Owns s chains astray) (hstep : s.dequeue x = some t) :
    ∃ c xs, chains x = c :: xs ∧ Owns t (Function.update chains x xs) (insert c.1 astray) := by
  obtain ⟨q, hq, hstep⟩ := Option.bind_eq_some_iff.mp hstep
  obtain ⟨⟨data, q'⟩, hdequeue, hset⟩ := Option.bind_eq_some_iff.mp hstep
  cases hset
  have hholds := ho.holds x q hq
  cases hx : chains x with
  | nil =>
      rw [hx] at hholds
      have hhead : s.heap.load q.head = none := by
        rw [hholds.head]
        rfl
      rw [Queue.dequeue, hhead] at hdequeue
      cases hdequeue
  | cons c xs =>
      rw [hx] at hholds
      obtain ⟨q₁, heq, hrest⟩ := hholds.dequeue
      obtain ⟨-, rfl⟩ : c.2 = data ∧ q₁ = q' := by simpa using heq.symm.trans hdequeue
      have hown : addresses (chains x) = c.1 :: addresses xs := by rw [hx, addresses_cons]
      have hnot : c.1 ∉ addresses xs := (List.nodup_cons.mp hholds.nodup).1
      refine ⟨c, xs, rfl, ho.replace (fun _ _ _ _ => rfl) (ho.shares.lose hown hnot) ?_ ?_⟩
      · rintro q ⟨⟩
        exact hrest
      · rintro ⟨⟩

theorem Owns.destroys (ho : Owns s chains astray) (hq : s.queue x = some q) :
    ∃ t, s.destroy x = some t ∧ Owns t (Function.update chains x []) astray ∧
      ∀ a ∈ addresses (chains x), t.heap.node a = none := by
  have hholds := ho.holds x q hq
  obtain ⟨h, hfree, hturns⟩ := NodeVector.freeFrom_eq hholds.linked hholds.nodup
    (hholds.linked.length_le_log hholds.nodup)
  rw [← hholds.head] at hfree
  refine ⟨s.set x h none, ?_, ?_, fun a ha => hturns.gone a ha List.not_mem_nil⟩
  · rw [Queues.destroy, hq, Option.bind_eq_bind, Option.bind_some, hfree]
    rfl
  · refine ho.set hturns (fun a ha => absurd ha List.not_mem_nil) ?_ fun _ => rfl
    rintro q ⟨⟩

theorem Owns.destroy (ho : Owns s chains astray) (hstep : s.destroy x = some t) :
    Owns t (Function.update chains x []) astray := by
  obtain ⟨q, hq, -⟩ := Option.bind_eq_some_iff.mp hstep
  obtain ⟨u, hu, hown, -⟩ := ho.destroys hq
  rw [hu] at hstep
  cases hstep
  exact hown

/-! ## Copying -/

theorem set_queue_self {o : Option Queue} : (s.set x h o).queue x = o := Function.update_self _ _ _

theorem set_queue_of_ne {o : Option Queue} (hy : y ≠ x) : (s.set x h o).queue y = s.queue y :=
  Function.update_of_ne hy _ _

theorem set_set {o o' : Option Queue} {h' : NodeHeap α} :
    (s.set x h o).set x h' o' = s.set x h' o' := by
  rw [Queues.set, Queues.set, Queues.set, Function.update_idem]

/-- The heap is the one of the last call. -/
theorem set_comm {o o' : Option Queue} {h₁ h₂ : NodeHeap α} (hne : x ≠ y) :
    (s.set x h₁ o).set y h o' = (s.set y h₂ o').set x h o := by
  simp only [Queues.set, Function.update_comm hne]

theorem set_again {o o' o'' : Option Queue} {h₁ h₂ : NodeHeap α} (hne : x ≠ y) :
    ((s.set x h₁ o).set y h₂ o').set x h o'' = (s.set y h₂ o').set x h o'' := by
  simp only [Queues.set, Function.update_comm hne, Function.update_idem]

theorem set_self (hq : s.queue x = some q) : s.set x s.heap (some q) = s := by
  rw [Queues.set, ← hq, Function.update_eq_self]

/-- A turn of the copy constructor leaves the first node of the other queue behind. -/
theorem Owns.turn {p p₁ q₁ q₂ : Queue} {h₁ h₂ : NodeHeap α} {data : α}
    (ho : Owns s chains astray) (hne : x ≠ y) (hp : s.queue x = some p) (hq : s.queue y = some q)
    (hdequeue : q.dequeue s.heap = some (data, q₁))
    (hfirst : p.enqueue s.heap allocator data = some (h₁, p₁))
    (hsecond : q₁.enqueue h₁ allocator data = some (h₂, q₂)) :
    ∃ chains' b, Owns ((s.set y h₂ (some q₂)).set x h₂ (some p₁)) chains' (insert b astray) := by
  have hstep₁ : s.dequeue y = some (s.set y s.heap (some q₁)) := by
    rw [Queues.dequeue, hq, Option.bind_eq_bind, Option.bind_some, hdequeue]
    rfl
  have hstep₂ : (s.set y s.heap (some q₁)).enqueue x allocator data =
      some ((s.set y s.heap (some q₁)).set x h₁ (some p₁)) := by
    have henqueue : p.enqueue (s.set y s.heap (some q₁)).heap allocator data = some (h₁, p₁) :=
      hfirst
    rw [Queues.enqueue, set_queue_of_ne hne, hp, Option.bind_eq_bind, Option.bind_some, henqueue]
    rfl
  have hstep₃ : ((s.set y s.heap (some q₁)).set x h₁ (some p₁)).enqueue y allocator data =
      some ((s.set y h₂ (some q₂)).set x h₂ (some p₁)) := by
    have henqueue : q₁.enqueue ((s.set y s.heap (some q₁)).set x h₁ (some p₁)).heap allocator
      data = some (h₂, q₂) := hsecond
    rw [Queues.enqueue, set_queue_of_ne hne.symm, set_queue_self, Option.bind_eq_bind,
      Option.bind_some, henqueue]
    exact congrArg some ((set_again hne.symm).trans (set_comm hne))
  obtain ⟨c, xs, -, ho₁⟩ := ho.dequeue hstep₁
  obtain ⟨a, ho₂⟩ := ho₁.enqueue hstep₂
  obtain ⟨b, ho₃⟩ := ho₂.enqueue hstep₃
  exact ⟨_, c.1, ho₃⟩

theorem Owns.unchanged {p : Queue} (ho : Owns s chains astray) (hp : s.queue x = some p)
    (hq : s.queue y = some q) :
    Owns ((s.set y s.heap (some q)).set x s.heap (some p)) chains astray := by
  rwa [set_self hq, set_self hp]

theorem Owns.copyFrom {p p' q' : Queue} {i todo : ℕ} (ho : Owns s chains astray) (hne : x ≠ y)
    (hp : s.queue x = some p) (hq : s.queue y = some q)
    (hcopy : Queue.copyFrom allocator todo i s.heap p q = some (h, p', q')) :
    ∃ chains' astray', Owns ((s.set y h (some q')).set x h (some p')) chains' astray' ∧
      astray ⊆ astray' ∧ (¬ (i : ℤ) < q.size → astray' = astray) ∧
      ((i : ℤ) < q.size → astray'.Nonempty) := by
  induction todo generalizing s chains astray p q i with
  | zero =>
      rw [Queue.copyFrom] at hcopy
      split at hcopy
      · cases hcopy
      · next hend =>
          cases hcopy
          exact ⟨chains, astray, ho.unchanged hp hq, le_rfl, fun _ => rfl,
            fun hmore => absurd hmore hend⟩
  | succ todo ih =>
      rw [Queue.copyFrom] at hcopy
      split at hcopy
      · next hmore =>
          obtain ⟨⟨data, q₁⟩, hdequeue, hcopy⟩ := Option.bind_eq_some_iff.mp hcopy
          obtain ⟨⟨h₁, p₁⟩, hfirst, hcopy⟩ := Option.bind_eq_some_iff.mp hcopy
          obtain ⟨⟨h₂, q₂⟩, hsecond, hcopy⟩ := Option.bind_eq_some_iff.mp hcopy
          obtain ⟨chains₁, b, ho₁⟩ := ho.turn hne hp hq hdequeue hfirst hsecond
          have hq₁ : ((s.set y h₂ (some q₂)).set x h₂ (some p₁)).queue y = some q₂ := by
            rw [set_queue_of_ne hne.symm, set_queue_self]
          obtain ⟨chains', astray', ho', hmono, -, -⟩ := ih ho₁ set_queue_self hq₁ hcopy
          have hstate : (((s.set y h₂ (some q₂)).set x h₂ (some p₁)).set y h (some q')).set x h
              (some p') = (s.set y h (some q')).set x h (some p') := by
            rw [set_again hne, set_set]
          rw [hstate] at ho'
          refine ⟨chains', astray', ho', ?_, fun hend => absurd hmore hend, fun _ => ?_⟩
          · exact (Finset.subset_insert b astray).trans hmono
          · exact ⟨b, hmono (Finset.mem_insert_self b astray)⟩
      · next hend =>
          cases hcopy
          exact ⟨chains, astray, ho.unchanged hp hq, le_rfl, fun _ => rfl,
            fun hmore => absurd hmore hend⟩

theorem Owns.copy (ho : Owns s chains astray) (hstep : s.copy x y allocator = some t) :
    ∃ chains' astray', Owns t chains' astray' ∧ astray ⊆ astray' ∧
      (s.Spares (.copy x y allocator) → astray' = astray) ∧
      (¬ s.Spares (.copy x y allocator) → astray'.Nonempty) := by
  unfold Queues.copy at hstep
  split at hstep
  · cases hstep
  · next hnew =>
      obtain ⟨q, hq, hstep⟩ := Option.bind_eq_some_iff.mp hstep
      obtain ⟨⟨h, p', q'⟩, hcopy, hset⟩ := Option.bind_eq_some_iff.mp hstep
      cases hset
      have hne : x ≠ y := by
        rintro rfl
        rw [hq] at hnew
        exact hnew rfl
      have hmake : s.construct x = some (s.set x s.heap (some emptyQueue)) := if_neg hnew
      have hq₁ : (s.set x s.heap (some emptyQueue)).queue y = some q :=
        (set_queue_of_ne hne.symm).trans hq
      obtain ⟨chains', astray', ho', hmono, hkept, hlost⟩ :=
        (ho.construct hmake).copyFrom hne set_queue_self hq₁ hcopy
      rw [set_again hne] at ho'
      have hspares : s.Spares (.copy x y allocator) ↔ ¬ ((0 : ℕ) : ℤ) < q.size := by
        obtain ⟨hempty, -⟩ := (ho.holds y q hq).empty_iff
        have hsize : 0 ≤ q.size := by
          rw [Queue.size, (ho.holds y q hq).size]
          exact Int.natCast_nonneg _
        constructor
        · intro hall hpos
          have hzero := hempty.mp (hall q hq)
          omega
        · intro hend q₁ hq₁
          obtain rfl : q = q₁ := Option.some.inj (hq.symm.trans hq₁)
          exact hempty.mpr (by omega)
      exact ⟨chains', astray', ho', hmono, fun hsp => hkept (hspares.mp hsp),
        fun hsp => hlost (not_not.mp fun hend => hsp (hspares.mpr hend))⟩

/-! ## Runs -/

theorem step_owns {e : Action α} (ho : Owns s chains astray) (hstep : step s e = some t) :
    ∃ chains' astray', Owns t chains' astray' ∧ astray ⊆ astray' ∧
      (s.Spares e → astray' = astray) ∧ (¬ s.Spares e → astray'.Nonempty) := by
  cases e with
  | construct x =>
      exact ⟨_, astray, ho.construct hstep, le_rfl, fun _ => rfl, fun hn => absurd trivial hn⟩
  | copy x y allocator => exact ho.copy hstep
  | destroy x =>
      exact ⟨_, astray, ho.destroy hstep, le_rfl, fun _ => rfl, fun hn => absurd trivial hn⟩
  | enqueue x data allocator =>
      obtain ⟨a, ho'⟩ := ho.enqueue hstep
      exact ⟨_, astray, ho', le_rfl, fun _ => rfl, fun hn => absurd trivial hn⟩
  | dequeue x =>
      obtain ⟨c, xs, -, ho'⟩ := ho.dequeue hstep
      exact ⟨_, _, ho', Finset.subset_insert c.1 astray, fun hsp => hsp.elim,
        fun _ => Finset.insert_nonempty c.1 astray⟩

/-- Once a node is astray there is always one. -/
theorem run_owns {as : List (Action α)} (ho : Owns s chains astray)
    (hrun : run step s as = some t) : ∃ chains' astray', Owns t chains' astray' ∧
      (astray' = ∅ ↔ astray = ∅ ∧ RunAll step Spares s as) := by
  induction as generalizing s chains astray with
  | nil =>
      cases hrun
      exact ⟨chains, astray, ho, (and_iff_left trivial).symm⟩
  | cons e as ih =>
      obtain ⟨u, hu, hrest⟩ := Option.bind_eq_some_iff.mp hrun
      obtain ⟨chains₁, astray₁, ho₁, hmono, hkept, hlost⟩ := step_owns ho hu
      obtain ⟨chains', astray', ho', hiff⟩ := ih ho₁ hrest
      refine ⟨chains', astray', ho', hiff.trans ?_⟩
      rw [runAll_cons]
      constructor
      · rintro ⟨rfl, hall⟩
        refine ⟨Finset.subset_empty.mp hmono, ?_, fun v hv => ?_⟩
        · by_contra hnot
          exact Finset.not_nonempty_empty (hlost hnot)
        · obtain rfl : u = v := Option.some.inj (hu.symm.trans hv)
          exact hall
      · rintro ⟨rfl, hsp, hall⟩
        exact ⟨hkept hsp, hall u hu⟩

/-! ## Reclaimed -/

theorem Owns.reachable_iff (ho : Owns s chains astray) :
    s.Reachable a ↔ ∃ x, a ∈ addresses (chains x) := by
  constructor
  · rintro ⟨x, q, hq, hreach⟩
    exact ⟨x, (ho.holds x q hq).reaches_iff.mp hreach⟩
  · rintro ⟨x, hx⟩
    cases hq : s.queue x with
    | none =>
        rw [ho.nobody x hq] at hx
        exact absurd hx List.not_mem_nil
    | some q => exact ⟨x, q, hq, (ho.holds x q hq).reaches_iff.mpr hx⟩

theorem Owns.sizeAt_eq (ho : Owns s chains astray) (x : ℕ) : s.sizeAt x = (chains x).length := by
  rw [sizeAt]
  cases hq : s.queue x with
  | none =>
      rw [ho.nobody x hq]
      rfl
  | some q => exact (ho.holds x q hq).size

theorem Owns.nodup (ho : Owns s chains astray) (x : ℕ) : (addresses (chains x)).Nodup := by
  cases hq : s.queue x with
  | none =>
      rw [ho.nobody x hq]
      exact List.nodup_nil
  | some q => exact (ho.holds x q hq).nodup

theorem Owns.count (ho : Owns s chains astray) :
    ({a | (s.heap.node a).isSome}.ncard : ℤ) = astray.card + ∑ᶠ x, s.sizeAt x := by
  have howners : ∀ x, addresses (chains x) ≠ [] → x ∈ ho.finite.toFinset := by
    intro x hx
    rw [Set.Finite.mem_toFinset]
    cases hq : s.queue x with
    | none =>
        rw [ho.nobody x hq] at hx
        exact absurd rfl hx
    | some q =>
        rw [Set.mem_ofPred_eq, hq]
        rfl
  have hsupport : Function.support s.sizeAt ⊆ ho.finite.toFinset := by
    intro x hx
    refine howners x fun hnil => hx ?_
    rw [ho.sizeAt_eq, ← length_addresses, hnil]
    rfl
  rw [ho.shares.ncard_live ho.finite.toFinset ho.nodup howners,
    finsum_eq_sum_of_support_subset _ hsupport]
  simp only [ho.sizeAt_eq, length_addresses, Nat.cast_add, Nat.cast_sum]

theorem Owns.reclaimed_iff (ho : Owns s chains astray) : s.Reclaimed ↔ astray = ∅ := by
  constructor
  · intro hr
    refine Finset.eq_empty_of_forall_notMem fun a ha => ?_
    obtain ⟨hlive, hnobody⟩ := ho.shares.lost a ha
    obtain ⟨x, hx⟩ := ho.reachable_iff.mp ((hr.reachable a).mp hlive)
    exact hnobody x hx
  · rintro rfl
    refine ⟨fun a => ?_, ho.finite, ?_, fun x q hq => ?_⟩
    · rw [ho.reachable_iff]
      constructor
      · intro ha
        exact (ho.shares.used a ha).resolve_left (Finset.notMem_empty a)
      · rintro ⟨x, hx⟩
        exact ho.shares.live x a hx
    · rw [ho.count, Finset.card_empty, Nat.cast_zero, zero_add]
    · obtain ⟨t, ht, -, hgone⟩ := ho.destroys hq
      exact ⟨t, ht, fun a ha => hgone a ((ho.holds x q hq).reaches_iff.mp ha)⟩

/-- The nodes are reclaimed as long as nothing is taken out. -/
theorem nodesReclaimed_iff {as : List (Action α)} (hrun : run step start as = some t) :
    t.Reclaimed ↔ RunAll step Spares start as := by
  obtain ⟨chains, astray, ho, hiff⟩ := run_owns owns_start hrun
  rw [ho.reclaimed_iff, hiff]
  exact and_iff_right rfl

/-- A queue is filled, an empty one is copied, and the first one is destroyed. -/
def filledActions : List (Action ℕ) :=
  [.construct 0, .enqueue 0 5 .beyond, .enqueue 0 6 .beyond, .construct 1, .copy 2 1 .beyond,
    .destroy 0]

theorem nodesReclaimed_iff_filled : ∃ t, run step start filledActions = some t ∧
    (t.Reclaimed ↔ RunAll step Spares start filledActions) :=
  ⟨_, rfl, nodesReclaimed_iff rfl⟩

/-- What happens for a pressed key that is read. -/
def keyActions : List (Action ℕ) := [.construct 0, .enqueue 0 97 .beyond, .dequeue 0]

theorem not_nodesReclaimed : ∃ t, run step start keyActions = some t ∧ ¬ t.Reclaimed := by
  refine ⟨_, rfl, fun hr => ?_⟩
  obtain ⟨x, q, hq, hreach⟩ := (hr.reachable 0).mp rfl
  cases x with
  | zero =>
      cases hq
      cases hreach
  | succ x => cases hq

end Queues

end AviKernel
