import AviKernel.Library.NodeChain
import AviKernel.Library.Runs

/-!
# The Queue container

A queue keeps its first node, its last node and its length, for which an integer does:
memory has no room for `2 ^ 31` nodes.  What is taken out is not deleted.  A queue is
copied by turning the other one round once.
-/

namespace AviKernel

open NodeHeap

structure Queue where
  head : Link
  tail : Link
  queueSize : ℤ

namespace Queue

section Definitions

variable {α : Type} (h : NodeHeap α) (q : Queue) (allocator : NodeAllocator α)

def enqueue (data : α) : Option (NodeHeap α × Queue) := do
  let (newNode, h) ← h.new allocator ⟨data, none⟩
  if q.head = none then some (h, ⟨some newNode, some newNode, q.queueSize + 1⟩)
  else do
    let h ← h.setNext q.tail (some newNode)
    some (h, ⟨q.head, some newNode, q.queueSize + 1⟩)

def dequeue : Option (α × Queue) := do
  let node ← h.load q.head
  let tail := if q.head = q.tail then none else q.tail
  some (node.data, ⟨node.next, tail, q.queueSize - 1⟩)

def top : Option α := (h.load q.head).map Node.data

def empty : Bool := q.head = none

def size : ℤ := q.queueSize

/-- The loop of the copy constructor from the turn `i` on.  The length of the other queue
is asked for at every turn; there are not more turns than it was at first. -/
def copyFrom : ℕ → ℕ → NodeHeap α → Queue → Queue → Option (NodeHeap α × Queue × Queue)
  | 0, i, h, q, other => if i < other.size then none else some (h, q, other)
  | todo + 1, i, h, q, other =>
      if i < other.size then do
        let (data, other) ← other.dequeue h
        let (h, q) ← q.enqueue h allocator data
        let (h, other) ← other.enqueue h allocator data
        copyFrom todo (i + 1) h q other
      else some (h, q, other)

/-- The copy, and the queue that was copied as it is afterwards. -/
def copy (other : Queue) : Option (NodeHeap α × Queue × Queue) :=
  copyFrom allocator other.size.toNat 0 h ⟨none, none, 0⟩ other

end Definitions

/-! ## The elements of a queue -/

variable {α : Type} {h h' : NodeHeap α} {q : Queue} {xs ys : List (ℕ × α)} {c : ℕ × α}
  {allocator : NodeAllocator α}

/-- The chain from the head has the nodes `xs`; the tail and the length are theirs. -/
structure Holds (h : NodeHeap α) (q : Queue) (xs : List (ℕ × α)) : Prop extends
    Chain h q.head xs where
  tail : q.tail = lastLink xs
  size : q.queueSize = xs.length

theorem Holds.congr (hq : Holds h q xs) (hsame : ∀ a ∈ addresses xs, h'.node a = h.node a) :
    Holds h' q xs := ⟨hq.toChain.congr hsame, hq.tail, hq.size⟩

theorem holds_nil : Holds h ⟨none, none, 0⟩ [] := ⟨chain_nil, rfl, rfl⟩

theorem Holds.enqueue (hq : Holds h q xs) (hpick : allocator.pick h = some c.1) :
    ∃ h' q', q.enqueue h allocator c.2 = some (h', q') ∧ Holds h' q' (xs ++ [c]) ∧
      ∀ a, a ∉ addresses xs → a ≠ c.1 → h'.node a = h.node a := by
  obtain ⟨h₁, hnew, hnode, hsame⟩ := @new_eq _ h c.1 ⟨c.2, none⟩ allocator hpick
  have hnot := hq.toChain.notMem (allocator.fresh h c.1 hpick)
  have hold : Holds h₁ q xs := hq.congr fun a ha => hsame a (ne_of_mem_of_not_mem ha hnot)
  have hsize : q.queueSize + 1 = (xs ++ [c]).length := by
    rw [hq.size, List.length_append]
    rfl
  by_cases hnil : xs = []
  · subst hnil
    have hhead : q.head = none := hq.head
    refine ⟨h₁, ⟨some c.1, some c.1, q.queueSize + 1⟩, ?_, ⟨⟨rfl, ⟨hnode, trivial⟩,
      List.nodup_singleton c.1⟩, rfl, hsize⟩, fun a _ ha => hsame a ha⟩
    simp only [Queue.enqueue, hnew, if_pos hhead, Option.bind_eq_bind, Option.bind_some]
  · have hhead : q.head ≠ none := fun hnone => hnil (entry_eq_none.mp (hq.head.symm.trans hnone))
    obtain ⟨h₂, hset, hchain, hsame₂⟩ := hold.toChain.concat hnil hnode hnot
    refine ⟨h₂, ⟨q.head, some c.1, q.queueSize + 1⟩, ?_, ⟨hchain, ?_, hsize⟩,
      fun a hxs ha => (hsame₂ a hxs).trans (hsame a ha)⟩
    · rw [← hq.tail] at hset
      simp only [Queue.enqueue, hnew, if_neg hhead, hset, Option.bind_eq_bind, Option.bind_some]
    · rw [lastLink_concat]

/-- There was memory where `enqueue` has a result. -/
theorem pick_of_enqueue {data : α} {r : NodeHeap α × Queue}
    (henqueue : q.enqueue h allocator data = some r) : ∃ a, allocator.pick h = some a := by
  cases hpick : allocator.pick h with
  | some a => exact ⟨a, rfl⟩
  | none =>
      rw [Queue.enqueue, new_eq_none hpick] at henqueue
      cases henqueue

/-- The last node of a longer chain is not its first. -/
theorem entry_ne_lastLink (hnodup : (addresses (c :: xs)).Nodup) :
    some c.1 = lastLink (c :: xs) ↔ xs = [] := by
  rcases List.eq_nil_or_concat xs with rfl | ⟨xs, d, rfl⟩
  · exact iff_of_true rfl rfl
  · refine iff_of_false (fun heq => ?_) (by simp)
    rw [List.concat_eq_append] at heq hnodup
    rw [← List.cons_append, lastLink_concat, Option.some.injEq] at heq
    refine (List.nodup_cons.mp hnodup).1 ?_
    rw [heq]
    simp

theorem Holds.dequeue (hq : Holds h q (c :: xs)) :
    ∃ q', q.dequeue h = some (c.2, q') ∧ Holds h q' xs := by
  have hload : h.load q.head = some ⟨c.2, entry none xs⟩ := by
    rw [hq.head]
    exact hq.linked.1
  have htail : (if q.head = q.tail then none else q.tail) = lastLink xs := by
    have hiff := entry_ne_lastLink hq.nodup
    rw [hq.head, hq.tail, entry_cons]
    by_cases hnil : xs = []
    · rw [if_pos (hiff.mpr hnil), hnil]
      rfl
    · have hlast : lastLink ([c] ++ xs) = lastLink xs := lastLink_append hnil
      rw [if_neg fun heq => hnil (hiff.mp heq)]
      exact hlast
  refine ⟨⟨entry none xs, lastLink xs, q.queueSize - 1⟩, ?_,
    ⟨⟨rfl, hq.linked.2, (List.nodup_cons.mp hq.nodup).2⟩, rfl, ?_⟩⟩
  · simp only [Queue.dequeue, hload, htail, Option.bind_eq_bind, Option.bind_some]
  · have hsize : q.queueSize - 1 = xs.length := by
      rw [hq.size, List.length_cons]
      omega
    exact hsize

theorem Holds.top (hq : Holds h q xs) : q.top h = (xs.map Prod.snd).head? := by
  cases xs with
  | nil =>
      rw [Queue.top, hq.head]
      rfl
  | cons c xs =>
      have hload : h.load (some c.1) = some ⟨c.2, entry none xs⟩ := hq.linked.1
      rw [Queue.top, hq.head, entry_cons, hload]
      rfl

/-- The three views of the list agree on its being empty. -/
theorem Holds.empty_iff (hq : Holds h q xs) : (q.empty = true ↔ q.size = 0) ∧
    (q.size = 0 ↔ q.head = none) ∧ (q.head = none ↔ q.tail = none) := by
  have hempty : q.empty = true ↔ q.head = none := decide_eq_true_iff
  have hsize : q.size = 0 ↔ xs = [] := by
    rw [Queue.size, hq.size, Nat.cast_eq_zero, List.length_eq_zero_iff]
  have hhead : q.head = none ↔ xs = [] := by
    rw [hq.head]
    exact entry_eq_none
  have htail : q.tail = none ↔ xs = [] := by
    rw [hq.tail, lastLink, Option.map_eq_none_iff, List.getLast?_eq_none_iff]
  exact ⟨hempty.trans (hhead.trans hsize.symm), hsize.trans hhead.symm, hhead.trans htail.symm⟩

/-! ## Copying -/

/-- What is put into one queue is not in another. -/
theorem Holds.enqueue_beside {p : Queue} (hq : Holds h q xs) (hp : Holds h p ys)
    (hapart : ∀ a ∈ addresses xs, a ∉ addresses ys) (hsucceeds : allocator.Succeeds) (data : α) :
    ∃ a h' q', q.enqueue h allocator data = some (h', q') ∧ Holds h' q' (xs ++ [(a, data)]) ∧
      Holds h' p ys ∧ ∀ b ∈ addresses (xs ++ [(a, data)]), b ∉ addresses ys := by
  obtain ⟨a, hpick⟩ := Option.ne_none_iff_exists'.mp (hsucceeds h)
  have hpick' : allocator.pick h = some (a, data).1 := hpick
  obtain ⟨h', q', henqueue, hholds, hsame⟩ := hq.enqueue hpick'
  have ha := hp.toChain.notMem (allocator.fresh h a hpick)
  refine ⟨a, h', q', henqueue, hholds, hp.congr fun b hb => ?_, fun b hb hmem => ?_⟩
  · exact hsame b (fun hmem => hapart b hmem hb) (ne_of_mem_of_not_mem hb ha)
  · rw [addresses_append] at hb
    rcases List.mem_append.mp hb with hb | hb
    · exact hapart b hb hmem
    · rw [List.mem_singleton.mp hb] at hmem
      exact ha hmem

/-- In every turn the first element of the other queue comes behind the last ones of both. -/
theorem copyFrom_eq {l : List α} {p : Queue} {i todo : ℕ} (hp : Holds h p ys)
    (hq : Holds h q xs) (hapart : ∀ a ∈ addresses ys, a ∉ addresses xs)
    (hys : ys.map Prod.snd = l.take i) (hxs : xs.map Prod.snd = l.rotate i)
    (hsucceeds : allocator.Succeeds) (htodo : i + todo = l.length) :
    ∃ h' p' q' ys' xs', copyFrom allocator todo i h p q = some (h', p', q') ∧
      Holds h' p' ys' ∧ Holds h' q' xs' ∧ (∀ a ∈ addresses ys', a ∉ addresses xs') ∧
      ys'.map Prod.snd = l ∧ xs'.map Prod.snd = l := by
  have hlength : q.size = l.length := by
    have h := congrArg List.length hxs
    rw [List.length_map, List.length_rotate] at h
    rw [Queue.size, hq.size, h]
  induction todo generalizing h p q ys xs i with
  | zero =>
      rw [Nat.add_zero] at htodo
      subst htodo
      have hend : ¬ (l.length : ℤ) < q.size := by omega
      refine ⟨h, p, q, ys, xs, if_neg hend, hp, hq, hapart, ?_, ?_⟩
      · rw [hys, List.take_length]
      · rw [hxs, List.rotate_length]
  | succ todo ih =>
      have hi : i < l.length := by omega
      have hmore : (i : ℤ) < q.size := by omega
      have hrotate : l.rotate i = l[i] :: (l.drop (i + 1) ++ l.take i) := by
        rw [List.rotate_eq_drop_append_take hi.le, List.drop_eq_getElem_cons hi, List.cons_append]
      rw [hrotate] at hxs
      obtain ⟨c, xs, rfl, hc, hrest⟩ := List.map_eq_cons_iff.mp hxs
      obtain ⟨q₁, hdequeue, hq₁⟩ := hq.dequeue
      have hacross : ∀ b ∈ addresses ys, b ∉ addresses xs := fun b hb hmem =>
        hapart b hb (List.mem_cons_of_mem _ hmem)
      obtain ⟨a, h₂, p₂, henqueue₂, hp₂, hq₂, hapart₂⟩ :=
        hp.enqueue_beside hq₁ hacross hsucceeds c.2
      obtain ⟨b, h₃, q₃, henqueue₃, hq₃, hp₃, hapart₃⟩ :=
        hq₂.enqueue_beside hp₂ (fun d hd hmem => hapart₂ d hmem hd) hsucceeds c.2
      have hys₃ : (ys ++ [(a, c.2)]).map Prod.snd = l.take (i + 1) := by
        rw [List.map_append, hys, List.map_singleton, hc, List.take_append_getElem]
      have hxs₃ : (xs ++ [(b, c.2)]).map Prod.snd = l.rotate (i + 1) := by
        rw [List.rotate_eq_drop_append_take hi, ← List.take_append_getElem hi, List.map_append,
          hrest, List.map_singleton, hc, List.append_assoc]
      have hlength₃ : q₃.size = l.length := by
        have h := congrArg List.length hxs₃
        rw [List.length_map, List.length_rotate] at h
        rw [Queue.size, hq₃.size, h]
      obtain ⟨h', p', q', ys', xs', hcopy, hrest⟩ :=
        ih hp₃ hq₃ (fun d hd hmem => hapart₃ d hmem hd) hys₃ hxs₃ (by omega) hlength₃
      refine ⟨h', p', q', ys', xs', ?_, hrest⟩
      rw [copyFrom, if_pos hmore, hdequeue]
      simp only [henqueue₂, henqueue₃, Option.bind_eq_bind, Option.bind_some]
      exact hcopy

/-- The copy has the elements of the other queue in nodes of its own, and the other queue
has them, too. -/
def Copies (h : NodeHeap α) (other : Queue) (l : List α) (allocator : NodeAllocator α) : Prop :=
  ∃ h' p q ys xs, copy h allocator other = some (h', p, q) ∧ Holds h' p ys ∧ Holds h' q xs ∧
    (∀ a ∈ addresses ys, a ∉ addresses xs) ∧ ys.map Prod.snd = l ∧ xs.map Prod.snd = l

theorem Holds.copies (hq : Holds h q xs) (hsucceeds : allocator.Succeeds) :
    Copies h q (xs.map Prod.snd) allocator := by
  have htodo : q.size.toNat = (xs.map Prod.snd).length := by
    rw [Queue.size, hq.size, Int.toNat_natCast, List.length_map]
  rw [Copies, copy, htodo]
  exact copyFrom_eq holds_nil hq (fun a ha => absurd ha List.not_mem_nil) rfl
    (List.rotate_zero _).symm hsucceeds (Nat.zero_add _)

/-! ## Runs -/

/-- A queue, and what was taken out of it. -/
structure State (α : Type) where
  heap : NodeHeap α
  queue : Queue
  dequeued : List α

inductive Action (α : Type)
  | enqueue (data : α) (allocator : NodeAllocator α)
  | dequeue

def step (s : State α) : Action α → Option (State α)
  | .enqueue data allocator =>
      (s.queue.enqueue s.heap allocator data).map fun r => ⟨r.1, r.2, s.dequeued⟩
  | .dequeue => (s.queue.dequeue s.heap).map fun r => ⟨s.heap, r.2, s.dequeued ++ [r.1]⟩

/-- An empty queue on any heap. -/
def start (h : NodeHeap α) : State α := ⟨h, ⟨none, none, 0⟩, []⟩

/-- The allocations succeed, and the queue that is taken from is not empty. -/
def Allowed (s : State α) : Action α → Prop
  | .enqueue _ allocator => allocator.Succeeds
  | .dequeue => s.queue.empty = false

def enqueued : List (Action α) → List α
  | [] => []
  | .enqueue data _ :: as => data :: enqueued as
  | .dequeue :: as => enqueued as

def dequeues : List (Action α) → ℕ
  | [] => 0
  | .enqueue _ _ :: as => dequeues as
  | .dequeue :: as => dequeues as + 1

/-- The calls take out what was put in, in this order, and the rest is still there. -/
structure Fifo (as : List (Action α)) (s : State α) : Prop where
  dequeued : s.dequeued = (enqueued as).take (dequeues as)
  length_dequeued : s.dequeued.length = dequeues as
  top : s.queue.top s.heap = (enqueued as)[dequeues as]?
  size : s.queue.size = (enqueued as).length - dequeues as
  empty_iff : s.queue.empty = true ↔ s.queue.size = 0
  head_iff : s.queue.size = 0 ↔ s.queue.head = none
  tail_iff : s.queue.head = none ↔ s.queue.tail = none

/-- What is still there, behind what was taken out. -/
def Outstanding (s : State α) (l : List α) : Prop :=
  ∃ xs, Holds s.heap s.queue xs ∧ s.dequeued ++ xs.map Prod.snd = l

theorem step_outstanding {s : State α} {a : Action α} {l : List α} (hs : Outstanding s l)
    (ha : Allowed s a) : ∃ t, step s a = some t ∧ Outstanding t (l ++ enqueued [a]) ∧
      t.dequeued.length = s.dequeued.length + dequeues [a] := by
  obtain ⟨xs, hq, rfl⟩ := hs
  cases a with
  | enqueue data allocator =>
      obtain ⟨b, hpick⟩ := Option.ne_none_iff_exists'.mp (ha s.heap)
      have hpick' : allocator.pick s.heap = some (b, data).1 := hpick
      obtain ⟨h', q', henqueue, hholds, -⟩ := hq.enqueue hpick'
      refine ⟨⟨h', q', s.dequeued⟩, ?_, ⟨xs ++ [(b, data)], hholds, ?_⟩, rfl⟩
      · rw [step, henqueue, Option.map_some]
      · rw [List.map_append, ← List.append_assoc]
        rfl
  | dequeue =>
      cases xs with
      | nil =>
          have hempty : s.queue.empty = true := decide_eq_true hq.head
          rw [Allowed, hempty] at ha
          cases ha
      | cons c xs =>
          obtain ⟨q', hdequeue, hholds⟩ := hq.dequeue
          refine ⟨⟨s.heap, q', s.dequeued ++ [c.2]⟩, ?_, ⟨xs, hholds, ?_⟩, List.length_append⟩
          · rw [step, hdequeue, Option.map_some]
          · simp [enqueued]

theorem enqueued_cons {a : Action α} {as : List (Action α)} :
    enqueued (a :: as) = enqueued [a] ++ enqueued as := by
  cases a <;> rfl

theorem dequeues_cons {a : Action α} {as : List (Action α)} :
    dequeues (a :: as) = dequeues [a] + dequeues as := by
  cases a <;> simp [dequeues, Nat.add_comm]

theorem run_outstanding {as : List (Action α)} {s : State α} {l : List α} (hs : Outstanding s l)
    (hrun : RunAll step Allowed s as) : ∃ t, run step s as = some t ∧
      Outstanding t (l ++ enqueued as) ∧ t.dequeued.length = s.dequeued.length + dequeues as := by
  induction as generalizing s l with
  | nil => exact ⟨s, rfl, by simpa [enqueued] using hs, rfl⟩
  | cons a as ih =>
      obtain ⟨ha, hrest⟩ := hrun
      obtain ⟨u, hu, hout, hlength⟩ := step_outstanding hs ha
      obtain ⟨t, ht, hout', hlength'⟩ := ih hout (hrest u hu)
      refine ⟨t, by rw [run_cons, hu, Option.bind_some, ht], ?_, ?_⟩
      · rwa [enqueued_cons, ← List.append_assoc]
      · have hcons : dequeues (a :: as) = dequeues [a] + dequeues as := dequeues_cons
        rw [hlength', hlength, hcons, Nat.add_assoc]

theorem Outstanding.fifo {as : List (Action α)} {t : State α} (ht : Outstanding t (enqueued as))
    (hlength : t.dequeued.length = dequeues as) : Fifo as t := by
  obtain ⟨xs, hq, hl⟩ := ht
  obtain ⟨hempty, hhead, htail⟩ := hq.empty_iff
  have hsize : (enqueued as).length = dequeues as + xs.length := by
    rw [← hl, List.length_append, hlength, List.length_map]
  refine ⟨?_, hlength, ?_, ?_, hempty, hhead, htail⟩
  · rw [← hl, ← hlength, List.take_left]
  · rw [hq.top, ← hl, ← hlength, List.getElem?_append_right le_rfl, Nat.sub_self,
      List.head?_eq_getElem?]
  · rw [Queue.size, hq.size, hsize]
    omega

/-- Every run is first in, first out, and every queue can be copied. -/
theorem fifo_of_run {as : List (Action α)} (hrun : RunAll step Allowed (start h) as)
    (hq : Holds h' q xs) (hsucceeds : allocator.Succeeds) :
    (∃ t, run step (start h) as = some t ∧ Fifo as t) ∧
      Copies h' q (xs.map Prod.snd) allocator := by
  have hstart : Outstanding (start h) [] := ⟨[], holds_nil, rfl⟩
  obtain ⟨t, ht, hout, hlength⟩ := run_outstanding hstart hrun
  rw [List.nil_append] at hout
  exact ⟨⟨t, ht, hout.fifo (hlength.trans (Nat.zero_add _))⟩, hq.copies hsucceeds⟩

/-- A queue that drains and is filled again. -/
def drainedActions : List (Action ℕ) :=
  [.enqueue 5 .beyond, .dequeue, .enqueue 6 .beyond, .enqueue 7 .beyond, .dequeue]

theorem fifo_of_run_drained :
    (∃ t, run step (start NodeHeap.empty) drainedActions = some t ∧ Fifo drainedActions t) ∧
      Copies ((NodeHeap.empty.insert 1 ⟨6, none⟩ rfl).insert 0 ⟨5, some 1⟩ rfl)
        ⟨some 0, some 1, 2⟩ [5, 6] .beyond := by
  have hq : Holds ((NodeHeap.empty.insert 1 ⟨6, none⟩ rfl).insert 0 ⟨5, some 1⟩ rfl)
      ⟨some 0, some 1, 2⟩ [(0, 5), (1, 6)] :=
    ⟨⟨rfl, ⟨rfl, ⟨rfl, trivial⟩⟩, by decide⟩, rfl, rfl⟩
  refine fifo_of_run ?_ hq NodeAllocator.beyond_succeeds
  refine ⟨NodeAllocator.beyond_succeeds, fun s hs => ?_⟩
  cases hs
  refine ⟨rfl, fun s hs => ?_⟩
  cases hs
  refine ⟨NodeAllocator.beyond_succeeds, fun s hs => ?_⟩
  cases hs
  refine ⟨NodeAllocator.beyond_succeeds, fun s hs => ?_⟩
  cases hs
  exact ⟨rfl, fun _ _ => trivial⟩

end Queue

end AviKernel
