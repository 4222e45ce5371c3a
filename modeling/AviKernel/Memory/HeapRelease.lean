import AviKernel.Memory.HeapLayout

/-!
# Merging and releasing

`merge` tests both neighbours of a header it has just linked in.  After
`merge_previous` the header is no longer listed, yet `merge_next` still adds
the size of the next hole to it: that hole leaves the list and no listed hole
grows.  The extents it covered are reported as lost.
-/

namespace AviKernel.Heap

open State

variable {s s' : State} {holes live lost l₁ l₂ front rest es : List Extent}
  {c d e n q : Extent} {A : Set ℕ} {m₁ m₂ : List Extent}

/-- The list after the test against the next hole, the header being listed. -/
def joinNext (c : Extent) : List Extent → List Extent
  | [] => [c]
  | n :: rest =>
      if c.start + c.size = n.start then ⟨c.start, c.size + n.size⟩ :: rest else c :: n :: rest

/-- The list after the test against the next hole, the header being unlinked. -/
def skipNext (c : Extent) : List Extent → List Extent
  | [] => []
  | n :: rest => if c.start + c.size = n.start then rest else n :: rest

/-- The hole that `skipNext` drops. -/
def skipped (c : Extent) : List Extent → List Extent
  | [] => []
  | n :: _ => if c.start + c.size = n.start then [n] else []

/-- The holes after releasing `c` between the holes below and above it. -/
def releasedHoles (l₁ : List Extent) (c : Extent) (l₂ : List Extent) : List Extent :=
  match l₁.getLast? with
  | none => joinNext c l₂
  | some q =>
      if q.start + q.size = c.start then
        l₁.dropLast ++ ⟨q.start, q.size + c.size⟩ :: skipNext c l₂
      else l₁ ++ joinNext c l₂

/-- What releasing `c` loses. -/
def releasedLost (l₁ : List Extent) (c : Extent) (l₂ : List Extent) : List Extent :=
  match l₁.getLast? with
  | none => []
  | some q => if q.start + q.size = c.start then skipped c l₂ else []

theorem released_of_adjacent (h : q.start + q.size = c.start) :
    releasedHoles (front ++ [q]) c l₂ = front ++ ⟨q.start, q.size + c.size⟩ :: skipNext c l₂ ∧
      releasedLost (front ++ [q]) c l₂ = skipped c l₂ := by
  simp only [releasedHoles, releasedLost, List.getLast?_concat, if_pos h, List.dropLast_concat,
    and_self]

theorem released_of_apart (h : q.start + q.size ≠ c.start) :
    releasedHoles (front ++ [q]) c l₂ = (front ++ [q]) ++ joinNext c l₂ ∧
      releasedLost (front ++ [q]) c l₂ = [] := by
  simp only [releasedHoles, releasedLost, List.getLast?_concat, if_neg h, and_self]

/-- The headers of the extents lie in the set. -/
def HeadersIn (A : Set ℕ) (es : List Extent) : Prop :=
  ∀ e ∈ es, ∀ a, e.start ≤ a → a < e.start + 12 → a ∈ A

theorem HeadersIn.relinked (hA : HeadersIn A es) (hr : Relinked (es.map Extent.start) s s') :
    Touches A s s' :=
  hr.touches fun e he a h₁ h₂ => hA e he a (by omega) h₂

theorem HeadersIn.setSize {w : ℕ} (hA : HeadersIn A es) (he : e ∈ es) :
    Touches A s (s.setSize e.start w) :=
  Touches.setSize fun x h₁ h₂ => hA e he x h₁ (by omega)

theorem HeadersIn.of_starts {fs : List Extent} (hA : HeadersIn A es)
    (hsub : ∀ f ∈ fs, ∃ e ∈ es, f.start = e.start) : HeadersIn A fs := by
  intro f hf a h₁ h₂
  obtain ⟨e, he, heq⟩ := hsub f hf
  exact hA e he a (by omega) (by omega)

/-- An extent grows and its neighbour leaves the list. -/
theorem HeadersIn.joined {w : ℕ} (hA : HeadersIn A (front ++ [q] ++ c :: l₂)) :
    HeadersIn A (front ++ [⟨q.start, w⟩] ++ l₂) := by
  refine hA.of_starts fun f hf => ?_
  simp only [List.mem_append, List.mem_singleton] at hf
  rcases hf with (hf | rfl) | hf
  · exact ⟨f, by simp [hf], rfl⟩
  · exact ⟨q, by simp, rfl⟩
  · exact ⟨f, by simp [hf], rfl⟩

/-! ## The two merges -/

/-- A listed header overlaps none of the others. -/
theorem Holds.apart_others (hs : Holds s (l₁ ++ c :: l₂)) :
    ∀ y ∈ (l₁ ++ l₂).map Extent.start, y + 12 ≤ c.start ∨ c.start + 12 ≤ y := by
  intro y hy
  have hmem : y ∈ (l₁ ++ c :: l₂).map Extent.start := by
    simp only [List.map_append, List.map_cons, List.mem_append, List.mem_cons] at hy ⊢
    tauto
  have hclear := hs.list.clear hmem (b := c.start) (by simp)
  have hne : y ≠ c.start := by
    rintro rfl
    have hnodup := hs.list.nodup
    rw [List.map_append, List.map_cons, List.nodup_middle, List.nodup_cons,
      ← List.map_append] at hnodup
    exact hnodup.1 hy
  unfold Clear at hclear
  omega

/-- The links of a listed header. -/
theorem Holds.links_at (hs : Holds s (l₁ ++ c :: l₂)) :
    s.prev c.start = (l₁.map Extent.start).getLastD 0 ∧
      s.next c.start = (l₂.map Extent.start).headD 0 := by
  have hlinks : Links s.next s.prev 0 (l₁.map Extent.start ++ c.start :: l₂.map Extent.start) 0 := by
    simpa using hs.list.links
  exact hlinks.at_node

/-- The hole below has grown, and the header is still listed behind it. -/
theorem mergePrevious_resized (hs : Holds s (front ++ [q] ++ c :: l₂))
    (hadj : q.start + q.size = c.start) (htop : c.start + c.size < 2 ^ 32) :
    s.mergePrevious c.start =
        (s.setSize q.start (q.size + c.size)).removeFromHolesList c.start ∧
      Holds (s.setSize q.start (q.size + c.size))
        (front ++ [⟨q.start, q.size + c.size⟩] ++ c :: l₂) := by
  have hprev : s.prev c.start = q.start := by simpa using hs.links_at.1
  have hqsize := hs.sizes q (by simp)
  have hcsize := hs.sizes c (by simp)
  have hsum : add32 q.size c.size = q.size + c.size := add32_of_lt (by omega)
  have hs' : Holds s (front ++ q :: c :: l₂) := by simpa using hs
  refine ⟨?_, by simpa using hs'.resize (w := q.size + c.size) (by omega)⟩
  rw [mergePrevious, hprev, hqsize, hcsize, hsum]

theorem mergePrevious_links (hs : Holds s (front ++ [q] ++ c :: l₂))
    (hadj : q.start + q.size = c.start) (htop : c.start + c.size < 2 ^ 32) :
    (s.mergePrevious c.start).next c.start = (l₂.map Extent.start).headD 0 ∧
      (s.mergePrevious c.start).prev c.start = q.start := by
  obtain ⟨hstate, hresized⟩ := mergePrevious_resized hs hadj htop
  have hlinks := hresized.links_at
  have hfar := hresized.apart_others
  obtain ⟨-, hr⟩ := hresized.remove
  rw [hstate, hr.next_eq hfar, hr.prev_eq hfar, hlinks.1, hlinks.2]
  exact ⟨rfl, by simp⟩

theorem mergePrevious_holds (hs : Holds s (front ++ [q] ++ c :: l₂))
    (hadj : q.start + q.size = c.start) (htop : c.start + c.size < 2 ^ 32)
    (hA : HeadersIn A (front ++ [q] ++ c :: l₂)) :
    Holds (s.mergePrevious c.start) (front ++ ⟨q.start, q.size + c.size⟩ :: l₂) ∧
      (s.mergePrevious c.start).size c.start = c.size ∧
      (s.mergePrevious c.start).next c.start = (l₂.map Extent.start).headD 0 ∧
      Touches A s (s.mergePrevious c.start) := by
  have hcsize := hs.sizes c (by simp)
  have hnext := (mergePrevious_links hs hadj htop).1
  obtain ⟨hstate, hresized⟩ := mergePrevious_resized hs hadj htop
  obtain ⟨hholds, hr⟩ := hresized.remove
  have hfar := hresized.apart_others
  have hapart : q.start + 4 ≤ c.start ∨ c.start + 4 ≤ q.start := by
    have := hfar q.start (by simp)
    omega
  rw [hstate] at hnext ⊢
  refine ⟨by simpa using hholds, ?_, hnext, ?_⟩
  · rw [hr.size_eq fun y hy => Or.inr (hfar y hy), size_setSize_of_apart hapart, hcsize]
  · exact (hA.setSize (by simp)).trans (hA.joined.relinked hr)

theorem mergeNext_listed (hs : Holds s (l₁ ++ c :: n :: rest))
    (htop : n.start + n.size < 2 ^ 32) (hadj : c.start + c.size = n.start)
    (hA : HeadersIn A (l₁ ++ c :: n :: rest)) :
    Holds (s.mergeNext c.start) (l₁ ++ ⟨c.start, c.size + n.size⟩ :: rest) ∧
      Touches A s (s.mergeNext c.start) := by
  have hnext : s.next c.start = n.start := by simpa using hs.links_at.2
  have hcsize := hs.sizes c (by simp)
  have hnsize := hs.sizes n (by simp)
  have hsum : add32 c.size n.size = c.size + n.size := add32_of_lt (by omega)
  have hstate : s.mergeNext c.start =
      (s.setSize c.start (c.size + n.size)).removeFromHolesList n.start := by
    rw [mergeNext, hnext, hcsize, hnsize, hsum, next_setSize (Or.inl rfl), hnext]
  have hresized : Holds (s.setSize c.start (c.size + n.size))
      (l₁ ++ [⟨c.start, c.size + n.size⟩] ++ n :: rest) := by
    simpa using hs.resize (w := c.size + n.size) (by omega)
  obtain ⟨hholds, hr⟩ := hresized.remove
  rw [hstate]
  refine ⟨by simpa using hholds, ?_⟩
  refine (hA.setSize (by simp)).trans (HeadersIn.relinked (hA.of_starts fun f hf => ?_) hr)
  simp only [List.mem_append, List.mem_singleton] at hf
  rcases hf with (hf | rfl) | hf
  · exact ⟨f, by simp [hf], rfl⟩
  · exact ⟨c, by simp, rfl⟩
  · exact ⟨f, by simp [hf], rfl⟩

theorem mergeNext_unlisted (hs : Holds s (l₁ ++ n :: rest)) (hnext : s.next c.start = n.start)
    (hout : ∀ e ∈ l₁ ++ n :: rest, c.start + 4 ≤ e.start ∨ e.start + 12 ≤ c.start)
    (hA : HeadersIn A (l₁ ++ n :: rest)) (hcA : ∀ a, c.start ≤ a → a < c.start + 4 → a ∈ A) :
    Holds (s.mergeNext c.start) (l₁ ++ rest) ∧ Touches A s (s.mergeNext c.start) := by
  have hstored := hs.setSize (a := c.start) (w := add32 (s.size c.start) (s.size n.start)) hout
  have hstate : s.mergeNext c.start = (s.setSize c.start
      (add32 (s.size c.start) (s.size n.start))).removeFromHolesList n.start := by
    rw [mergeNext, next_setSize (Or.inl rfl), hnext]
  have hstore : Touches A s (s.setSize c.start (add32 (s.size c.start) (s.size n.start))) :=
    Touches.setSize hcA
  obtain ⟨hholds, hr⟩ := hstored.remove
  rw [hstate]
  refine ⟨hholds, hstore.trans (HeadersIn.relinked (hA.of_starts fun f hf => ⟨f, ?_, rfl⟩) hr)⟩
  simp only [List.mem_append, List.mem_cons] at hf ⊢
  tauto

/-! ## The whole merge -/

/-- The second test of `merge`. -/
def testNext (s : State) (header : ℕ) : State :=
  if add32 header (s.size header) = s.next header then s.mergeNext header else s

theorem testNext_listed (hs : Holds s (l₁ ++ c :: l₂))
    (htop : ∀ e ∈ c :: l₂, e.start + e.size < 2 ^ 32) (hA : HeadersIn A (l₁ ++ c :: l₂)) :
    Holds (testNext s c.start) (l₁ ++ joinNext c l₂) ∧ Touches A s (testNext s c.start) := by
  have hc := htop c List.mem_cons_self
  have hpos := hs.pos (e := c) (by simp)
  have hsize := hs.sizes c (by simp)
  have hsum : add32 c.start c.size = c.start + c.size := add32_of_lt hc
  have hnext := hs.links_at.2
  rw [testNext, hsize, hsum, hnext]
  cases l₂ with
  | nil =>
      have hne : c.start + c.size ≠ 0 := by omega
      rw [List.map_nil, List.headD_nil, if_neg hne]
      exact ⟨hs, Touches.refl A s⟩
  | cons n rest =>
      rw [List.map_cons, List.headD_cons, joinNext]
      by_cases hadj : c.start + c.size = n.start
      · rw [if_pos hadj, if_pos hadj]
        exact mergeNext_listed hs (htop n (by simp)) hadj hA
      · rw [if_neg hadj, if_neg hadj]
        exact ⟨hs, Touches.refl A s⟩

theorem testNext_unlisted (hs : Holds s (l₁ ++ l₂)) (hpos : 0 < c.start)
    (hsize : s.size c.start = c.size) (htop : c.start + c.size < 2 ^ 32)
    (hnext : s.next c.start = (l₂.map Extent.start).headD 0)
    (hout : ∀ e ∈ l₁ ++ l₂, c.start + 4 ≤ e.start ∨ e.start + 12 ≤ c.start)
    (hA : HeadersIn A (l₁ ++ l₂)) (hcA : ∀ a, c.start ≤ a → a < c.start + 4 → a ∈ A) :
    Holds (testNext s c.start) (l₁ ++ skipNext c l₂) ∧ Touches A s (testNext s c.start) := by
  have hsum : add32 c.start c.size = c.start + c.size := add32_of_lt htop
  rw [testNext, hsize, hsum, hnext]
  cases l₂ with
  | nil =>
      have hne : c.start + c.size ≠ 0 := by omega
      rw [List.map_nil, List.headD_nil, if_neg hne]
      exact ⟨hs, Touches.refl A s⟩
  | cons n rest =>
      rw [List.map_cons, List.headD_cons, skipNext]
      by_cases hadj : c.start + c.size = n.start
      · rw [if_pos hadj, if_pos hadj]
        exact mergeNext_unlisted hs (by simpa using hnext) hout hA hcA
      · rw [if_neg hadj, if_neg hadj]
        exact ⟨hs, Touches.refl A s⟩

theorem merge_eq (s : State) (h : ℕ) : s.merge h =
    testNext (if add32 (s.prev h) (s.size (s.prev h)) = h then s.mergePrevious h else s) h := rfl

/-- A header without a listed hole before it compares itself with the word at address
zero. -/
theorem merge_apart (hs : Holds s (l₁ ++ c :: l₂))
    (htop : ∀ e ∈ l₁ ++ c :: l₂, e.start + e.size < 2 ^ 32)
    (hzero : l₁ = [] → s.memory.load 0 ≠ c.start)
    (hapart : ∀ q ∈ l₁.getLast?, q.start + q.size ≠ c.start) :
    s.merge c.start = testNext s c.start := by
  have hprev := hs.links_at.1
  rw [merge_eq]
  congr 1
  apply if_neg
  rcases List.eq_nil_or_concat' l₁ with rfl | ⟨front, q, rfl⟩
  · have hword : add32 0 (s.size 0) = s.memory.load 0 := by
      rw [add32_of_lt (by simpa using size_lt), Nat.zero_add, size]
    rw [List.map_nil, List.getLastD_nil] at hprev
    rw [hprev, hword]
    exact hzero rfl
  · have hprev' : s.prev c.start = q.start := by simpa using hprev
    have hsum : add32 q.start q.size = q.start + q.size := add32_of_lt (htop q (by simp))
    rw [hprev', hs.sizes q (by simp), hsum]
    exact hapart q (by simp)

theorem merge_joined (hs : Holds s (front ++ [q] ++ c :: l₂)) (htop : q.start + q.size < 2 ^ 32)
    (hadj : q.start + q.size = c.start) :
    s.merge c.start = testNext (s.mergePrevious c.start) c.start := by
  have hprev : s.prev c.start = q.start := by simpa using hs.links_at.1
  have hsum : add32 q.start q.size = q.start + q.size := add32_of_lt htop
  rw [merge_eq]
  congr 1
  apply if_pos
  rw [hprev, hs.sizes q (by simp), hsum]
  exact hadj

/-- The header that has left the list overlaps none of the listed ones. -/
theorem Holds.apart_joined {w : ℕ} (hs : Holds s (front ++ [q] ++ c :: l₂)) :
    ∀ e ∈ front ++ [⟨q.start, w⟩] ++ l₂, e.start + 12 ≤ c.start ∨ c.start + 12 ≤ e.start := by
  intro e he
  apply hs.apart_others
  have := List.mem_map_of_mem (f := Extent.start) he
  simpa using this

/-- `merge` turns the list with the released extent into `releasedHoles`. -/
theorem merge_holds (hs : Holds s (l₁ ++ c :: l₂))
    (htop : ∀ e ∈ l₁ ++ c :: l₂, e.start + e.size < 2 ^ 32)
    (hzero : l₁ = [] → s.memory.load 0 ≠ c.start) (hA : HeadersIn A (l₁ ++ c :: l₂)) :
    Holds (s.merge c.start) (releasedHoles l₁ c l₂) ∧ Touches A s (s.merge c.start) := by
  have habove : ∀ e ∈ c :: l₂, e.start + e.size < 2 ^ 32 := fun e he =>
    htop e (List.mem_append_right l₁ he)
  rcases List.eq_nil_or_concat' l₁ with rfl | ⟨front, q, rfl⟩
  · rw [merge_apart hs htop hzero (by simp)]
    exact testNext_listed hs habove hA
  · by_cases hadj : q.start + q.size = c.start
    · obtain ⟨hholds, hsize, hnext, ht⟩ := mergePrevious_holds hs hadj (habove c (by simp)) hA
      have hreleased : releasedHoles (front ++ [q]) c l₂ =
          (front ++ [⟨q.start, q.size + c.size⟩]) ++ skipNext c l₂ := by
        rw [(released_of_adjacent hadj).1, List.append_assoc]
        rfl
      have hout : ∀ e ∈ front ++ [⟨q.start, q.size + c.size⟩] ++ l₂,
          c.start + 4 ≤ e.start ∨ e.start + 12 ≤ c.start := by
        intro e he
        have := hs.apart_joined e he
        omega
      obtain ⟨hholds', ht'⟩ := testNext_unlisted (c := c) (by simpa using hholds)
        (hs.pos (by simp)) hsize (habove c (by simp)) hnext hout hA.joined
        fun a h₁ h₂ => hA c (by simp) a h₁ (by omega)
      rw [merge_joined hs (htop q (by simp)) hadj, hreleased]
      exact ⟨hholds', ht.trans ht'⟩
    · rw [merge_apart hs htop hzero (by simpa using hadj), (released_of_apart hadj).1]
      exact testNext_listed hs habove hA

/-! ## The links that are left -/

/-- The holes above a released header that its links follow. -/
def linkedAbove (l₁ : List Extent) (c : Extent) (l₂ : List Extent) : List Extent :=
  match l₁.getLast? with
  | none => skipNext c l₂
  | some q => if q.start + q.size = c.start then l₂ else skipNext c l₂

theorem joinNext_eq (c : Extent) (l₂ : List Extent) :
    ∃ d : Extent, joinNext c l₂ = d :: skipNext c l₂ ∧ d.start = c.start ∧ c.size ≤ d.size := by
  cases l₂ with
  | nil => exact ⟨c, rfl, rfl, le_rfl⟩
  | cons n rest =>
      rw [joinNext, skipNext]
      split_ifs with hadj
      · exact ⟨⟨c.start, c.size + n.size⟩, rfl, rfl, Nat.le_add_right c.size n.size⟩
      · exact ⟨c, rfl, rfl, le_rfl⟩

theorem testNext_links (hs : Holds s (l₁ ++ c :: l₂))
    (htop : ∀ e ∈ c :: l₂, e.start + e.size < 2 ^ 32) :
    (testNext s c.start).next c.start = ((skipNext c l₂).map Extent.start).headD 0 ∧
      (testNext s c.start).prev c.start = (l₁.map Extent.start).getLastD 0 := by
  obtain ⟨d, hjoin, hstart, -⟩ := joinNext_eq c l₂
  have hall : HeadersIn Set.univ (l₁ ++ c :: l₂) := fun _ _ _ _ _ => Set.mem_univ _
  have hholds := (testNext_listed hs htop hall).1
  rw [hjoin] at hholds
  have hlinks := hholds.links_at
  rw [hstart] at hlinks
  exact hlinks.symm

/-- The links of the header stay when the hole above it is taken off the list. -/
theorem testNext_links_unlisted (hs : Holds s (l₁ ++ l₂)) (hpos : 0 < c.start)
    (hsize : s.size c.start = c.size) (htop : c.start + c.size < 2 ^ 32)
    (hnext : s.next c.start = (l₂.map Extent.start).headD 0)
    (hout : ∀ e ∈ l₁ ++ l₂, e.start + 12 ≤ c.start ∨ c.start + 12 ≤ e.start) :
    (testNext s c.start).next c.start = s.next c.start ∧
      (testNext s c.start).prev c.start = s.prev c.start := by
  have hheaders : HeadersIn {a | a < c.start + 4 ∨ c.start + 12 ≤ a} (l₁ ++ l₂) := by
    intro e he a h₁ h₂
    have := hout e he
    show a < c.start + 4 ∨ c.start + 12 ≤ a
    omega
  obtain ⟨-, ht⟩ := testNext_unlisted hs hpos hsize htop hnext
    (fun e he => by
      have := hout e he
      omega) hheaders fun a _ h => Or.inl h
  constructor
  · apply ht.confined.load_eq
    intro a h₁ h₂ ha
    have ha : a < c.start + 4 ∨ c.start + 12 ≤ a := ha
    omega
  · apply ht.confined.load_eq
    intro a h₁ h₂ ha
    have ha : a < c.start + 4 ∨ c.start + 12 ≤ a := ha
    omega

theorem merge_links (hs : Holds s (l₁ ++ c :: l₂))
    (htop : ∀ e ∈ l₁ ++ c :: l₂, e.start + e.size < 2 ^ 32)
    (hzero : l₁ = [] → s.memory.load 0 ≠ c.start) :
    (s.merge c.start).next c.start = ((linkedAbove l₁ c l₂).map Extent.start).headD 0 ∧
      (s.merge c.start).prev c.start = (l₁.map Extent.start).getLastD 0 := by
  have habove : ∀ e ∈ c :: l₂, e.start + e.size < 2 ^ 32 := fun e he =>
    htop e (List.mem_append_right l₁ he)
  rcases List.eq_nil_or_concat' l₁ with rfl | ⟨front, q, rfl⟩
  · rw [merge_apart hs htop hzero (by simp)]
    exact testNext_links hs habove
  · by_cases hadj : q.start + q.size = c.start
    · have hc := habove c (by simp)
      have hall : HeadersIn Set.univ (front ++ [q] ++ c :: l₂) := fun _ _ _ _ _ => Set.mem_univ _
      obtain ⟨hholds, hsize, hnext, -⟩ := mergePrevious_holds hs hadj hc hall
      obtain ⟨hnext', hprev'⟩ := testNext_links_unlisted (c := c) (by simpa using hholds)
        (hs.pos (by simp)) hsize hc hnext hs.apart_joined
      have hlinked : linkedAbove (front ++ [q]) c l₂ = l₂ := by simp [linkedAbove, hadj]
      rw [merge_joined hs (htop q (by simp)) hadj, hlinked, hnext', hprev', hnext,
        (mergePrevious_links hs hadj hc).2]
      exact ⟨rfl, by simp⟩
    · have hlinked : linkedAbove (front ++ [q]) c l₂ = skipNext c l₂ := by simp [linkedAbove, hadj]
      rw [merge_apart hs htop hzero (by simpa using hadj), hlinked]
      exact testNext_links hs habove

/-! ## What merging does to the layout -/

theorem cover_joinNext (c : Extent) (l₂ : List Extent) (a : ℕ) :
    cover (joinNext c l₂) a = cover (c :: l₂) a := by
  cases l₂ with
  | nil => rfl
  | cons n rest =>
      by_cases hadj : c.start + c.size = n.start
      · have hsplit := indicator_coalesce hadj a
        rw [joinNext, if_pos hadj, cover_cons, cover_cons, cover_cons, hsplit]
        omega
      · rw [joinNext, if_neg hadj]

theorem cover_skipNext (c : Extent) (l₂ : List Extent) (a : ℕ) :
    cover (skipNext c l₂) a + cover (skipped c l₂) a = cover l₂ a := by
  cases l₂ with
  | nil => rfl
  | cons n rest =>
      by_cases hadj : c.start + c.size = n.start
      · rw [skipNext, skipped, if_pos hadj, if_pos hadj, cover_cons, cover_cons, cover_nil,
          Nat.zero_add]
      · rw [skipNext, skipped, if_neg hadj, if_neg hadj, cover_nil, Nat.add_zero]

theorem cover_released (l₁ : List Extent) (c : Extent) (l₂ : List Extent) (a : ℕ) :
    cover (releasedHoles l₁ c l₂) a + cover (releasedLost l₁ c l₂) a =
      cover (l₁ ++ c :: l₂) a := by
  rcases List.eq_nil_or_concat' l₁ with rfl | ⟨front, q, rfl⟩
  · have hjoin := cover_joinNext c l₂ a
    simp only [releasedHoles, releasedLost, List.getLast?_nil, List.nil_append, cover_nil, hjoin,
      Nat.add_zero]
  · by_cases hadj : q.start + q.size = c.start
    · have hsplit := indicator_coalesce hadj a
      have hskip := cover_skipNext c l₂ a
      obtain ⟨hholes, hlost⟩ := @released_of_adjacent l₂ front c q hadj
      simp only [hholes, hlost, cover_append, cover_cons, cover_nil, hsplit, ← hskip]
      omega
    · have hjoin := cover_joinNext c l₂ a
      obtain ⟨hholes, hlost⟩ := @released_of_apart l₂ front c q hadj
      simp only [hholes, hlost, cover_append, hjoin, cover_nil, Nat.add_zero]

/-- The bytes of the chunk itself are never lost. -/
theorem cover_released_pos {a : ℕ} (ha : a ∈ c) : 0 < cover (releasedHoles l₁ c l₂) a := by
  have hlost : cover (releasedLost l₁ c l₂) a ≤ cover l₂ a := by
    have hskip := cover_skipNext c l₂ a
    unfold releasedLost
    split
    · exact Nat.zero_le _
    · split_ifs
      · omega
      · exact Nat.zero_le _
  have hreleased := cover_released l₁ c l₂ a
  rw [cover_append, cover_cons, if_pos ha] at hreleased
  omega

theorem skipNext_sublist : (skipNext c l₂).Sublist l₂ := by
  cases l₂ with
  | nil => exact List.Sublist.refl []
  | cons n rest =>
      rw [skipNext]
      split_ifs
      · exact List.sublist_cons_self n rest
      · exact List.Sublist.refl (n :: rest)

namespace Sound

theorem sublist {holes' : List Extent} (hs : Sound holes) (hsub : holes'.Sublist holes) :
    Sound holes' :=
  ⟨fun e he => hs.big e (hsub.subset he), hs.apart.sublist hsub,
    fun e he => hs.bounds e (hsub.subset he)⟩

theorem coalesce (hs : Sound (l₁ ++ e :: n :: l₂)) (hadj : e.start + e.size = n.start) :
    Sound (l₁ ++ ⟨e.start, e.size + n.size⟩ :: l₂) := by
  obtain ⟨h₁, h₂, h₁₂⟩ := List.pairwise_append.mp hs.apart
  obtain ⟨he, h₃⟩ := List.pairwise_cons.mp h₂
  obtain ⟨hn, h₄⟩ := List.pairwise_cons.mp h₃
  refine ⟨?_, List.pairwise_append.mpr ⟨h₁, List.pairwise_cons.mpr ⟨?_, h₄⟩, ?_⟩, ?_⟩
  · intro f hf
    simp only [List.mem_append, List.mem_cons] at hf
    rcases hf with hf | rfl | hf
    · exact hs.big f (by simp [hf])
    · have := hs.big e (by simp)
      show 12 ≤ e.size + n.size
      omega
    · exact hs.big f (by simp [hf])
  · intro f hf
    have := hn f hf
    show e.start + (e.size + n.size) ≤ f.start
    omega
  · intro f hf g hg
    rcases List.mem_cons.mp hg with rfl | hg
    · exact h₁₂ f hf e (by simp)
    · exact h₁₂ f hf g (by simp [hg])
  · intro f hf
    simp only [List.mem_append, List.mem_cons] at hf
    rcases hf with hf | rfl | hf
    · exact hs.bounds f (by simp [hf])
    · have he := hs.bounds e (by simp)
      have hn := hs.bounds n (by simp)
      show heapStartAddr ≤ e.start ∧ e.start + (e.size + n.size) ≤ windowStart
      omega
    · exact hs.bounds f (by simp [hf])

theorem joinNext (hs : Sound (l₁ ++ c :: l₂)) : Sound (l₁ ++ joinNext c l₂) := by
  cases l₂ with
  | nil => exact hs
  | cons n rest =>
      by_cases hadj : c.start + c.size = n.start
      · rw [Heap.joinNext, if_pos hadj]
        exact hs.coalesce hadj
      · rw [Heap.joinNext, if_neg hadj]
        exact hs

theorem released (hs : Sound (l₁ ++ c :: l₂)) : Sound (releasedHoles l₁ c l₂) := by
  rcases List.eq_nil_or_concat' l₁ with rfl | ⟨front, q, rfl⟩
  · exact hs.joinNext
  · by_cases hadj : q.start + q.size = c.start
    · have hjoined : Sound (front ++ ⟨q.start, q.size + c.size⟩ :: l₂) :=
        coalesce (by simpa using hs) hadj
      rw [(released_of_adjacent hadj).1]
      exact hjoined.sublist ((skipNext_sublist.cons_cons _).append_left front)
    · rw [(released_of_apart hadj).1]
      exact hs.joinNext

theorem insert (hs : Sound (l₁ ++ l₂)) (hbig : 12 ≤ c.size)
    (hbounds : heapStartAddr ≤ c.start ∧ c.start + c.size ≤ windowStart)
    (hlow : ∀ e ∈ l₁, e.start + e.size ≤ c.start) (hhigh : ∀ e ∈ l₂, c.start + c.size ≤ e.start) :
    Sound (l₁ ++ c :: l₂) := by
  obtain ⟨h₁, h₂, h₁₂⟩ := List.pairwise_append.mp hs.apart
  refine ⟨?_, List.pairwise_append.mpr ⟨h₁, List.pairwise_cons.mpr ⟨hhigh, h₂⟩, ?_⟩, ?_⟩
  · intro f hf
    simp only [List.mem_append, List.mem_cons] at hf
    rcases hf with hf | rfl | hf
    · exact hs.big f (by simp [hf])
    · exact hbig
    · exact hs.big f (by simp [hf])
  · intro f hf g hg
    rcases List.mem_cons.mp hg with rfl | hg
    · exact hlow f hf
    · exact h₁₂ f hf g hg
  · intro f hf
    simp only [List.mem_append, List.mem_cons] at hf
    rcases hf with hf | rfl | hf
    · exact hs.bounds f (by simp [hf])
    · exact hbounds
    · exact hs.bounds f (by simp [hf])

end Sound

/-! ## Release -/

/-- The size word of an extent that is disjoint from what was stored to. -/
theorem size_eq_of_confined (hc : Memory.Confined (bytesOf es) s.memory s'.memory)
    (hdisj : ∀ e ∈ es, e.Disjoint d) (hbig : 12 ≤ d.size) : s'.size d.start = s.size d.start := by
  refine hc.load_eq fun a h₁ h₂ => ?_
  rintro ⟨e, he, hae⟩
  have := hdisj e he
  rw [Extent.mem_def] at hae
  simp only [Extent.Disjoint] at this
  omega

theorem headersIn_bytesOf (hbig : ∀ e ∈ es, 12 ≤ e.size) : HeadersIn (bytesOf es) es := by
  intro e he a h₁ h₂
  have := hbig e he
  exact ⟨e, he, h₁, by omega⟩

/-- A header is written and linked in between its neighbours. -/
theorem Holds.listed {A : Set ℕ} {e : Extent} (hs : Holds s (l₁ ++ l₂)) (hpos : 0 < e.start)
    (hlt : e.start < 2 ^ 32) (hsize : e.size < 2 ^ 32) (hlow : ∀ f ∈ l₁, f.start + 12 ≤ e.start)
    (hhigh : ∀ f ∈ l₂, e.start + 12 ≤ f.start) (hheaders : HeadersIn A (l₁ ++ e :: l₂)) :
    ∃ s', (s.setSize e.start e.size).insertToHolesList e.start = some s' ∧
      Holds s' (l₁ ++ e :: l₂) ∧ Touches A s s' := by
  have hout : ∀ f ∈ l₁ ++ l₂, e.start + 4 ≤ f.start ∨ f.start + 12 ≤ e.start := by
    intro f hf
    rcases List.mem_append.mp hf with hf | hf
    · exact Or.inr (hlow f hf)
    · have := hhigh f hf
      omega
  obtain ⟨s', hinsert, hholds, hr⟩ := (hs.setSize (w := e.size) hout).insert (e := e)
    (size_setSize_self hsize) hpos hlt hlow hhigh
  have hmem : e ∈ l₁ ++ e :: l₂ := by simp
  exact ⟨s', hinsert, hholds, (hheaders.setSize hmem).trans (hheaders.relinked hr)⟩

/-- `free` links the header in and merges it; what is left in it are its links. -/
theorem Holds.free_links {A : Set ℕ} (hs : Holds s (l₁ ++ l₂)) (hsound : Sound (l₁ ++ c :: l₂))
    (hsize : s.size c.start = c.size) (hzero : l₁ = [] → s.memory.load 0 ≠ c.start)
    (hA : HeadersIn A (l₁ ++ c :: l₂)) :
    ∃ t, s.free (c.start + 4) = some t ∧ Holds t (releasedHoles l₁ c l₂) ∧
      t.next c.start = ((linkedAbove l₁ c l₂).map Extent.start).headD 0 ∧
      t.prev c.start = (l₁.map Extent.start).getLastD 0 ∧ Touches A s t := by
  have hbounds := hsound.bounds c (by simp)
  have hbig := hsound.big c (by simp)
  simp only [heapStartAddr, windowStart] at hbounds
  obtain ⟨-, habove, hbelow⟩ := List.pairwise_append.mp hsound.apart
  have hheader : sub32 (c.start + 4) 4 = c.start := by
    rw [sub32_of_le (by omega) (by omega), Nat.add_sub_cancel]
  have hlow : ∀ e ∈ l₁, e.start + 12 ≤ c.start := by
    intro e he
    have := hbelow e he c List.mem_cons_self
    have := hsound.big e (List.mem_append_left _ he)
    omega
  have hhigh : ∀ e ∈ l₂, c.start + 12 ≤ e.start := by
    intro e he
    have := (List.pairwise_cons.mp habove).1 e he
    omega
  -- Writing the size of the chunk back and linking it in, all above address zero.
  have hheap : HeadersIn (A ∩ {a | 4 ≤ a}) (l₁ ++ c :: l₂) := by
    intro e he a h₁ h₂
    have hstart := (hsound.bounds e he).1
    simp only [heapStartAddr] at hstart
    exact ⟨hA e he a h₁ h₂, show 4 ≤ a by omega⟩
  obtain ⟨s₂, hinsert, hholds, ht₂⟩ := hs.listed (e := c) (by omega) (by omega) (by omega)
    hlow hhigh hheap
  -- Merging.
  have hzero' : l₁ = [] → s₂.memory.load 0 ≠ c.start := by
    intro hnil
    have hkeep : s₂.memory.load 0 = s.memory.load 0 := by
      refine ht₂.size_eq (x := 0) fun a _ h₂ ha => ?_
      have hge : 4 ≤ a := ha.2
      omega
    rw [hkeep]
    exact hzero hnil
  have htop : ∀ e ∈ l₁ ++ c :: l₂, e.start + e.size < 2 ^ 32 := by
    intro e he
    have hle := (hsound.bounds e he).2
    simp only [windowStart] at hle
    omega
  obtain ⟨hholds', ht₃⟩ := merge_holds hholds htop hzero' hA
  obtain ⟨hnext, hprev⟩ := merge_links hholds htop hzero'
  refine ⟨s₂.merge c.start, ?_, hholds', hnext, hprev,
    (ht₂.mono Set.inter_subset_left).trans ht₃⟩
  simp only [State.free, hheader, hsize, hinsert, Option.bind_eq_bind, Option.bind_some]

namespace Layout

theorem live_middle (hl : Layout s holes (m₁ ++ c :: m₂) lost) :
    ∀ d ∈ m₁ ++ m₂, c.Disjoint d := by
  have hpair := hl.live_disjoint
  obtain ⟨-, h₂, h₁₂⟩ := List.pairwise_append.mp hpair
  intro d hd
  rcases List.mem_append.mp hd with hd | hd
  · exact (h₁₂ d hd c List.mem_cons_self).symm
  · exact (List.pairwise_cons.mp h₂).1 d hd

/-- `free` of a chunk in use.  The list gets the merged holes, and a hole is
lost when the chunk stood directly between two holes. -/
theorem free (hl : Layout s (l₁ ++ l₂) (m₁ ++ c :: m₂) lost)
    (hlow : ∀ e ∈ l₁, e.start + e.size ≤ c.start) (hhigh : ∀ e ∈ l₂, c.start + c.size ≤ e.start)
    (hzero : l₁ = [] → s.memory.load 0 ≠ c.start) :
    ∃ s', s.free (c.start + 4) = some s' ∧
      Layout s' (releasedHoles l₁ c l₂) (m₁ ++ m₂) (releasedLost l₁ c l₂ ++ lost) ∧
      Touches (bytesOf (l₁ ++ c :: l₂)) s s' := by
  have hcmem : c ∈ m₁ ++ c :: m₂ := by simp
  have hrest : (m₁ ++ m₂).Sublist (m₁ ++ c :: m₂) := (List.sublist_cons_self c m₂).append_left m₁
  have hbig := hl.liveBig c hcmem
  have hbounds := hl.live_bounds hcmem
  have hrec := hl.recorded c hcmem
  have hsound : Sound (l₁ ++ c :: l₂) := hl.sound.insert hbig hbounds hlow hhigh
  obtain ⟨s', hfree, hholds, -, -, ht⟩ := hl.holds.free_links hsound hrec hzero
    (headersIn_bytesOf hsound.big)
  have hpages : s'.pages = s.pages := by rw [pages, pages, ht.mapped]
  refine ⟨s', hfree, ⟨hholds, hsound.released, ?_, ?_, ?_, ?_, ?_, ?_⟩, ht⟩
  · intro d hd
    have hdmem : d ∈ m₁ ++ c :: m₂ := hrest.subset hd
    have hdisj : ∀ e ∈ l₁ ++ c :: l₂, e.Disjoint d := by
      intro e he
      simp only [List.mem_append, List.mem_cons] at he
      rcases he with he | rfl | he
      · exact hl.hole_disjoint_live (List.mem_append_left l₂ he) hdmem
      · exact hl.live_middle d hd
      · exact hl.hole_disjoint_live (List.mem_append_right l₁ he) hdmem
    rw [size_eq_of_confined ht.confined hdisj (hl.liveBig d hdmem)]
    exact hl.recorded d hdmem
  · exact fun d hd => hl.liveBig d (hrest.subset hd)
  · intro a
    have hcov := hl.covered a
    have hrel := cover_released l₁ c l₂ a
    rw [hpages, ← hcov]
    simp only [cover_append, cover_cons] at hrel ⊢
    omega
  · intro a
    rw [hpages]
    exact hl.once a
  · rw [ht.mapped, ht.lastPage]
    exact hl.mapped
  · rw [ht.lastPage]
    exact hl.lastPage

end Layout

end AviKernel.Heap
