import AviKernel.Library.Accesses
import AviKernel.Memory.HeapExhaustion

/-!
# The headers that a release looks at

The functions under `free`, with the headers they read or write through in the order
of the source.  A header is in use while it is listed, or while it is the one of the
chunk to be released and has not been taken off the list again.
-/

namespace AviKernel.Heap

open State Holds

variable {s t : State} {holes lost l₁ l₂ front rest : List Extent} {c e q : Extent} {u : Config}
  {p h x : ℕ} {xs : List ℕ}

namespace State

/-- The headers that `remove_from_holes_list` looks at. -/
def removeVisits (s : State) (hole : ℕ) : List ℕ :=
  (if s.prev hole = 0 then [hole, hole] else [hole]) ++
    -- Case 1: the only hole.
    if s.prev hole = 0 ∧ s.next hole = 0 then []
    -- Case 2: the first hole.
    else if hole = s.holesListHead then [s.holesListHead, s.next s.holesListHead]
    -- Case 3: the last hole.
    else if hole = s.holesListTail then [s.holesListTail, s.prev s.holesListTail]
    -- Case 4: a hole with a hole on both sides.
    else
      let s' := s.setNext (s.prev hole) (s.next hole)
      [hole, hole, s.prev hole, hole, hole, s'.next hole]

/-- The nodes whose `next` the loop of `insert_to_holes_list` reads. -/
def nodeVisits (s : State) (hole : ℕ) : ℕ → ℕ → List ℕ
  | 0, _ => []
  | steps + 1, node =>
      if node = 0 then []
      else if hole < node then []
      else node :: s.nodeVisits hole steps (s.next node)

/-- The headers that `insert_to_holes_list` looks at. -/
def insertVisits (s : State) (hole : ℕ) : List ℕ :=
  if s.holesListTail = 0 then [hole, hole]
  else
    s.nodeVisits hole stepLimit s.holesListHead ++
      (s.findNodeAfter hole stepLimit s.holesListHead).elim [] fun node =>
        if node = s.holesListHead then [hole, hole, node]
        else if node = 0 then [s.holesListTail, hole, hole]
        else [node, s.prev node, hole, node, hole]

def mergePreviousEvents (s : State) (header : ℕ) : List (Event ℕ) :=
  let s' := s.setSize (s.prev header) (add32 (s.size (s.prev header)) (s.size header))
  accesses ([header, s.prev header, header] ++ s'.removeVisits header) ++ [.release header]

def mergeNextEvents (s : State) (header : ℕ) : List (Event ℕ) :=
  let s' := s.setSize header (add32 (s.size header) (s.size (s.next header)))
  accesses ([header, header, s.next header, header] ++ s'.removeVisits (s'.next header)) ++
    [.release (s'.next header)]

/-- Both tests of `merge` and what follows them. -/
def mergeEvents (s : State) (header : ℕ) : List (Event ℕ) :=
  let joined := add32 (s.prev header) (s.size (s.prev header)) = header
  let s' := if joined then s.mergePrevious header else s
  accesses [header, header, s.prev header] ++
    (if joined then s.mergePreviousEvents header else []) ++
    (accesses [header, header] ++
      if add32 header (s'.size header) = s'.next header then s'.mergeNextEvents header else [])

def freeEvents (s : State) (addr : ℕ) : Option (List (Event ℕ)) := do
  let header := sub32 addr 4
  let howManyBytes := s.size header
  let s := s.setSize header howManyBytes
  let events := accesses ([header, header] ++ s.insertVisits header)
  let s ← s.insertToHolesList header
  some (events ++ s.mergeEvents header)

end State

/-- `free` only looks at the header of the chunk and at headers that are listed at
that moment. -/
def LooksAtReal (u : Config) (p : ℕ) : Prop :=
  ∃ events, u.heap.freeEvents p = some events ∧
    Admitted ((p - 4) :: u.heap.holes.map Extent.start) events

/-! ## Insertion and removal -/

theorem getLastD_mem {l : List ℕ} (hne : l ≠ []) : l.getLastD 0 ∈ l := by
  rw [List.getLastD_eq_getLast?, List.getLast?_eq_getLast_of_ne_nil hne]
  exact List.getLast_mem hne

theorem headD_mem {l : List ℕ} (hne : l ≠ []) : l.headD 0 ∈ l := by
  cases l with
  | nil => exact absurd rfl hne
  | cons x l => exact List.mem_cons_self

theorem HolesList.removeVisits_mem {l₁ l₂ : List ℕ} (hl : HolesList s (l₁ ++ h :: l₂)) :
    ∀ x ∈ s.removeVisits h, x ∈ l₁ ++ h :: l₂ := by
  obtain ⟨hprev, hnext⟩ := hl.links.at_node
  have hself : h ∈ l₁ ++ h :: l₂ := by simp
  have hnodup := hl.nodup
  rw [List.nodup_middle, List.nodup_cons] at hnodup
  have hbefore : l₁ ≠ [] → s.prev h ∈ l₁ := fun hne => hprev ▸ getLastD_mem hne
  have hafter : l₂ ≠ [] → s.next h ∈ l₂ := fun hne => hnext ▸ headD_mem hne
  have hfirst : l₁ = [] ↔ h = s.holesListHead := by
    rw [hl.head]
    cases l₁ with
    | nil => simp
    | cons x l₁ =>
        have hne : h ≠ x := by
          rintro rfl
          exact hnodup.1 (by simp)
        simpa using hne
  have hlast : l₂ = [] → h = s.holesListTail := by
    rintro rfl
    rw [hl.tail, List.getLastD_concat]
  intro x hx
  rw [removeVisits] at hx
  rcases List.mem_append.mp hx with hx | hx
  · have hxh : x = h := by
      split_ifs at hx
      · simpa using hx
      · simpa using hx
    exact hxh ▸ hself
  · split_ifs at hx with honly hhead htail
    · exact absurd hx List.not_mem_nil
    · have hnone := hfirst.mpr hhead
      subst hnone
      have hne : l₂ ≠ [] := by
        rintro rfl
        exact honly ⟨hprev, hnext⟩
      rw [← hhead, List.mem_pair] at hx
      rcases hx with rfl | rfl
      · exact hself
      · exact List.mem_cons_of_mem h (hafter hne)
    · have hne : l₁ ≠ [] := fun hnil => hhead (hfirst.mp hnil)
      rw [← htail, List.mem_pair] at hx
      rcases hx with rfl | rfl
      · exact hself
      · exact List.mem_append_left _ (hbefore hne)
    · have hne₁ : l₁ ≠ [] := fun hnil => hhead (hfirst.mp hnil)
      have hne₂ : l₂ ≠ [] := fun hnil => htail (hlast hnil)
      have hp := hbefore hne₁
      have hclear : Clear (s.prev h) h := hl.clear (List.mem_append_left _ hp) hself
      have hother : s.prev h ≠ h := by
        intro heq
        rw [heq] at hp
        exact hnodup.1 (List.mem_append_left _ hp)
      simp only [next_setNext_of_ne hclear hother, List.mem_cons, List.not_mem_nil,
        or_false] at hx
      rcases hx with rfl | rfl | rfl | rfl | rfl | rfl
      · exact hself
      · exact hself
      · exact List.mem_append_left _ hp
      · exact hself
      · exact hself
      · exact List.mem_append_right _ (List.mem_cons_of_mem h (hafter hne₂))

theorem nodeVisits_mem {before steps : ℕ} (hl : Links s.next s.prev before xs 0)
    (hsteps : xs.length < steps) : ∀ x ∈ s.nodeVisits h steps (xs.headD 0), x ∈ xs := by
  induction xs generalizing before steps with
  | nil =>
      obtain ⟨steps, rfl⟩ := Nat.exists_eq_succ_of_ne_zero (Nat.ne_of_gt hsteps)
      simp [nodeVisits]
  | cons y xs ih =>
      obtain ⟨steps, rfl⟩ := Nat.exists_eq_succ_of_ne_zero (Nat.ne_of_gt (Nat.zero_lt_of_lt hsteps))
      obtain ⟨-, hnext, hrest⟩ := hl
      intro x hx
      rw [List.headD_cons, nodeVisits, hnext] at hx
      split_ifs at hx
      · exact absurd hx List.not_mem_nil
      · exact absurd hx List.not_mem_nil
      · rcases List.mem_cons.mp hx with rfl | hx
        · exact List.mem_cons_self
        · exact List.mem_cons_of_mem y (ih hrest (by simpa using hsteps) x hx)

theorem HolesList.insertVisits_mem {l₁ l₂ : List ℕ} (hl : HolesList s (l₁ ++ l₂))
    (hlow : ∀ x ∈ l₁, x + 12 ≤ h) (hhigh : ∀ x ∈ l₂, h + 12 ≤ x) :
    ∀ x ∈ s.insertVisits h, x ∈ h :: (l₁ ++ l₂) := by
  have hlength := hl.length_lt
  have hwalk : ∀ x ∈ s.nodeVisits h stepLimit s.holesListHead, x ∈ l₁ ++ l₂ := by
    rw [hl.head]
    exact nodeVisits_mem hl.links hlength
  have hfind := hl.findNode (h := h) (fun x hx => (Nat.le_add_right x 12).trans (hlow x hx))
    fun x hx => by
      have := hhigh x hx
      omega
  have hself : h ∈ h :: (l₁ ++ l₂) := List.mem_cons_self
  intro x hx
  rw [insertVisits] at hx
  split_ifs at hx with htail
  · rw [List.mem_pair] at hx
    rcases hx with rfl | rfl
    · exact hself
    · exact hself
  · have hne : l₁ ++ l₂ ≠ [] := by
      intro hnil
      rw [hl.tail, hnil] at htail
      exact htail rfl
    have hhead : s.holesListHead ∈ l₁ ++ l₂ := hl.head ▸ headD_mem hne
    have hlast : s.holesListTail ∈ l₁ ++ l₂ := hl.tail ▸ getLastD_mem hne
    rw [hfind, Option.elim_some] at hx
    rcases List.mem_append.mp hx with hx | hx
    · exact List.mem_cons_of_mem h (hwalk x hx)
    · split_ifs at hx with hfirst hnull
      · simp only [List.mem_cons, List.not_mem_nil, or_false] at hx
        rcases hx with rfl | rfl | rfl
        · exact hself
        · exact hself
        · exact List.mem_cons_of_mem h (hfirst ▸ hhead)
      · simp only [List.mem_cons, List.not_mem_nil, or_false] at hx
        rcases hx with rfl | rfl | rfl
        · exact List.mem_cons_of_mem h hlast
        · exact hself
        · exact hself
      · have hne₂ : l₂ ≠ [] := by
          rintro rfl
          exact hnull rfl
        have hne₁ : l₁ ≠ [] := by
          rintro rfl
          exact hfirst hl.head.symm
        have hnode := headD_mem hne₂
        have hprev : s.prev (l₂.headD 0) = l₁.getLastD 0 := by
          cases l₂ with
          | nil => exact absurd rfl hne₂
          | cons y l₂ => exact hl.links.at_node.1
        rw [hprev] at hx
        simp only [List.mem_cons, List.not_mem_nil, or_false] at hx
        rcases hx with rfl | rfl | rfl | rfl | rfl
        · exact List.mem_cons_of_mem h (List.mem_append_right l₁ hnode)
        · exact List.mem_cons_of_mem h (List.mem_append_left l₂ (getLastD_mem hne₁))
        · exact hself
        · exact List.mem_cons_of_mem h (List.mem_append_right l₁ hnode)
        · exact hself

/-! ## The whole release -/

/-- A chunk that is released between the holes `l₁` below and `l₂` above it. -/
structure Placed (s : State) (l₁ l₂ : List Extent) (c : Extent) : Prop where
  holds : Holds s (l₁ ++ l₂)
  sound : Sound (l₁ ++ c :: l₂)
  recorded : s.size c.start = c.size

namespace Placed

/-- With the header linked in. -/
theorem linked (hp : Placed s l₁ l₂ c) : ∃ t,
    (s.setSize c.start (s.size c.start)).insertToHolesList c.start = some t ∧
      Holds t (l₁ ++ c :: l₂) := by
  obtain ⟨hs, hsound, hrec⟩ := hp
  have hmem : c ∈ l₁ ++ c :: l₂ := by simp
  have hbig := hsound.big c hmem
  have hbounds := hsound.bounds c hmem
  simp only [heapStartAddr, windowStart] at hbounds
  obtain ⟨hlow, hhigh⟩ := hsound.neighbours
  obtain ⟨t, hinsert, hholds, -⟩ := hs.listed (e := c) (by omega) (by omega) (by omega)
    (fun f hf => by
      have := hlow f hf
      omega)
    (fun f hf => by
      have := hhigh f hf
      omega)
    (headersIn_bytesOf hsound.big)
  rw [hrec]
  exact ⟨t, hinsert, hholds⟩

theorem freeEvents_eq (hp : Placed s l₁ l₂ c) : ∃ t visits,
    s.freeEvents (c.start + 4) = some (accesses visits ++ t.mergeEvents c.start) ∧
      (∀ x ∈ visits, x ∈ c.start :: (l₁ ++ l₂).map Extent.start) ∧ Holds t (l₁ ++ c :: l₂) := by
  obtain ⟨t, hinsert, hholds⟩ := hp.linked
  obtain ⟨hs, hsound, -⟩ := hp
  have hbounds := hsound.bounds c (by simp)
  simp only [windowStart] at hbounds
  obtain ⟨hlow, hhigh⟩ := hsound.neighbours
  have hbig := hsound.big c (by simp)
  have hheader : sub32 (c.start + 4) 4 = c.start := by
    rw [sub32_of_le (by omega) (by omega), Nat.add_sub_cancel]
  have hstored : Holds (s.setSize c.start (s.size c.start)) (l₁ ++ l₂) := by
    apply hs.setSize
    intro e he
    rcases List.mem_append.mp he with he | he
    · have := hlow e he
      omega
    · have := hhigh e he
      omega
  have hlist := hstored.list
  rw [List.map_append] at hlist
  have hvisits := hlist.insertVisits_mem (h := c.start)
    (fun x hx => by
      obtain ⟨e, he, rfl⟩ := List.mem_map.mp hx
      have := hlow e he
      omega)
    (fun x hx => by
      obtain ⟨e, he, rfl⟩ := List.mem_map.mp hx
      have := hhigh e he
      omega)
  rw [← List.map_append] at hvisits
  refine ⟨t, [c.start, c.start] ++
    (s.setSize c.start (s.size c.start)).insertVisits c.start, ?_, ?_, hholds⟩
  · simp only [freeEvents, hheader, hinsert, Option.bind_eq_bind, Option.bind_some]
  · intro x hx
    rcases List.mem_append.mp hx with hx | hx
    · rw [List.mem_pair] at hx
      rcases hx with rfl | rfl
      · exact List.mem_cons_self
      · exact List.mem_cons_self
    · exact hvisits x hx

end Placed

/-- The second part of `merge` looks at the hole above and its neighbours. -/
theorem mergeNextEvents_admitted {n : Extent} (hs : Holds s (l₁ ++ c :: n :: rest)) {used : List ℕ}
    (hsize : c.size + n.size < 2 ^ 32)
    (hused : ∀ e ∈ l₁ ++ c :: n :: rest, e.start ∈ used) :
    Admitted used (s.mergeNextEvents c.start) := by
  have hnext : s.next c.start = n.start := by simpa using hs.links_at.2
  have hcsize := hs.sizes c (by simp)
  have hnsize := hs.sizes n (by simp)
  have hsum : add32 c.size n.size = c.size + n.size := add32_of_lt hsize
  have hresized : Holds (s.setSize c.start (c.size + n.size))
      (l₁ ++ [⟨c.start, c.size + n.size⟩] ++ n :: rest) := by
    simpa using hs.resize hsize
  have hlist := hresized.list
  rw [List.map_append, List.map_cons] at hlist
  have hvisits := hlist.removeVisits_mem
  have hnext' : (s.setSize c.start (c.size + n.size)).next c.start = n.start := by
    rw [next_setSize (Or.inl rfl), hnext]
  simp only [mergeNextEvents, hnext, hcsize, hnsize, hsum, hnext']
  rw [admitted_accesses_append]
  refine ⟨fun x hx => ?_, trivial⟩
  have hc := hused c (by simp)
  have hn := hused n (by simp)
  rcases List.mem_append.mp hx with hx | hx
  · simp only [List.mem_cons, List.not_mem_nil, or_false] at hx
    rcases hx with rfl | rfl | rfl | rfl
    · exact hc
    · exact hc
    · exact hn
    · exact hc
  · have hmem := hvisits x hx
    have hstarts : x ∈ (l₁ ++ c :: n :: rest).map Extent.start := by simpa using hmem
    obtain ⟨e, he, rfl⟩ := List.mem_map.mp hstarts
    exact hused e he

theorem mergeEvents_admitted {used : List ℕ} (hs : Holds s (front ++ [q] ++ c :: l₂))
    (hsound : Sound (front ++ [q] ++ c :: l₂)) (hapart : q.start + q.size ≠ c.start)
    (hused : ∀ e ∈ front ++ [q] ++ c :: l₂, e.start ∈ used) :
    Admitted used (s.mergeEvents c.start) := by
  have hprev : s.prev c.start = q.start := by simpa using hs.links_at.1
  have hqsize := hs.sizes q (by simp)
  have hcsize := hs.sizes c (by simp)
  have hqtop := (hsound.bounds q (by simp)).2
  have hctop := (hsound.bounds c (by simp)).2
  simp only [windowStart] at hqtop hctop
  have hqsum : add32 q.start q.size = q.start + q.size := add32_of_lt (by omega)
  have hcsum : add32 c.start c.size = c.start + c.size := add32_of_lt (by omega)
  have hc := hused c (by simp)
  have hq := hused q (by simp)
  simp only [mergeEvents, hprev, hqsize, hqsum, if_neg hapart, hcsize, hcsum, List.append_nil]
  rw [admitted_accesses_append, admitted_accesses_append]
  refine ⟨fun x hx => ?_, fun x hx => ?_, ?_⟩
  · simp only [List.mem_cons, List.not_mem_nil, or_false] at hx
    rcases hx with rfl | rfl | rfl
    · exact hc
    · exact hc
    · exact hq
  · rw [List.mem_pair] at hx
    rcases hx with rfl | rfl
    · exact hc
    · exact hc
  · split_ifs with hadj
    · have hnext := hs.links_at.2
      cases l₂ with
      | nil =>
          rw [List.map_nil, List.headD_nil] at hnext
          have hpos := hs.pos (e := c) (by simp)
          omega
      | cons n rest =>
          have hntop := (hsound.bounds n (by simp)).2
          rw [List.map_cons, List.headD_cons] at hnext
          simp only [windowStart] at hntop
          exact mergeNextEvents_admitted hs (by omega) hused
    · trivial

/-- Without a hole below, the first test looks at `NULL`. -/
theorem mergeEvents_first {used : List ℕ} (hs : Holds s (c :: l₂)) (hnull : 0 ∉ used) :
    ¬ Admitted used (s.mergeEvents c.start) := by
  have hfirst : Holds s ([] ++ c :: l₂) := hs
  have hprev : s.prev c.start = 0 := hfirst.links_at.1
  intro h
  rw [mergeEvents, List.append_assoc, admitted_accesses_append, hprev] at h
  exact hnull (h.1 0 (by simp))

/-- After `merge_previous` the header is off the list, and `merge` looks at it again. -/
theorem mergeEvents_joined {used : List ℕ} (hs : Holds s (front ++ [q] ++ c :: l₂))
    (hadj : q.start + q.size = c.start) (htop : c.start < 2 ^ 32) :
    ¬ Admitted used (s.mergeEvents c.start) := by
  have hprev : s.prev c.start = q.start := by simpa using hs.links_at.1
  have hqsize := hs.sizes q (by simp)
  have hqsum : add32 q.start q.size = c.start := by
    rw [add32_of_lt (by omega), hadj]
  intro h
  simp only [mergeEvents, hprev, hqsize, hqsum, if_true, mergePreviousEvents, List.append_assoc] at h
  rw [admitted_accesses_append, admitted_accesses_append] at h
  obtain ⟨-, -, hrest⟩ := h
  have hreleased : Admitted used ([] ++ .release c.start :: .access c.start :: _) := hrest
  exact not_admitted_released hreleased

/-! ## When all headers are real -/

/-- Some listed hole is below the chunk, and none ends where the chunk starts. -/
def BelowApart (holes : List Extent) (c : Extent) : Prop :=
  (∃ e ∈ holes, e.start < c.start) ∧ ∀ e ∈ holes, e.start + e.size ≠ c.start

instance (holes : List Extent) (c : Extent) : Decidable (BelowApart holes c) := by
  unfold BelowApart
  infer_instance

theorem belowApart_nil (hhigh : ∀ e ∈ l₂, c.start + c.size ≤ e.start) : ¬ BelowApart l₂ c := by
  rintro ⟨⟨e, he, hlt⟩, -⟩
  have := hhigh e he
  omega

theorem belowApart_concat (hsound : Sound (front ++ [q] ++ c :: l₂)) :
    BelowApart (front ++ [q] ++ l₂) c ↔ q.start + q.size ≠ c.start := by
  have hqbig := hsound.big q (by simp)
  have hcbig := hsound.big c (by simp)
  obtain ⟨hlow, hhigh⟩ := hsound.neighbours
  constructor
  · rintro ⟨-, hapart⟩
    exact hapart q (by simp)
  · intro hq
    refine ⟨⟨q, by simp, ?_⟩, fun e he => ?_⟩
    · have := hlow q (by simp)
      omega
    · rcases List.mem_append.mp he with he | he
      · rcases List.mem_append.mp he with he | he
        · have hpair := (List.pairwise_append.mp hsound.apart).1
          have hbefore := (List.pairwise_append.mp hpair).2.2 e he q (by simp)
          have := hlow q (by simp)
          omega
        · obtain rfl := List.mem_singleton.mp he
          exact hq
      · have := hhigh e he
        omega

theorem looksAtReal_iff (hv : Valid u lost) (hp : p ∈ u.live) :
    LooksAtReal u p ↔ BelowApart u.heap.holes (chunk u.heap p) := by
  have hmem : chunk u.heap p ∈ u.chunks := List.mem_map_of_mem hp
  obtain ⟨hstart, hbig⟩ := Layout.pointer_bounds hv hp
  have hbounds := hv.live_bounds hmem
  obtain ⟨l₁, l₂, hholes, hlow, hhigh⟩ := hv.split_at hmem
  have hs := hv.holds
  have hsound := hv.sound
  have hpointer : p = (chunk u.heap p).start + 4 := by
    simp only [heapStartAddr] at hstart
    simp only [chunk]
    omega
  have hheader : p - 4 = (chunk u.heap p).start := rfl
  have hrecorded : u.heap.size (chunk u.heap p).start = (chunk u.heap p).size := rfl
  rw [LooksAtReal, hheader, hholes]
  rw [hholes] at hs hsound
  generalize chunk u.heap p = c at *
  subst hpointer
  have hall : Sound (l₁ ++ c :: l₂) := hsound.insert hbig hbounds hlow hhigh
  have hplaced : Placed u.heap l₁ l₂ c := ⟨hs, hall, hrecorded⟩
  obtain ⟨t, visits, hevents, hvisits, hholds⟩ := hplaced.freeEvents_eq
  have hiff : (∃ events, u.heap.freeEvents (c.start + 4) = some events ∧
      Admitted (c.start :: (l₁ ++ l₂).map Extent.start) events) ↔
        Admitted (c.start :: (l₁ ++ l₂).map Extent.start) (t.mergeEvents c.start) := by
    rw [hevents]
    constructor
    · rintro ⟨events, heq, h⟩
      obtain rfl := Option.some.inj heq
      exact (admitted_accesses_append.mp h).2
    · exact fun h => ⟨_, rfl, admitted_accesses_append.mpr ⟨hvisits, h⟩⟩
  rw [hiff]
  rcases List.eq_nil_or_concat' l₁ with rfl | ⟨front, q, rfl⟩
  · refine iff_of_false (mergeEvents_first hholds ?_) (belowApart_nil hhigh)
    intro hzero
    have hpos : ∀ e ∈ [] ++ c :: l₂, 0 < e.start := fun e he => hholds.pos he
    rcases List.mem_cons.mp hzero with hzero | hzero
    · have := hpos c (by simp)
      omega
    · obtain ⟨e, he, heq⟩ := List.mem_map.mp hzero
      have := hpos e (List.mem_cons_of_mem c he)
      omega
  · rw [belowApart_concat hall]
    by_cases hadj : q.start + q.size = c.start
    · refine iff_of_false (mergeEvents_joined hholds hadj ?_) (not_not.mpr hadj)
      simp only [windowStart] at hbounds
      omega
    · refine iff_of_true (mergeEvents_admitted hholds hall hadj fun e he => ?_) hadj
      rcases List.mem_append.mp he with he | he
      · exact List.mem_cons_of_mem _ (List.mem_map_of_mem (List.mem_append_left l₂ he))
      · rcases List.mem_cons.mp he with rfl | he
        · exact List.mem_cons_self
        · exact List.mem_cons_of_mem _ (List.mem_map_of_mem (List.mem_append_right _ he))

/-- In the state that a run leads to, the release of a chunk in use looks at real
headers only, exactly if some listed hole is below the chunk and does not touch it. -/
theorem looksAtReal_of_run {memory : Memory} {frames : List ℕ} {c : Config} {calls : List Call}
    (hinit : Config.initial memory frames = some c) (hrun : RunAll Config.step Copes c calls) :
    ∃ u, run Config.step c calls = some u ∧
      ∀ p ∈ u.live, (LooksAtReal u p ↔ BelowApart u.heap.holes (chunk u.heap p)) := by
  obtain ⟨u, hu, lost, hv⟩ := run_copes hinit hrun
  exact ⟨u, hu, fun p hp => looksAtReal_iff hv hp⟩

theorem looksAtReal_of_run_between : ∃ c, Config.initial zeroMemory [4096, 8192] = some c ∧
    ∃ u, run Config.step c [.malloc 100, .malloc 60, .malloc 30, .free 0xC0C00004] = some u ∧
      ∀ p ∈ u.live, (LooksAtReal u p ↔ BelowApart u.heap.holes (chunk u.heap p)) := by
  obtain ⟨c, hc⟩ : ∃ c, Config.initial zeroMemory [4096, 8192] = some c := ⟨_, rfl⟩
  have hrun : ∀ c ∈ Config.initial zeroMemory [4096, 8192], RunAll Config.step Copes c
      [.malloc 100, .malloc 60, .malloc 30, .free 0xC0C00004] := by decide +kernel
  exact ⟨c, hc, looksAtReal_of_run hc (hrun c hc)⟩

/-- The release of the only chunk: no hole is below it. -/
theorem not_looksAtReal_of_run : ¬ ∀ (memory : Memory) (frames : List ℕ) (c : Config)
    (calls : List Call), Config.initial memory frames = some c →
      RunAll Config.step Legal c calls →
        ∃ u, run Config.step c calls = some u ∧ ∀ p ∈ u.live, LooksAtReal u p := by
  intro h
  have hlegal : ∀ c ∈ Config.initial zeroMemory [4096, 8192],
      RunAll Config.step Legal c [.malloc 100] := by decide +kernel
  have hcopes : ∀ c ∈ Config.initial zeroMemory [4096, 8192],
      RunAll Config.step Copes c [.malloc 100] := by decide +kernel
  have hnone : ∀ c ∈ Config.initial zeroMemory [4096, 8192], ∀ u ∈ run Config.step c [.malloc 100],
      0xC0C00004 ∈ u.live ∧ ¬ BelowApart u.heap.holes (chunk u.heap 0xC0C00004) := by
    decide +kernel
  obtain ⟨c, hc⟩ : ∃ c, Config.initial zeroMemory [4096, 8192] = some c := ⟨_, rfl⟩
  obtain ⟨u, hu, hall⟩ := h zeroMemory [4096, 8192] c [.malloc 100] hc (hlegal c hc)
  obtain ⟨u', hu', lost, hv⟩ := run_copes hc (hcopes c hc)
  obtain rfl : u = u' := Option.some.inj (hu.symm.trans hu')
  obtain ⟨hlive, hbelow⟩ := hnone c hc u hu
  exact hbelow ((looksAtReal_iff hv hlive).mp (hall _ hlive))

end AviKernel.Heap
