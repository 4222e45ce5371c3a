import AviKernel.Memory.HolesList

/-!
# Layouts of the heap

A layout says what a heap state stands for: the holes in address order, the
chunks in use, and the extents that are in neither.  Together they cover the
mapped pages exactly once.
-/

namespace AviKernel.Heap

variable {s s' : State} {holes live lost l₁ l₂ : List Extent} {e f c : Extent} {r a w : ℕ}

/-- Where the region of the heap ends: the page tables are mapped in the last 4 MB. -/
def windowStart : ℕ := 0xFFC00000

/-- The holes list of the state is exactly this list of extents. -/
structure Holds (s : State) (holes : List Extent) : Prop where
  list : HolesList s (holes.map Extent.start)
  sizes : ∀ e ∈ holes, s.size e.start = e.size

namespace Holds

theorem pos (hs : Holds s holes) (he : e ∈ holes) : 0 < e.start :=
  (hs.list.bounds e.start (List.mem_map_of_mem he)).1

theorem congr (hs : Holds s holes) (hmem : ∀ e ∈ holes, ∀ a, e.start ≤ a → a < e.start + 12 →
      s'.memory.byte a = s.memory.byte a)
    (hhead : s'.holesListHead = s.holesListHead) (htail : s'.holesListTail = s.holesListTail) :
    Holds s' holes := by
  have hword : ∀ e ∈ holes, ∀ k ≤ 8, s'.memory.load (e.start + k) = s.memory.load (e.start + k) :=
    fun e he k hk => Memory.load_congr fun a h₁ h₂ => hmem e he a (by omega) (by omega)
  refine ⟨⟨hs.list.links.congr ?_ ?_, by rw [hhead, hs.list.head], by rw [htail, hs.list.tail],
    hs.list.apart, hs.list.bounds⟩, ?_⟩
  · intro x hx
    obtain ⟨e, he, rfl⟩ := List.mem_map.mp hx
    exact hword e he 4 (by omega)
  · intro x hx
    obtain ⟨e, he, rfl⟩ := List.mem_map.mp hx
    exact hword e he 8 le_rfl
  · intro e he
    rw [← hs.sizes e he]
    exact hword e he 0 (by omega)

/-! ## Walking the list -/

theorem holesFrom_eq {before steps : ℕ}
    (hl : Links s.next s.prev before (holes.map Extent.start) 0)
    (hpos : ∀ e ∈ holes, 0 < e.start) (hsizes : ∀ e ∈ holes, s.size e.start = e.size)
    (hsteps : holes.length < steps) :
    s.holesFrom steps ((holes.map Extent.start).headD 0) = holes := by
  induction holes generalizing before steps with
  | nil =>
      obtain ⟨steps, rfl⟩ := Nat.exists_eq_succ_of_ne_zero (Nat.ne_of_gt hsteps)
      simp [State.holesFrom]
  | cons e holes ih =>
      obtain ⟨steps, rfl⟩ := Nat.exists_eq_succ_of_ne_zero (Nat.ne_of_gt (Nat.zero_lt_of_lt hsteps))
      obtain ⟨-, hnext, hrest⟩ := hl
      have he := hpos e List.mem_cons_self
      rw [List.map_cons, List.headD_cons, State.holesFrom, if_neg (by omega), hnext,
        hsizes e List.mem_cons_self, ih hrest (fun f hf => hpos f (List.mem_cons_of_mem e hf))
          (fun f hf => hsizes f (List.mem_cons_of_mem e hf)) (by simpa using hsteps)]

/-- The holes reachable from the head are the holes of the layout. -/
theorem holes_eq (hs : Holds s holes) : s.holes = holes := by
  have hlength := hs.list.length_lt
  rw [List.length_map] at hlength
  rw [State.holes, hs.list.head]
  exact holesFrom_eq hs.list.links (fun _ => hs.pos) hs.sizes hlength

/-- The first hole of at least `r` bytes. -/
def fit (r : ℕ) (holes : List Extent) : Option Extent := holes.find? fun e => decide (r ≤ e.size)

theorem fit_split (h : fit r holes = some e) : r ≤ e.size ∧ ∃ l₁ l₂, holes = l₁ ++ e :: l₂ := by
  obtain ⟨hle, l₁, l₂, hsplit, -⟩ := List.find?_eq_some_iff_append.mp h
  exact ⟨of_decide_eq_true hle, l₁, l₂, hsplit⟩

theorem exists_fit (he : e ∈ holes) (hle : r ≤ e.size) : ∃ f, fit r holes = some f := by
  apply Option.isSome_iff_exists.mp
  rw [fit, List.find?_isSome]
  exact ⟨e, he, decide_eq_true hle⟩

theorem findHoleFrom_eq {before steps : ℕ}
    (hl : Links s.next s.prev before (holes.map Extent.start) 0)
    (hpos : ∀ e ∈ holes, 0 < e.start) (hsizes : ∀ e ∈ holes, s.size e.start = e.size)
    (hsteps : holes.length < steps) :
    s.findHole r steps ((holes.map Extent.start).headD 0) =
      some (((fit r holes).map Extent.start).getD 0) := by
  induction holes generalizing before steps with
  | nil =>
      obtain ⟨steps, rfl⟩ := Nat.exists_eq_succ_of_ne_zero (Nat.ne_of_gt hsteps)
      simp [State.findHole, fit]
  | cons e holes ih =>
      obtain ⟨steps, rfl⟩ := Nat.exists_eq_succ_of_ne_zero (Nat.ne_of_gt (Nat.zero_lt_of_lt hsteps))
      obtain ⟨-, hnext, hrest⟩ := hl
      have he := hpos e List.mem_cons_self
      rw [List.map_cons, List.headD_cons, State.findHole, if_neg (by omega), hnext,
        hsizes e List.mem_cons_self]
      by_cases hr : r ≤ e.size
      · simp [fit, hr]
      · rw [if_neg hr, ih hrest (fun f hf => hpos f (List.mem_cons_of_mem e hf))
          (fun f hf => hsizes f (List.mem_cons_of_mem e hf)) (by simpa using hsteps)]
        simp [fit, hr]

theorem findHole_eq (hs : Holds s holes) :
    s.findHole r stepLimit s.holesListHead = some (((fit r holes).map Extent.start).getD 0) := by
  have hlength := hs.list.length_lt
  rw [List.length_map] at hlength
  rw [hs.list.head]
  exact findHoleFrom_eq hs.list.links (fun _ => hs.pos) hs.sizes hlength

/-! ## Changing the list -/

/-- Storing outside the listed headers. -/
theorem setSize (hs : Holds s holes) (hout : ∀ e ∈ holes, a + 4 ≤ e.start ∨ e.start + 12 ≤ a) :
    Holds (s.setSize a w) holes :=
  hs.congr (fun e he x h₁ h₂ => Memory.byte_store_of_not_mem (by have := hout e he; omega)) rfl rfl

/-- Recording another size in a listed header. -/
theorem resize (hs : Holds s (l₁ ++ e :: l₂)) (hw : w < 2 ^ 32) :
    Holds (s.setSize e.start w) (l₁ ++ ⟨e.start, w⟩ :: l₂) := by
  have hstarts : (l₁ ++ (⟨e.start, w⟩ : Extent) :: l₂).map Extent.start =
      (l₁ ++ e :: l₂).map Extent.start := by simp
  have hnodup := hs.list.nodup
  have hkeep : ∀ f ∈ l₁ ++ l₂, (s.setSize e.start w).size f.start = f.size := by
    intro f hf
    have hmem : f ∈ l₁ ++ e :: l₂ := by
      simp only [List.mem_append, List.mem_cons] at hf ⊢
      tauto
    have hne : e.start ≠ f.start := by
      rw [List.map_append, List.map_cons, List.nodup_middle, List.nodup_cons,
        ← List.map_append] at hnodup
      exact fun heq => hnodup.1 (heq ▸ List.mem_map_of_mem hf)
    have hclear := hs.list.clear (a := e.start) (by simp) (List.mem_map_of_mem hmem)
    rw [State.size_setSize_of_apart (by unfold State.Clear at hclear; omega)]
    exact hs.sizes f hmem
  refine ⟨?_, ?_⟩
  · rw [hstarts]
    refine ⟨hs.list.links.congr ?_ ?_, hs.list.head, hs.list.tail, hs.list.apart, hs.list.bounds⟩
    · exact fun x hx => State.next_setSize (hs.list.clear (by simp) hx)
    · exact fun x hx => State.prev_setSize (hs.list.clear (by simp) hx)
  · intro f hf
    simp only [List.mem_append, List.mem_cons] at hf
    rcases hf with hf | rfl | hf
    · exact hkeep f (List.mem_append_left l₂ hf)
    · exact State.size_setSize_self hw
    · exact hkeep f (List.mem_append_right l₁ hf)

/-- Inserting a hole whose size is already recorded. -/
theorem insert (hs : Holds s (l₁ ++ l₂)) (hsize : s.size e.start = e.size)
    (hpos : 0 < e.start) (hlt : e.start < 2 ^ 32) (hlow : ∀ f ∈ l₁, f.start + 12 ≤ e.start)
    (hhigh : ∀ f ∈ l₂, e.start + 12 ≤ f.start) :
    ∃ s', s.insertToHolesList e.start = some s' ∧ Holds s' (l₁ ++ e :: l₂) ∧
      Relinked ((l₁ ++ e :: l₂).map Extent.start) s s' := by
  have hlist : HolesList s (l₁.map Extent.start ++ l₂.map Extent.start) := by
    simpa using hs.list
  obtain ⟨s', hinsert, hlist', hr⟩ := hlist.insert hpos hlt
    (by simpa using hlow) (by simpa using hhigh)
  rw [← List.map_cons, ← List.map_append] at hlist' hr
  refine ⟨s', hinsert, ⟨hlist', ?_⟩, hr⟩
  intro f hf
  rw [hr.size_eq fun y hy => hlist'.clear hy (List.mem_map_of_mem hf)]
  simp only [List.mem_append, List.mem_cons] at hf
  rcases hf with hf | rfl | hf
  · exact hs.sizes f (List.mem_append_left l₂ hf)
  · exact hsize
  · exact hs.sizes f (List.mem_append_right l₁ hf)

theorem remove (hs : Holds s (l₁ ++ e :: l₂)) :
    Holds (s.removeFromHolesList e.start) (l₁ ++ l₂) ∧
      Relinked ((l₁ ++ l₂).map Extent.start) s (s.removeFromHolesList e.start) := by
  have hlist : HolesList s (l₁.map Extent.start ++ e.start :: l₂.map Extent.start) := by
    simpa using hs.list
  obtain ⟨hlist', hr⟩ := hlist.remove
  rw [← List.map_append] at hlist' hr
  refine ⟨⟨hlist', fun f hf => ?_⟩, hr⟩
  rw [hr.size_eq fun y hy => hlist'.clear hy (List.mem_map_of_mem hf)]
  exact hs.sizes f (((List.sublist_cons_self e l₂).append_left l₁).subset hf)

end Holds

/-! ## Frames -/

/-- The addresses of the extents. -/
def bytesOf (es : List Extent) : Set ℕ := {a | ∃ e ∈ es, a ∈ e}

/-- Only bytes of `A` are stored to; the supply of pages stays as it is. -/
structure Touches (A : Set ℕ) (s s' : State) : Prop where
  confined : Memory.Confined A s.memory s'.memory
  lastPage : s'.lastPage = s.lastPage
  frames : s'.frames = s.frames
  tables : s'.tables = s.tables
  mapped : s'.mapped = s.mapped

namespace Touches

variable {A B : Set ℕ} {s₁ s₂ s₃ : State}

theorem refl (A : Set ℕ) (s : State) : Touches A s s :=
  ⟨Memory.Confined.refl A _, rfl, rfl, rfl, rfl⟩

theorem mono (ht : Touches A s₁ s₂) (hAB : A ⊆ B) : Touches B s₁ s₂ :=
  ⟨ht.confined.mono hAB, ht.lastPage, ht.frames, ht.tables, ht.mapped⟩

theorem trans (h₁ : Touches A s₁ s₂) (h₂ : Touches A s₂ s₃) : Touches A s₁ s₃ :=
  ⟨h₁.confined.trans h₂.confined, h₂.lastPage.trans h₁.lastPage, h₂.frames.trans h₁.frames,
    h₂.tables.trans h₁.tables, h₂.mapped.trans h₁.mapped⟩

theorem setSize {h w : ℕ} (hA : ∀ x, h ≤ x → x < h + 4 → x ∈ A) :
    Touches A s (s.setSize h w) := ⟨Memory.confined_store hA, rfl, rfl, rfl, rfl⟩

theorem size_eq {x : ℕ} (ht : Touches A s s') (hA : ∀ a, x ≤ a → a < x + 4 → a ∉ A) :
    s'.size x = s.size x := ht.confined.load_eq hA

end Touches

theorem Relinked.touches {A : Set ℕ} {es : List Extent} (hr : Relinked (es.map Extent.start) s s')
    (hA : ∀ e ∈ es, ∀ a, e.start + 4 ≤ a → a < e.start + 12 → a ∈ A) : Touches A s s' := by
  refine ⟨hr.confined.mono ?_, hr.lastPage, hr.frames, hr.tables, hr.mapped⟩
  rintro a ⟨x, hx, h₁, h₂⟩
  obtain ⟨e, he, rfl⟩ := List.mem_map.mp hx
  exact hA e he a h₁ h₂

/-! ## Sound lists of holes and whole layouts -/

/-- Holes in address order, each with room for its header, inside the region
of the heap. -/
structure Sound (holes : List Extent) : Prop where
  big : ∀ e ∈ holes, 12 ≤ e.size
  apart : holes.Pairwise fun e f => e.start + e.size ≤ f.start
  bounds : ∀ e ∈ holes, heapStartAddr ≤ e.start ∧ e.start + e.size ≤ windowStart

theorem exists_split (hapart : holes.Pairwise fun e f => e.start + e.size ≤ f.start)
    (hdisj : ∀ e ∈ holes, e.Disjoint c) :
    ∃ l₁ l₂, holes = l₁ ++ l₂ ∧ (∀ e ∈ l₁, e.start + e.size ≤ c.start) ∧
      ∀ e ∈ l₂, c.start + c.size ≤ e.start := by
  induction holes with
  | nil => exact ⟨[], [], rfl, by simp, by simp⟩
  | cons e holes ih =>
      obtain ⟨habove, hrest⟩ := List.pairwise_cons.mp hapart
      rcases hdisj e List.mem_cons_self with hlow | hhigh
      · obtain ⟨l₁, l₂, rfl, h₁, h₂⟩ := ih hrest fun f hf => hdisj f (List.mem_cons_of_mem e hf)
        refine ⟨e :: l₁, l₂, rfl, fun f hf => ?_, h₂⟩
        rcases List.mem_cons.mp hf with rfl | hf
        · exact hlow
        · exact h₁ f hf
      · refine ⟨[], e :: holes, rfl, by simp, fun f hf => ?_⟩
        rcases List.mem_cons.mp hf with rfl | hf
        · exact hhigh
        · have := habove f hf
          omega

/-- Every page table that was made has got a frame. -/
def Framed (s : State) : Prop := ∀ v ∈ s.tables, v.2 ≠ 0

instance (s : State) : Decidable (Framed s) := inferInstanceAs (Decidable (∀ v ∈ _, _))

/-- The holes, the chunks in use and the lost extents cover the mapped pages
exactly once. -/
structure Layout (s : State) (holes live lost : List Extent) : Prop where
  holds : Holds s holes
  sound : Sound holes
  recorded : ∀ c ∈ live, s.size c.start = c.size
  liveBig : ∀ c ∈ live, 12 ≤ c.size
  covered : ∀ a, cover holes a + cover live a + cover lost a = cover s.pages a
  once : ∀ a, cover s.pages a ≤ 1
  mapped : ∀ v ∈ s.mapped, heapStartAddr ≤ v.1 ∧ v.1 ≤ s.lastPage ∧ v.1 + 4096 ≤ windowStart
  lastPage : heapStartAddr ≤ s.lastPage ∧ s.lastPage ≤ windowStart

namespace Layout

theorem bounds_of_cover (hl : Layout s holes live lost) (ha : 0 < cover s.pages a) :
    heapStartAddr ≤ a ∧ a < windowStart := by
  obtain ⟨e, he, hae⟩ := cover_pos_iff.mp ha
  obtain ⟨v, hv, rfl⟩ := List.mem_map.mp he
  have := hl.mapped v hv
  rw [Extent.mem_mk] at hae
  omega

theorem live_bounds (hl : Layout s holes live lost) (hc : c ∈ live) :
    heapStartAddr ≤ c.start ∧ c.start + c.size ≤ windowStart := by
  have hbig := hl.liveBig c hc
  have hin : ∀ x, x ∈ c → 0 < cover s.pages x := fun x hx => by
    have := hl.covered x
    have := cover_pos_of_mem hc hx
    omega
  have hfirst := hl.bounds_of_cover (hin c.start ⟨le_rfl, by omega⟩)
  have hlast := hl.bounds_of_cover (hin (c.start + c.size - 1) ⟨by omega, by omega⟩)
  omega

theorem hole_disjoint_live (hl : Layout s holes live lost) (he : e ∈ holes) (hc : c ∈ live) :
    e.Disjoint c := by
  have h₁ := hl.sound.big e he
  have h₂ := hl.liveBig c hc
  refine Extent.disjoint_of_no_common (by omega) (by omega) fun x hxe hxc => ?_
  have := hl.covered x
  have := hl.once x
  have := cover_pos_of_mem he hxe
  have := cover_pos_of_mem hc hxc
  omega

theorem live_disjoint (hl : Layout s holes live lost) : live.Pairwise Extent.Disjoint := by
  refine pairwise_disjoint_of_cover_le_one (fun c hc => ?_) fun x => ?_
  · have := hl.liveBig c hc
    omega
  · have := hl.covered x
    have := hl.once x
    omega

/-- Around a chunk in use the holes split into those below and those above. -/
theorem split_at (hl : Layout s holes live lost) (hc : c ∈ live) :
    ∃ l₁ l₂, holes = l₁ ++ l₂ ∧ (∀ e ∈ l₁, e.start + e.size ≤ c.start) ∧
      ∀ e ∈ l₂, c.start + c.size ≤ e.start :=
  exists_split hl.sound.apart fun _ he => hl.hole_disjoint_live he hc

end Layout

end AviKernel.Heap
