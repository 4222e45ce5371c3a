import AviKernel.Memory.HeapExhaustion
import AviKernel.Memory.HolesMembers

/-!
# States given by their blocks

Heap states that are described by their listed holes and their chunks alone,
whatever calls have led to them.  Allocating and releasing at once leads back to
the same list, and reallocating moves the contents of a chunk.
-/

namespace AviKernel.Heap

open State Holds

variable {s t : State} {holes lost l₁ l₂ : List Extent} {c e f : Extent} {u : Config}
  {n p q r : ℕ}

/-- A well-formed list of holes and chunks in use that are disjoint, have room for
a header and lie in the region of the heap. -/
structure Arranged (u : Config) : Prop where
  list : WellFormed u.heap (u.heap.holes.map Extent.start)
  big : ∀ e ∈ u.heap.holes ++ u.chunks, 12 ≤ e.size
  disjoint : (u.heap.holes ++ u.chunks).Pairwise Extent.Disjoint
  region : ∀ e ∈ u.heap.holes ++ u.chunks, heapStartAddr ≤ e.start ∧ e.start + e.size ≤ windowStart

/-- What `merge` finds in the place of the size of a hole that is not there. -/
def WordOutside (s : State) : Prop :=
  s.memory.load 0 < heapStartAddr ∨ windowStart ≤ s.memory.load 0

namespace Arranged

theorem sizes_of_mem_holesFrom {steps node : ℕ} (he : e ∈ s.holesFrom steps node) :
    s.size e.start = e.size := by
  induction steps generalizing node with
  | zero => exact absurd he List.not_mem_nil
  | succ steps ih =>
      rw [holesFrom] at he
      split_ifs at he with hnode
      · exact absurd he List.not_mem_nil
      · rcases List.mem_cons.mp he with rfl | he
        · rfl
        · exact ih he

theorem big_hole (hu : Arranged u) (he : e ∈ u.heap.holes) : 12 ≤ e.size :=
  hu.big e (List.mem_append_left _ he)

theorem sound (hu : Arranged u) : Sound u.heap.holes := by
  refine ⟨fun e he => hu.big_hole he, ?_, fun e he => hu.region e (List.mem_append_left _ he)⟩
  have hdisjoint := (List.pairwise_append.mp hu.disjoint).1
  have hincreasing := List.pairwise_map.mp hu.list.increasing
  refine (List.Pairwise.and_mem.mp (hincreasing.and hdisjoint)).imp ?_
  rintro e f ⟨-, hf, hlt, hef⟩
  have hbig := hu.big_hole hf
  simp only [Extent.Disjoint] at hef
  omega

theorem holds (hu : Arranged u) : Holds u.heap u.heap.holes := by
  refine ⟨holesList_iff.mpr ⟨hu.list, ?_⟩, fun e he => sizes_of_mem_holesFrom he⟩
  refine List.pairwise_map.mpr ((List.Pairwise.and_mem.mp hu.sound.apart).imp ?_)
  rintro e f ⟨he, -, hef⟩
  have hbig := hu.big_hole he
  unfold HeadersApart
  omega

theorem hole_disjoint (hu : Arranged u) (he : e ∈ u.heap.holes) (hc : c ∈ u.chunks) :
    e.Disjoint c := (List.pairwise_append.mp hu.disjoint).2.2 e he c hc

end Arranged

/-- The states that runs lead to are of this kind. -/
theorem Valid.arranged (hv : Valid u lost) : Arranged u := by
  have hbig : ∀ e ∈ u.heap.holes ++ u.chunks, 12 ≤ e.size := fun e he => (hv.member_end he).1
  refine ⟨(holesList_iff.mp hv.holds.list).1, hbig, ?_, ?_⟩
  · apply pairwise_disjoint_of_cover_le_one
    · intro e he
      have := hbig e he
      omega
    · intro a
      have hcov := hv.covered a
      have honce := hv.once a
      rw [cover_append]
      omega
  · intro e he
    rcases List.mem_append.mp he with he | he
    · exact hv.sound.bounds e he
    · exact hv.live_bounds he

/-- A chunk whose bytes are kept keeps its size. -/
theorem chunk_eq_of_bytes (hbig : 12 ≤ (chunk s q).size)
    (hkeep : ∀ a ∈ chunk s q, t.memory.byte a = s.memory.byte a) : chunk t q = chunk s q := by
  have hsize : t.size (q - 4) = s.size (q - 4) := by
    apply Memory.load_congr
    intro a hlow hhigh
    apply hkeep
    simp only [chunk] at hbig ⊢
    rw [Extent.mem_mk]
    omega
  rw [chunk, hsize]
  rfl

/-! ## Allocating and releasing at once -/

/-- No listed hole ends where another one starts. -/
def NoneAdjacent (holes : List Extent) : Prop :=
  ∀ e ∈ holes, ∀ f ∈ holes, e.start + e.size ≠ f.start

/-- The part that was cut off the hole joins the rest of it again. -/
theorem releasedHoles_taken (hsound : Sound (l₁ ++ e :: l₂)) (hnone : NoneAdjacent (l₁ ++ e :: l₂)) :
    releasedHoles l₁ (taken r e) (remainder r e ++ l₂) = l₁ ++ e :: l₂ := by
  have hbig := hsound.big e (by simp)
  have hle := takenSize_le (r := r) hbig
  have hjoin : joinNext (taken r e) (remainder r e ++ l₂) = e :: l₂ := by
    by_cases hcut : 12 < e.size - r
    · have hadj : (taken r e).start + (taken r e).size = e.start + takenSize r e := rfl
      have hsum : takenSize r e + (e.size - takenSize r e) = e.size := by omega
      rw [remainder, if_pos hcut, List.singleton_append, joinNext, if_pos hadj]
      show (⟨e.start, takenSize r e + (e.size - takenSize r e)⟩ : Extent) :: l₂ = e :: l₂
      rw [hsum]
    · have hwhole : takenSize r e = e.size := if_neg hcut
      have htaken : taken r e = e := by rw [taken, hwhole]
      rw [remainder, if_neg hcut, List.nil_append, htaken]
      cases l₂ with
      | nil => rfl
      | cons n rest =>
          have hapart := hnone e (by simp) n (by simp)
          rw [joinNext, if_neg hapart]
  rcases List.eq_nil_or_concat' l₁ with rfl | ⟨front, q, rfl⟩
  · exact hjoin
  · have hapart : q.start + q.size ≠ (taken r e).start := hnone q (by simp) e (by simp)
    rw [(released_of_apart hapart).1, hjoin]

/-- The list with the part that was cut off in front of the rest. -/
theorem sound_cut (hsound : Sound (l₁ ++ e :: l₂)) (hslice : Unsliced r e) :
    Sound (l₁ ++ taken r e :: (remainder r e ++ l₂)) := by
  have hbig := hsound.big e (by simp)
  have hbounds := hsound.bounds e (by simp)
  have hle := takenSize_le (r := r) hbig
  obtain ⟨hlow, hhigh⟩ := hsound.neighbours
  have hrest : Sound (l₁ ++ (remainder r e ++ l₂)) := by
    rw [← List.append_assoc]
    exact sound_taken hsound hslice
  apply hrest.insert (takenSize_big hbig)
  · refine ⟨hbounds.1, ?_⟩
    show e.start + takenSize r e ≤ windowStart
    omega
  · exact fun f hf => (hlow f hf).2
  · intro f hf
    show e.start + takenSize r e ≤ f.start
    rcases List.mem_append.mp hf with hf | hf
    · rw [remainder] at hf
      split_ifs at hf with hcut
      · obtain rfl := List.mem_singleton.mp hf
        exact le_rfl
      · exact absurd hf List.not_mem_nil
    · have := hhigh f hf
      omega

theorem bytesOf_cut (hbig : 12 ≤ e.size) :
    bytesOf (l₁ ++ taken r e :: (remainder r e ++ l₂)) ⊆ bytesOf (l₁ ++ e :: l₂) := by
  intro a ha
  have htaken := cover_taken (r := r) hbig a
  rw [mem_bytesOf_iff] at ha ⊢
  simp only [cover_append, cover_cons, cover_nil] at ha htaken ⊢
  omega

/-- Releasing what was just taken off a hole. -/
theorem free_taken (hs : Holds s (l₁ ++ remainder r e ++ l₂)) (hsound : Sound (l₁ ++ e :: l₂))
    (hslice : Unsliced r e) (hnone : NoneAdjacent (l₁ ++ e :: l₂))
    (hsize : s.size e.start = takenSize r e) (hword : WordOutside s) :
    ∃ t, s.free (e.start + 4) = some t ∧ Holds t (l₁ ++ e :: l₂) ∧
      Touches (bytesOf (l₁ ++ e :: l₂)) s t := by
  have hbig := hsound.big e (by simp)
  have hcut := sound_cut hsound hslice
  have hlist : Holds s (l₁ ++ (remainder r e ++ l₂)) := by
    rw [← List.append_assoc]
    exact hs
  have hstart := (hsound.bounds e (by simp)).1
  have hend := (hsound.bounds e (by simp)).2
  have hzero : l₁ = [] → s.memory.load 0 ≠ (taken r e).start := by
    intro _
    show s.memory.load 0 ≠ e.start
    simp only [WordOutside] at hword
    omega
  obtain ⟨t, hfree, hholds, -, -, ht⟩ :=
    hlist.free_links hcut hsize hzero (headersIn_bytesOf hcut.big)
  rw [releasedHoles_taken hsound hnone] at hholds
  exact ⟨t, hfree, hholds, ht.mono (bytesOf_cut hbig)⟩

/-- A call of `malloc` for which a listed hole is big enough, and a call of `free`
for what it returns, leave the list and the chunks as they were. -/
theorem malloc_free_restores (hu : Arranged u) (hnone : NoneAdjacent u.heap.holes)
    (hword : WordOutside u.heap) (hn : 8 ≤ n) (hfit : ∃ e ∈ u.heap.holes, n + 4 ≤ e.size) :
    ∃ p s t, u.heap.malloc n = some (p, s) ∧ p ≠ 0 ∧ s.free p = some t ∧
      t.holes = u.heap.holes ∧ SameList (u.heap.holes.map Extent.start) u.heap t ∧
      ∀ q ∈ u.live, chunk t q = chunk u.heap q ∧
        ∀ a ∈ chunk u.heap q, t.memory.byte a = u.heap.memory.byte a := by
  have hholds := hu.holds
  have hsound := hu.sound
  have hdisjoint : ∀ e ∈ u.heap.holes, ∀ c ∈ u.chunks, e.Disjoint c := fun e he c hc =>
    hu.hole_disjoint he hc
  have hbig : ∀ c ∈ u.chunks, 12 ≤ c.size := fun c hc => hu.big c (List.mem_append_right _ hc)
  obtain ⟨f, hf, hroom⟩ := hfit
  obtain ⟨e, hfirst⟩ := exists_fit hf hroom
  generalize u.heap.holes = holes at *
  obtain ⟨hle, l₁, l₂, rfl⟩ := fit_split hfirst
  have hbounds := hsound.bounds e (by simp)
  simp only [heapStartAddr, windowStart] at hbounds
  have hslice : Unsliced (n + 4) e := fun h => by omega
  obtain ⟨s, htake, hs, hsize, ht₁⟩ := take_holds hholds hsound hle hslice
  have hword₁ : WordOutside s := by
    rw [WordOutside, load_zero_of_confined (fun f hf => (hsound.bounds f hf).1) ht₁.confined]
    exact hword
  obtain ⟨t, hfree, ht, ht₂⟩ := free_taken hs hsound hslice hnone hsize hword₁
  have hconf := (ht₁.trans ht₂).confined
  refine ⟨e.start + 4, s, t, ?_, by omega, hfree, ht.holes_eq, hholds.list.sameList ht.list, ?_⟩
  · rw [State.malloc, hholds.mallocWithin_take (by omega) (by omega) hfirst, htake]
  · intro q hq
    have hmem : chunk u.heap q ∈ u.chunks := List.mem_map_of_mem hq
    have hkeep : ∀ a ∈ chunk u.heap q, t.memory.byte a = u.heap.memory.byte a := by
      intro a ha
      apply hconf.byte_eq
      rintro ⟨g, hg, hag⟩
      exact not_mem_of_disjoint (hdisjoint g hg _ hmem) hag ha
    exact ⟨chunk_eq_of_bytes (hbig _ hmem) hkeep, hkeep⟩

instance (holes : List Extent) : Decidable (NoneAdjacent holes) := by
  unfold NoneAdjacent
  infer_instance

instance (s : State) : Decidable (WordOutside s) := inferInstanceAs (Decidable (_ ∨ _))

/-- Two chunks in use with a hole between them. -/
def holeBetween : List Call := [.malloc 100, .malloc 60, .malloc 30, .free 0xC0C0006C]

theorem malloc_free_restores_between : ∃ c u, Config.initial zeroMemory [4096, 8192] = some c ∧
    run Config.step c holeBetween = some u ∧ ∃ p s t, u.heap.malloc 20 = some (p, s) ∧ p ≠ 0 ∧
      s.free p = some t ∧ t.holes = u.heap.holes ∧
      SameList (u.heap.holes.map Extent.start) u.heap t ∧
      ∀ q ∈ u.live, chunk t q = chunk u.heap q ∧
        ∀ a ∈ chunk u.heap q, t.memory.byte a = u.heap.memory.byte a := by
  obtain ⟨c, hc⟩ : ∃ c, Config.initial zeroMemory [4096, 8192] = some c := ⟨_, rfl⟩
  have hrun : ∀ c ∈ Config.initial zeroMemory [4096, 8192],
      RunAll Config.step Copes c holeBetween := by decide +kernel
  obtain ⟨u, hu, lost, hv⟩ := run_copes hc (hrun c hc)
  have hstate : ∀ c ∈ Config.initial zeroMemory [4096, 8192], ∀ u ∈ run Config.step c holeBetween,
      NoneAdjacent u.heap.holes ∧ WordOutside u.heap ∧ ∃ e ∈ u.heap.holes, 20 + 4 ≤ e.size := by
    decide +kernel
  obtain ⟨hnone, hword, hfit⟩ := hstate c hc u hu
  exact ⟨c, u, hc, hu, malloc_free_restores hv.arranged hnone hword (by decide) hfit⟩

/-! ## Moving a chunk -/

/-- The blocks lie in mapped pages, each of which is mapped once, and no page above
`last_page` is mapped. -/
structure Backed (u : Config) : Prop where
  inside : ∀ e ∈ u.heap.holes ++ u.chunks, ∀ a ∈ e, 0 < cover u.heap.pages a
  once : (u.heap.mapped.map Prod.fst).Nodup
  aligned : ∀ v ∈ u.heap.mapped, 4096 ∣ v.1
  below : ∀ v ∈ u.heap.mapped, heapStartAddr ≤ v.1 ∧ v.1 ≤ u.heap.lastPage ∧
    v.1 + 4096 ≤ windowStart
  lastPage : heapStartAddr ≤ u.heap.lastPage ∧ u.heap.lastPage ≤ windowStart
  lastAligned : 4096 ∣ u.heap.lastPage

theorem Backed.pages_once (hb : Backed u) (a : ℕ) : cover u.heap.pages a ≤ 1 := by
  apply cover_le_one
  refine List.pairwise_map.mpr ?_
  have hne := List.pairwise_map.mp hb.once
  refine (List.Pairwise.and_mem.mp hne).imp ?_
  rintro v w ⟨hv, hw, hvw⟩
  have hv' := hb.aligned v hv
  have hw' := hb.aligned w hw
  simp only [Extent.Disjoint]
  omega

/-- The pages of a run are of this kind, too. -/
theorem Valid.backed (hv : Valid u lost) (haligned : ∀ v ∈ u.heap.mapped, 4096 ∣ v.1)
    (hlast : 4096 ∣ u.heap.lastPage) : Backed u := by
  refine ⟨fun e he a ha => hv.in_pages he ha, ?_, haligned, hv.mapped, hv.lastPage, hlast⟩
  have hdisjoint : u.heap.pages.Pairwise Extent.Disjoint := by
    apply pairwise_disjoint_of_cover_le_one
    · intro e he
      obtain ⟨v, -, rfl⟩ := List.mem_map.mp he
      exact Nat.succ_pos 4095
    · exact hv.once
  refine List.pairwise_map.mpr ((List.pairwise_map.mp hdisjoint).imp ?_)
  intro v w hvw heq
  simp only [Extent.Disjoint] at hvw
  omega

/-- What the blocks leave of the pages is lost. -/
theorem Arranged.valid (hu : Arranged u) (hb : Backed u) : ∃ lost, Valid u lost := by
  obtain ⟨lost, hlost⟩ := exists_cover
    (fun a => 0 < cover u.heap.pages a ∧ cover (u.heap.holes ++ u.chunks) a = 0) (2 ^ 32)
  have hbelow : ∀ a, 0 < cover u.heap.pages a → a < 2 ^ 32 := by
    intro a ha
    obtain ⟨e, he, hae⟩ := cover_pos_iff.mp ha
    obtain ⟨v, hv, rfl⟩ := List.mem_map.mp he
    have := (hb.below v hv).2.2
    rw [Extent.mem_mk] at hae
    simp only [windowStart] at this
    omega
  refine ⟨lost, hu.holds, hu.sound, ?_, fun c hc => hu.big c (List.mem_append_right _ hc), ?_,
    hb.pages_once, hb.below, hb.lastPage⟩
  · intro c hc
    obtain ⟨p, -, rfl⟩ := List.mem_map.mp hc
    rfl
  · intro a
    have honce := cover_le_one hu.disjoint a
    have hpages := hb.pages_once a
    have hcovered : 0 < cover (u.heap.holes ++ u.chunks) a → 0 < cover u.heap.pages a := by
      intro hpos
      obtain ⟨e, he, hae⟩ := cover_pos_iff.mp hpos
      exact hb.inside e he a hae
    have hlt := hbelow a
    rw [hlost, ← cover_append]
    split_ifs with h
    · omega
    · omega

/-- The chunk at `q` takes over from the one at `p`: it has room for the request and
the bytes of the old chunk, which is on the list of holes, and the other chunks are what they
were. -/
structure TakesOver (u : Config) (p n q : ℕ) (t : State) : Prop where
  called : u.heap.realloc p n = some (q, t)
  step : u.step (.realloc p n) = some ⟨t, q :: u.live.erase p⟩
  nonnull : q ≠ 0
  room : n + 4 ≤ (chunk t q).size
  bytes : ∀ i < min ((chunk u.heap p).size - 4) n,
    t.memory.byte (q + i) = u.heap.memory.byte (p + i)
  gone : p ∉ q :: u.live.erase p
  freed : ∀ a ∈ chunk u.heap p, 0 < cover t.holes a
  apart : ∀ r ∈ u.live.erase p, (chunk t q).Disjoint (chunk t r)
  kept : ∀ r ∈ u.live.erase p, chunk t r = chunk u.heap r ∧
    ∀ a ∈ chunk u.heap r, t.memory.byte a = u.heap.memory.byte a

/-- What `malloc` stores to is apart from the chunks in use before. -/
theorem Layout.stores_apart {live : List ℕ} {holes₁ : List Extent} {s₁ : State}
    (hl : Layout s holes (live.map (chunk s)) lost)
    (hl₁ : Layout s₁ holes₁ ((q :: live).map (chunk s₁)) lost) (hr : r ∈ live)
    (hsame : chunk s₁ r = chunk s r) {a : ℕ} (ha : a ∈ chunk s r) :
    a ∉ bytesOf (holes ++ chunk s₁ q :: holes₁) := by
  have hmem : chunk s r ∈ live.map (chunk s) := List.mem_map_of_mem hr
  have hne : q ≠ r := fun h => (List.nodup_cons.mp hl₁.pointers_nodup).1 (h ▸ hr)
  have hr₁ : r ∈ q :: live := List.mem_cons_of_mem q hr
  rintro ⟨e, he, hae⟩
  rcases List.mem_append.mp he with he | he
  · exact not_mem_of_disjoint (hl.hole_disjoint_live he hmem) hae ha
  · rw [← hsame] at ha
    rcases List.mem_cons.mp he with rfl | he
    · exact not_mem_of_disjoint (hl₁.pointers_disjoint List.mem_cons_self hr₁ hne) hae ha
    · exact not_mem_of_disjoint (hl₁.hole_disjoint_live he (List.mem_map_of_mem hr₁)) hae ha

/-- The copy is not touched by the release of the old chunk. -/
theorem Moved.byte_copied {live : List ℕ} {holes₁ : List Extent} {s₁ : State}
    (hmoved : Moved s holes holes₁ live p n q s₁ t)
    (hl : Layout s holes (live.map (chunk s)) lost)
    (hl₁ : Layout s₁ holes₁ ((q :: live).map (chunk s₁)) lost) (hp : p ∈ live) {i : ℕ}
    (hi : i < bytesToCopy s p n) (hold : i + 4 < (chunk s p).size)
    (hlen : bytesToCopy s p n + 4 ≤ (chunk s p).size) :
    t.memory.byte (q + i) = s.memory.byte (p + i) := by
  have hle := bytesToCopy_le (s := s) (p := p) (n := n)
  have hroom := hmoved.room
  have hne : q ≠ p := fun h => hmoved.fresh (h ▸ hp)
  have hsame := hmoved.sameBefore p hp
  have hp₁ : p ∈ q :: live := List.mem_cons_of_mem q hp
  have hpstart := (hl.pointer_bounds hp).1
  have hqstart := (hl₁.pointer_bounds List.mem_cons_self).1
  simp only [heapStartAddr] at hpstart hqstart
  have hdisjoint := hl₁.pointers_disjoint List.mem_cons_self hp₁ hne
  rw [hsame] at hdisjoint
  have hnew : q + i ∈ chunk s₁ q := by
    simp only [chunk] at hroom ⊢
    rw [Extent.mem_mk]
    omega
  have hsource : p + i ∈ chunk s p := by
    simp only [chunk] at hold ⊢
    rw [Extent.mem_mk]
    omega
  have hfreed : q + i ∉ bytesOf (chunk s p :: holes₁) := by
    rintro ⟨e, he, hae⟩
    rcases List.mem_cons.mp he with rfl | he
    · exact not_mem_of_disjoint hdisjoint hnew hae
    · exact not_mem_of_disjoint
        (hl₁.hole_disjoint_live he (List.mem_map_of_mem List.mem_cons_self)) hae hnew
  have hapart : Extent.Disjoint ⟨q, bytesToCopy s p n⟩ ⟨p, bytesToCopy s p n⟩ := by
    simp only [Extent.Disjoint, chunk] at hdisjoint hroom hlen ⊢
    omega
  rw [hmoved.freed.byte_eq hfreed, Memory.byte_copy hapart hi,
    hmoved.malloced.byte_eq (hl.stores_apart hl₁ hp hsame hsource)]

theorem Moved.byte_kept {live : List ℕ} {holes₁ : List Extent} {s₁ : State}
    (hmoved : Moved s holes holes₁ live p n q s₁ t)
    (hl : Layout s holes (live.map (chunk s)) lost)
    (hl₁ : Layout s₁ holes₁ ((q :: live).map (chunk s₁)) lost) (hp : p ∈ live)
    (hr : r ∈ live) (hne : r ≠ p) {a : ℕ} (ha : a ∈ chunk s r) :
    t.memory.byte a = s.memory.byte a := by
  have hstores := hl.stores_apart hl₁ hr (hmoved.sameBefore r hr) ha
  have hcopied : a ∉ bytesOf [chunk s₁ q] := by
    rintro ⟨e, he, hae⟩
    obtain rfl := List.mem_singleton.mp he
    exact hstores ⟨chunk s₁ q, by simp, hae⟩
  have hfreed : a ∉ bytesOf (chunk s p :: holes₁) := by
    rintro ⟨e, he, hae⟩
    rcases List.mem_cons.mp he with rfl | he
    · exact not_mem_of_disjoint (hl.pointers_disjoint hr hp hne) ha hae
    · exact hstores ⟨e, by simp [he], hae⟩
  rw [hmoved.freed.byte_eq hfreed, hmoved.copied.byte_eq hcopied, hmoved.malloced.byte_eq hstores]

/-- `realloc` keeps the data: the bytes of the chunk are moved to one that is big
enough, and no other chunk is changed. -/
theorem realloc_takesOver (hu : Arranged u) (hb : Backed u) (hword : WordOutside u.heap)
    (hp : p ∈ u.live) (hn : 8 ≤ n) (hwrap : n + 16 < 2 ^ 32)
    (hframes : fit (n + 4) u.heap.holes = none → Supplied u.heap (n + 4)) :
    ∃ q t, TakesOver u p n q t := by
  obtain ⟨lost, hv⟩ := hu.valid hb
  have hm : Mallocable u.heap u.heap.holes n :=
    ⟨hwrap, hframes, fun e he hcut => by omega⟩
  obtain ⟨hstart, hbig⟩ := Layout.pointer_bounds hv hp
  have hend := (hv.live_bounds (List.mem_map_of_mem hp)).2
  simp only [chunk] at hbig hend
  have hanchored : Anchored u.heap (holesAfter u.heap u.heap.holes n) p := by
    intro _
    simp only [WordOutside] at hword
    omega
  obtain ⟨q, s₁, t, holes', lost', hmoved, hl₁, hl₂, -⟩ :=
    realloc_spec hv hp (by omega) hm hanchored
  have hsize := Layout.bytesToCopy_eq (n := n) hv hp
  have hnodup := Layout.pointers_nodup hv
  have hlive : ∀ r ∈ u.live.erase p, r ∈ u.live ∧ r ≠ p := fun r hr =>
    ⟨List.mem_of_mem_erase hr, fun h => hnodup.not_mem_erase (h ▸ hr)⟩
  refine ⟨q, t, hmoved.called, ?_, hmoved.nonnull, ?_, ?_, ?_, hmoved.released,
    ?_, ?_⟩
  · simp only [Config.step, hmoved.called, Option.bind_eq_bind, Option.bind_some,
      if_neg hmoved.nonnull]
  · rw [hmoved.sameAfter q List.mem_cons_self]
    exact hmoved.room
  · intro i hi
    rw [← hsize] at hi
    have hfew : bytesToCopy u.heap p n + 4 ≤ (chunk u.heap p).size := by
      rw [hsize]
      simp only [chunk]
      omega
    exact hmoved.byte_copied hv hl₁ hp hi (by omega) hfew
  · rw [List.mem_cons, not_or]
    exact ⟨fun h => hmoved.fresh (h ▸ hp), hnodup.not_mem_erase⟩
  · intro r hr
    have hne : q ≠ r := fun h => hmoved.fresh (h ▸ (hlive r hr).1)
    exact hl₂.pointers_disjoint List.mem_cons_self (List.mem_cons_of_mem q hr) hne
  · intro r hr
    obtain ⟨hmem, hne⟩ := hlive r hr
    refine ⟨?_, fun a ha => hmoved.byte_kept hv hl₁ hp hmem hne ha⟩
    rw [hmoved.sameAfter r (List.mem_cons_of_mem q hr), hmoved.sameBefore r hmem]

theorem realloc_takesOver_between : ∃ c u,
    Config.initial zeroMemory [4096, 8192, 12288, 16384] = some c ∧
    run Config.step c holeBetween = some u ∧ ∃ q t, TakesOver u 0xC0C000AC 5000 q t := by
  obtain ⟨c, hc⟩ : ∃ c, Config.initial zeroMemory [4096, 8192, 12288, 16384] = some c := ⟨_, rfl⟩
  have hrun : ∀ c ∈ Config.initial zeroMemory [4096, 8192, 12288, 16384],
      RunAll Config.step Copes c holeBetween := by decide +kernel
  obtain ⟨u, hu, lost, hv⟩ := run_copes hc (hrun c hc)
  have hstate : ∀ c ∈ Config.initial zeroMemory [4096, 8192, 12288, 16384],
      ∀ u ∈ run Config.step c holeBetween, (∀ v ∈ u.heap.mapped, 4096 ∣ v.1) ∧
        4096 ∣ u.heap.lastPage ∧ WordOutside u.heap ∧ 0xC0C000AC ∈ u.live ∧
          Supplied u.heap (5000 + 4) := by
    decide +kernel
  obtain ⟨haligned, hlast, hword, hp, hsup⟩ := hstate c hc u hu
  exact ⟨c, u, hc, hu, realloc_takesOver hv.arranged (hv.backed haligned hlast) hword hp
    (by decide) (by decide) fun _ => hsup⟩

end AviKernel.Heap
