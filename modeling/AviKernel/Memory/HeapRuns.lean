import AviKernel.Library.Runs
import AviKernel.Memory.HeapAllocate

/-!
# Runs of the heap

A client allocates, releases and reallocates, and stores to its own chunks or
outside the heap in between.  Three things must not happen for the heap to
stay intact: a small request cutting a hole that is too short for two headers,
a release without a hole below it while the word at address zero equals its
header address, and a release directly between two holes.
-/

namespace AviKernel.Heap

open State Holds

variable {s s' : State} {holes lost l₁ l₂ es : List Extent} {live : List ℕ} {p q n : ℕ}
  {c d : Extent}

/-- The heap together with the pointers its clients hold. -/
structure Config where
  heap : State
  live : List ℕ

inductive Call where
  | malloc (size : ℕ)
  | free (addr : ℕ)
  | realloc (ptr newSize : ℕ)
  /-- A client stores one byte. -/
  | store (addr : ℕ) (value : UInt8)

/-- The extent of the chunk behind a pointer. -/
def chunk (s : State) (p : ℕ) : Extent := ⟨p - 4, s.size (p - 4)⟩

def Config.chunks (c : Config) : List Extent := c.live.map (chunk c.heap)

def Config.step (c : Config) : Call → Option Config
  | .malloc n => do
      let (p, s) ← c.heap.malloc n
      some ⟨s, if p = 0 then c.live else p :: c.live⟩
  | .free p => do
      let s ← c.heap.free p
      some ⟨s, c.live.erase p⟩
  | .realloc p n => do
      let (q, s) ← c.heap.realloc p n
      some ⟨s, if q = 0 then (if n = 0 then c.live.erase p else c.live) else q :: c.live.erase p⟩
  | .store a b =>
      some { c with heap.memory.byte := fun x => if x = a then b else c.heap.memory.byte x }

/-- Runs start where `Heap::initialize` has got a frame for its page and one for the table. -/
def Config.initial (memory : Memory) (frames : List ℕ) : Option Config := do
  let s ← initializeHeap memory frames
  if Framed s then some ⟨s, []⟩ else none

/-! ## What callers promise -/

/-- No sum wraps, and the frames that are asked for are there. -/
def Requestable (s : State) (n : ℕ) : Prop :=
  n ≠ 0 → n + 16 < 2 ^ 32 ∧ (fit (n + 4) s.holes = none → Supplied s (n + 4))

def Legal (c : Config) : Call → Prop
  | .malloc n => Requestable c.heap n
  | .free p => p ∈ c.live
  | .realloc p n => p ∈ c.live ∧ Requestable c.heap n
  | .store a _ => (∃ p ∈ c.live, p ≤ a ∧ a ∈ chunk c.heap p) ∨ cover c.heap.pages a = 0

/-! ## When the heap keeps its layout -/

/-- The size that a call asks `malloc` for. -/
def Call.request : Call → Option ℕ
  | .malloc n => if n = 0 then none else some n
  | .realloc _ n => if n = 0 then none else some n
  | _ => none

/-- The pointer that a call releases and the holes listed at that time. -/
def Config.release (c : Config) : Call → Option (ℕ × List Extent)
  | .free p => some (p, c.heap.holes)
  | .realloc p n =>
      some (p, if n = 0 then c.heap.holes else holesAfter c.heap c.heap.holes n)
  | _ => none

/-- The hole that serves the call is not cut too thin. -/
def CutsWell (c : Config) (k : Call) : Prop :=
  ∀ n ∈ k.request, ∀ e ∈ fit (n + 4) c.heap.holes, Unsliced (n + 4) e

/-- A chunk below all holes does not start where the word at address zero points. -/
def Anchored (s : State) (holes : List Extent) (p : ℕ) : Prop :=
  (∀ e ∈ holes, p - 4 < e.start) → s.memory.load 0 ≠ p - 4

/-- The chunk stands directly between two holes. -/
def Between (holes : List Extent) (c : Extent) : Prop :=
  (∃ e ∈ holes, e.start + e.size = c.start) ∧ ∃ e ∈ holes, c.start + c.size = e.start

def ReleasesAnchored (c : Config) (k : Call) : Prop :=
  ∀ r ∈ c.release k, Anchored c.heap r.2 r.1

def ReleasesApart (c : Config) (k : Call) : Prop :=
  ∀ r ∈ c.release k, ¬ Between r.2 (chunk c.heap r.1)

instance (s : State) (n : ℕ) : Decidable (Requestable s n) := by
  unfold Requestable
  infer_instance

instance (c : Config) : ∀ k, Decidable (Legal c k)
  | .malloc n => inferInstanceAs (Decidable (Requestable c.heap n))
  | .free p => inferInstanceAs (Decidable (p ∈ c.live))
  | .realloc p n => inferInstanceAs (Decidable (p ∈ c.live ∧ Requestable c.heap n))
  | .store a _ => inferInstanceAs
      (Decidable ((∃ p ∈ c.live, p ≤ a ∧ a ∈ chunk c.heap p) ∨ cover c.heap.pages a = 0))

instance (r : ℕ) (e : Extent) : Decidable (Unsliced r e) :=
  inferInstanceAs (Decidable (12 < e.size - r → 24 ≤ e.size))

instance (c : Config) (k : Call) : Decidable (CutsWell c k) := by
  unfold CutsWell
  infer_instance

instance (s : State) (holes : List Extent) (p : ℕ) : Decidable (Anchored s holes p) := by
  unfold Anchored
  infer_instance

instance (holes : List Extent) (c : Extent) : Decidable (Between holes c) := by
  unfold Between
  infer_instance

instance (c : Config) (k : Call) : Decidable (ReleasesAnchored c k) := by
  unfold ReleasesAnchored
  infer_instance

instance (c : Config) (k : Call) : Decidable (ReleasesApart c k) := by
  unfold ReleasesApart
  infer_instance

/-! ## Layouts over pointers -/

/-- The size words of the chunks in a layout are those of its state. -/
theorem Layout.chunk_eq {live : List Extent} (hl : Layout s' holes live lost)
    (hp : chunk s p ∈ live) : chunk s' p = chunk s p := by
  have hrec := hl.recorded (chunk s p) hp
  simp only [chunk, Extent.mk.injEq, true_and] at hrec ⊢
  exact hrec

/-- Storing outside the holes and the size words of the chunks. -/
theorem Layout.rewrite {live : List Extent} (hl : Layout s holes live lost) (memory : Memory)
    (hkeep : ∀ a, ((∃ e ∈ holes, a ∈ e) ∨ ∃ d ∈ live, d.start ≤ a ∧ a < d.start + 4) →
      memory.byte a = s.memory.byte a) : Layout { s with memory := memory } holes live lost := by
  refine ⟨hl.holds.congr ?_ rfl rfl, hl.sound, ?_, hl.liveBig, hl.covered, hl.once, hl.mapped,
    hl.lastPage⟩
  · intro e he a h₁ h₂
    have hbig := hl.sound.big e he
    exact hkeep a (Or.inl ⟨e, he, h₁, by omega⟩)
  · intro d hd
    rw [← hl.recorded d hd]
    exact Memory.load_congr fun a h₁ h₂ => hkeep a (Or.inr ⟨d, hd, h₁, h₂⟩)

theorem Layout.pointer_bounds (hl : Layout s holes (live.map (chunk s)) lost) (hp : p ∈ live) :
    heapStartAddr ≤ p - 4 ∧ 12 ≤ (chunk s p).size := by
  have hmem := List.mem_map_of_mem (f := chunk s) hp
  exact ⟨(hl.live_bounds hmem).1, hl.liveBig _ hmem⟩

theorem Layout.pointers_disjoint (hl : Layout s holes (live.map (chunk s)) lost) (hp : p ∈ live)
    (hq : q ∈ live) (hne : p ≠ q) : (chunk s p).Disjoint (chunk s q) := by
  have hpair := List.pairwise_map.mp hl.live_disjoint
  have : Std.Symm fun p q => (chunk s p).Disjoint (chunk s q) := ⟨fun _ _ h => h.symm⟩
  exact hpair.forall hp hq hne

theorem Layout.pointers_nodup (hl : Layout s holes (live.map (chunk s)) lost) : live.Nodup := by
  have hpair := List.pairwise_map.mp hl.live_disjoint
  refine (List.Pairwise.and_mem.mp hpair).imp ?_
  rintro p q ⟨hp, -, hdisj⟩ rfl
  have hbig := (hl.pointer_bounds hp).2
  simp only [Extent.Disjoint] at hdisj
  omega

/-! ## One call of each kind -/

theorem releasedLost_eq_nil (hlow : ∀ e ∈ l₁, e.start + e.size ≤ c.start)
    (hapart : ¬ Between (l₁ ++ l₂) c) : releasedLost l₁ c l₂ = [] := by
  rcases List.eq_nil_or_concat' l₁ with rfl | ⟨front, q, rfl⟩
  · rfl
  · by_cases hq : q.start + q.size = c.start
    · rw [(released_of_adjacent hq).2]
      cases l₂ with
      | nil => rfl
      | cons n rest =>
          have hn : c.start + c.size ≠ n.start := fun hadj =>
            hapart ⟨⟨q, by simp, hq⟩, ⟨n, by simp, hadj⟩⟩
          exact if_neg hn
    · exact (released_of_apart hq).2

/-- The holes that `free` leaves, between those below and those above the chunk. -/
theorem free_released (hl : Layout s holes (live.map (chunk s)) lost) (hp : p ∈ live)
    (hanchored : Anchored s holes p) :
    ∃ l₁ l₂ s', holes = l₁ ++ l₂ ∧
      (∀ e ∈ l₁, e.start + e.size ≤ (chunk s p).start) ∧
      (∀ e ∈ l₂, (chunk s p).start + (chunk s p).size ≤ e.start) ∧
      s.free p = some s' ∧
      Layout s' (releasedHoles l₁ (chunk s p) l₂) ((live.erase p).map (chunk s'))
        (releasedLost l₁ (chunk s p) l₂ ++ lost) ∧ s'.mapped = s.mapped ∧
      (∀ q ∈ live.erase p, chunk s' q = chunk s q) ∧
      Memory.Confined (bytesOf (chunk s p :: holes)) s.memory s'.memory := by
  obtain ⟨hstart, hbig⟩ := hl.pointer_bounds hp
  have hpointer : p = (chunk s p).start + 4 := by
    simp only [heapStartAddr] at hstart
    simp only [chunk]
    omega
  obtain ⟨l₁, l₂, rfl, hlow, hhigh⟩ := hl.split_at (List.mem_map_of_mem hp)
  obtain ⟨m₁, m₂, -, rfl, herase⟩ := List.exists_erase_eq hp
  rw [List.map_append, List.map_cons] at hl
  have hzero : l₁ = [] → s.memory.load 0 ≠ (chunk s p).start := by
    rintro rfl
    apply hanchored
    intro e he
    have habove := hhigh e he
    simp only [chunk] at habove hbig
    omega
  obtain ⟨s', hfree, hl', ht⟩ := hl.free hlow hhigh hzero
  rw [← List.map_append] at hl'
  rw [← hpointer] at hfree
  have hsame : ∀ q ∈ m₁ ++ m₂, chunk s' q = chunk s q := fun q hq =>
    hl'.chunk_eq (List.mem_map_of_mem hq)
  rw [herase]
  refine ⟨l₁, l₂, s', rfl, hlow, hhigh, hfree, ?_, ht.mapped, hsame, ht.confined.mono ?_⟩
  · rw [List.map_congr_left hsame]
    exact hl'
  · rintro a ⟨e, he, ha⟩
    refine ⟨e, ?_, ha⟩
    simp only [List.mem_append, List.mem_cons] at he ⊢
    tauto

theorem free_spec (hl : Layout s holes (live.map (chunk s)) lost) (hp : p ∈ live)
    (hanchored : Anchored s holes p) :
    ∃ s' holes' lost', s.free p = some s' ∧
      Layout s' holes' ((live.erase p).map (chunk s')) lost' ∧ s'.mapped = s.mapped ∧
      (∀ q ∈ live.erase p, chunk s' q = chunk s q) ∧
      Memory.Confined (bytesOf (chunk s p :: holes)) s.memory s'.memory ∧
      (¬ Between holes (chunk s p) → lost' = lost) ∧
      ∀ a ∈ chunk s p, 0 < cover holes' a := by
  obtain ⟨l₁, l₂, s', rfl, hlow, -, hfree, hl', hmapped, hsame, hconf⟩ :=
    free_released hl hp hanchored
  refine ⟨s', _, _, hfree, hl', hmapped, hsame, hconf, fun hapart => ?_, fun a ha =>
    cover_released_pos ha⟩
  rw [releasedLost_eq_nil hlow hapart, List.nil_append]

theorem malloc_spec (hl : Layout s holes (live.map (chunk s)) lost) (hn : n ≠ 0)
    (hm : Mallocable s holes n) :
    ∃ q s', s.malloc n = some (q, s') ∧
      Layout s' (holesAfter s holes n) ((q :: live).map (chunk s')) lost ∧ q ≠ 0 ∧
      n + 4 ≤ (chunk s' q).size ∧ (∀ p ∈ live, chunk s' p = chunk s p) ∧
      (∀ a, cover s.pages a ≤ cover s'.pages a) ∧
      Memory.Confined (bytesOf (holes ++ chunk s' q :: holesAfter s holes n))
        s.memory s'.memory := by
  obtain ⟨s', hmalloc, hl', hroom, hgrow, hconf⟩ := hl.malloc hn hm
  have hchunk : chunk s' ((allocated s holes n).start + 4) = allocated s holes n := by
    have hrec := hl'.recorded _ List.mem_cons_self
    rw [chunk, Nat.add_sub_cancel, hrec]
  have hsame : ∀ p ∈ live, chunk s' p = chunk s p := fun p hp =>
    hl'.chunk_eq (List.mem_cons_of_mem _ (List.mem_map_of_mem hp))
  refine ⟨(allocated s holes n).start + 4, s', hmalloc, ?_, by omega, ?_, hsame, hgrow, ?_⟩
  · rw [List.map_cons, hchunk, List.map_congr_left hsame]
    exact hl'
  · rw [hchunk]
    exact hroom
  · rw [hchunk]
    exact hconf

/-! ## What a call leaves alone -/

/-- The layout of a configuration. -/
def Valid (c : Config) (lost : List Extent) : Prop := Layout c.heap c.heap.holes c.chunks lost

theorem Layout.valid (hl : Layout s holes (live.map (chunk s)) lost) : Valid ⟨s, live⟩ lost := by
  have hholes := hl.holds.holes_eq
  rw [← hholes] at hl
  exact hl

/-- The chunks that one of two configurations has and the other has not. -/
def handled (u t : Config) : List Extent :=
  (u.live.filter fun p => p ∉ t.live).map (chunk u.heap) ++
    (t.live.filter fun p => p ∉ u.live).map (chunk t.heap)

/-- The holes that are listed before a call, when it releases a chunk, and after it. -/
def listed (u : Config) (k : Call) (t : Config) : List Extent :=
  u.heap.holes ++ ((u.release k).elim [] Prod.snd) ++ t.heap.holes

/-- The bytes that a call may store to. -/
def storable (u : Config) (k : Call) (t : Config) : Set ℕ := bytesOf (listed u k t ++ handled u t)

/-- A call stores to listed holes and to the chunks it hands out or takes
back; the other chunks and everything outside the pages stay as they are. -/
structure Untouched (u : Config) (k : Call) (t : Config) : Prop where
  stores : Memory.Confined (storable u k t) u.heap.memory t.heap.memory
  big : ∀ e ∈ t.heap.holes, 12 ≤ e.size
  others : ∀ p ∈ u.live, p ∈ t.live → chunk t.heap p = chunk u.heap p ∧
    ∀ a ∈ chunk u.heap p, a ∉ storable u k t ∧ t.heap.memory.byte a = u.heap.memory.byte a
  outside : ∀ a, cover t.heap.pages a = 0 →
    a ∉ storable u k t ∧ t.heap.memory.byte a = u.heap.memory.byte a

theorem not_mem_of_disjoint {e f : Extent} {a : ℕ} (h : e.Disjoint f) (he : a ∈ e) : a ∉ f := by
  rw [Extent.mem_def] at he ⊢
  simp only [Extent.Disjoint] at h
  omega

theorem Valid.in_pages {u : Config} (hu : Valid u lost) {e : Extent}
    (he : e ∈ u.heap.holes ++ u.chunks) {a : ℕ} (ha : a ∈ e) : 0 < cover u.heap.pages a := by
  have hcov := hu.covered a
  have hpos := cover_pos_of_mem he ha
  rw [cover_append] at hpos
  omega

/-- Between two valid configurations nothing but the listed holes and the
handled chunks is storable. -/
theorem untouched_of_valid {u t : Config} {k : Call} {lost' : List Extent} (hu : Valid u lost)
    (ht : Valid t lost') (hgrow : ∀ a, cover u.heap.pages a ≤ cover t.heap.pages a)
    (hmid : ∀ r ∈ u.release k, ∀ e ∈ r.2, (∀ p ∈ u.live, e.Disjoint (chunk u.heap p)) ∧
      ∀ a ∈ e, 0 < cover t.heap.pages a)
    (hsame : ∀ p ∈ u.live, p ∈ t.live → chunk t.heap p = chunk u.heap p)
    (hconf : Memory.Confined (storable u k t) u.heap.memory t.heap.memory) : Untouched u k t := by
  have hmem : ∀ a ∈ storable u k t, (∃ e ∈ u.heap.holes, a ∈ e) ∨
      (∃ r ∈ u.release k, ∃ e ∈ r.2, a ∈ e) ∨ (∃ e ∈ t.heap.holes, a ∈ e) ∨
      (∃ q ∈ u.live, q ∉ t.live ∧ a ∈ chunk u.heap q) ∨
      ∃ q ∈ t.live, q ∉ u.live ∧ a ∈ chunk t.heap q := by
    rintro a ⟨e, he, ha⟩
    simp only [listed, handled, List.mem_append, List.mem_map, List.mem_filter,
      decide_eq_true_eq] at he
    rcases he with ((he | he) | he) | ⟨q, ⟨hq, hq'⟩, rfl⟩ | ⟨q, ⟨hq, hq'⟩, rfl⟩
    · exact Or.inl ⟨e, he, ha⟩
    · cases hr : u.release k with
      | none => simp [hr] at he
      | some r => exact Or.inr (Or.inl ⟨r, rfl, e, by simpa [hr] using he, ha⟩)
    · exact Or.inr (Or.inr (Or.inl ⟨e, he, ha⟩))
    · exact Or.inr (Or.inr (Or.inr (Or.inl ⟨q, hq, hq', ha⟩)))
    · exact Or.inr (Or.inr (Or.inr (Or.inr ⟨q, hq, hq', ha⟩)))
  have hothers : ∀ p ∈ u.live, p ∈ t.live → ∀ a ∈ chunk u.heap p, a ∉ storable u k t := by
    intro p hp hp' a ha hstore
    have ha' : a ∈ chunk t.heap p := by
      rw [hsame p hp hp']
      exact ha
    rcases hmem a hstore with ⟨e, he, hae⟩ | ⟨r, hr, e, he, hae⟩ | ⟨e, he, hae⟩ |
      ⟨q, hq, hq', haq⟩ | ⟨q, hq, hq', haq⟩
    · exact not_mem_of_disjoint (hu.hole_disjoint_live he (List.mem_map_of_mem hp)) hae ha
    · exact not_mem_of_disjoint ((hmid r hr e he).1 p hp) hae ha
    · exact not_mem_of_disjoint (ht.hole_disjoint_live he (List.mem_map_of_mem hp')) hae ha'
    · have hne : q ≠ p := fun h => hq' (h ▸ hp')
      exact not_mem_of_disjoint (Layout.pointers_disjoint hu hq hp hne) haq ha
    · have hne : q ≠ p := fun h => hq' (h ▸ hp)
      exact not_mem_of_disjoint (Layout.pointers_disjoint ht hq hp' hne) haq ha'
  have houtside : ∀ a, cover t.heap.pages a = 0 → a ∉ storable u k t := by
    intro a hzero hstore
    have hgrow' := hgrow a
    rcases hmem a hstore with ⟨e, he, hae⟩ | ⟨r, hr, e, he, hae⟩ | ⟨e, he, hae⟩ |
      ⟨q, hq, -, haq⟩ | ⟨q, hq, -, haq⟩
    · have := hu.in_pages (List.mem_append_left _ he) hae
      omega
    · have := (hmid r hr e he).2 a hae
      omega
    · have := ht.in_pages (List.mem_append_left _ he) hae
      omega
    · have := hu.in_pages (List.mem_append_right _ (List.mem_map_of_mem hq)) haq
      omega
    · have := ht.in_pages (List.mem_append_right _ (List.mem_map_of_mem hq)) haq
      omega
  refine ⟨hconf, ht.sound.big, fun p hp hp' => ⟨hsame p hp hp', fun a ha => ?_⟩, fun a ha => ?_⟩
  · exact ⟨hothers p hp hp' a ha, hconf.byte_eq (hothers p hp hp' a ha)⟩
  · exact ⟨houtside a ha, hconf.byte_eq (houtside a ha)⟩

section Storable

variable {u t : Config} {k : Call} {e : Extent} {a : ℕ}

theorem storable_before (he : e ∈ u.heap.holes) (ha : a ∈ e) : a ∈ storable u k t :=
  ⟨e, List.mem_append_left _ (List.mem_append_left _ (List.mem_append_left _ he)), ha⟩

theorem storable_release {r : ℕ × List Extent} (hr : u.release k = some r) (he : e ∈ r.2)
    (ha : a ∈ e) : a ∈ storable u k t := by
  refine ⟨e, List.mem_append_left _ (List.mem_append_left _ (List.mem_append_right _ ?_)), ha⟩
  rw [hr]
  exact he

theorem storable_after (he : e ∈ t.heap.holes) (ha : a ∈ e) : a ∈ storable u k t :=
  ⟨e, List.mem_append_left _ (List.mem_append_right _ he), ha⟩

theorem storable_taken_back (hp : p ∈ u.live) (hp' : p ∉ t.live) (ha : a ∈ chunk u.heap p) :
    a ∈ storable u k t := by
  refine ⟨chunk u.heap p, List.mem_append_right _ (List.mem_append_left _ ?_), ha⟩
  exact List.mem_map_of_mem (List.mem_filter.mpr ⟨hp, by simpa using hp'⟩)

theorem storable_handed_out (hp : p ∈ t.live) (hp' : p ∉ u.live) (ha : a ∈ chunk t.heap p) :
    a ∈ storable u k t := by
  refine ⟨chunk t.heap p, List.mem_append_right _ (List.mem_append_right _ ?_), ha⟩
  exact List.mem_map_of_mem (List.mem_filter.mpr ⟨hp, by simpa using hp'⟩)

end Storable

/-! ## One step of a run -/

section Steps

variable {u : Config}

theorem mallocable_of (hn : n ≠ 0) (hreq : Requestable u.heap n)
    (hcut : ∀ e ∈ fit (n + 4) u.heap.holes, Unsliced (n + 4) e) :
    Mallocable u.heap u.heap.holes n :=
  ⟨(hreq hn).1, (hreq hn).2, fun e he => hcut e he⟩

theorem untouched_self {k : Call} (hv : Valid u lost)
    (hk : ∀ r ∈ u.release k, r.2 = u.heap.holes) : Untouched u k u := by
  refine untouched_of_valid hv hv (fun _ => le_rfl) (fun r hr e he => ?_) (fun _ _ _ => rfl)
    (Memory.Confined.refl _ _)
  rw [hk r hr] at he
  exact ⟨fun p hp => hv.hole_disjoint_live he (List.mem_map_of_mem hp),
    fun a ha => hv.in_pages (List.mem_append_left _ he) ha⟩

theorem step_malloc (hv : Valid u lost) (hlegal : Legal u (.malloc n))
    (hcut : CutsWell u (.malloc n)) :
    ∃ t, u.step (.malloc n) = some t ∧ Valid t lost ∧ Untouched u (.malloc n) t := by
  by_cases hn : n = 0
  · subst hn
    have hmalloc : u.heap.malloc 0 = some (0, u.heap) := rfl
    refine ⟨u, ?_, hv, untouched_self hv (by simp [Config.release])⟩
    simp only [Config.step, hmalloc, Option.bind_eq_bind, Option.bind_some, if_true]
  · have hm := mallocable_of hn hlegal fun e he => hcut n (by simp [Call.request, hn]) e he
    obtain ⟨q, s', hmalloc, hl', hq, -, hsame, hgrow, hconf⟩ := malloc_spec hv hn hm
    have hfresh : q ∉ u.live := (List.nodup_cons.mp hl'.pointers_nodup).1
    have hvalid := hl'.valid
    have hholes : s'.holes = holesAfter u.heap u.heap.holes n := hl'.holds.holes_eq
    refine ⟨⟨s', q :: u.live⟩, ?_, hvalid, ?_⟩
    · simp only [Config.step, hmalloc, Option.bind_eq_bind, Option.bind_some, if_neg hq]
    · apply untouched_of_valid hv hvalid hgrow (by simp [Config.release])
      · exact fun p hp _ => hsame p hp
      · apply hconf.mono
        rintro a ⟨e, he, ha⟩
        rcases List.mem_append.mp he with he | he
        · exact storable_before he ha
        · rcases List.mem_cons.mp he with rfl | he
          · exact storable_handed_out List.mem_cons_self hfresh ha
          · exact storable_after (by rw [hholes]; exact he) ha

theorem step_free (hv : Valid u lost) (hp : p ∈ u.live)
    (hanchored : Anchored u.heap u.heap.holes p) :
    ∃ t lost', u.step (.free p) = some t ∧ Valid t lost' ∧ Untouched u (.free p) t ∧
      (¬ Between u.heap.holes (chunk u.heap p) → lost' = lost) := by
  obtain ⟨s', holes', lost', hfree, hl', hmapped, hsame, hconf, hlost, -⟩ :=
    free_spec hv hp hanchored
  have hgone : p ∉ u.live.erase p := (Layout.pointers_nodup hv).not_mem_erase
  have hpages : s'.pages = u.heap.pages := by rw [pages, pages, hmapped]
  refine ⟨⟨s', u.live.erase p⟩, lost', ?_, hl'.valid, ?_, hlost⟩
  · simp only [Config.step, hfree, Option.bind_eq_bind, Option.bind_some]
  · apply untouched_of_valid hv hl'.valid
    · exact fun a => le_of_eq (by rw [hpages])
    · rintro r hr e he
      obtain rfl : (p, u.heap.holes) = r := Option.some.inj hr
      refine ⟨fun q hq => hv.hole_disjoint_live he (List.mem_map_of_mem hq), fun a ha => ?_⟩
      rw [hpages]
      exact hv.in_pages (List.mem_append_left _ he) ha
    · exact fun q _ hq => hsame q hq
    · apply hconf.mono
      rintro a ⟨e, he, ha⟩
      rcases List.mem_cons.mp he with rfl | he
      · exact storable_taken_back hp hgone ha
      · exact storable_before he ha

theorem step_store {a : ℕ} {b : UInt8} (hv : Valid u lost) (hlegal : Legal u (.store a b)) :
    ∃ t, u.step (.store a b) = some t ∧ Valid t lost := by
  have hkeep : ∀ x, ((∃ e ∈ u.heap.holes, x ∈ e) ∨
      ∃ d ∈ u.chunks, d.start ≤ x ∧ x < d.start + 4) →
      (if x = a then b else u.heap.memory.byte x) = u.heap.memory.byte x := by
    intro x hx
    apply if_neg
    rintro rfl
    rcases hlegal with ⟨p, hp, hpx, hxp⟩ | hzero
    · obtain ⟨hstart, hbig⟩ := Layout.pointer_bounds hv hp
      simp only [heapStartAddr] at hstart
      rcases hx with ⟨e, he, hxe⟩ | ⟨d, hd, hlow, hhigh⟩
      · exact not_mem_of_disjoint (hv.hole_disjoint_live he (List.mem_map_of_mem hp)) hxe hxp
      · obtain ⟨q, hq, rfl⟩ := List.mem_map.mp hd
        by_cases hne : q = p
        · subst hne
          simp only [chunk] at hhigh
          omega
        · have hbigq := (Layout.pointer_bounds hv hq).2
          exact not_mem_of_disjoint (Layout.pointers_disjoint hv hq hp hne)
            ⟨hlow, by omega⟩ hxp
    · rcases hx with ⟨e, he, hxe⟩ | ⟨d, hd, hlow, hhigh⟩
      · have := hv.in_pages (List.mem_append_left _ he) hxe
        omega
      · have hbig := hv.liveBig d hd
        have := hv.in_pages (List.mem_append_right _ hd) (a := x) ⟨hlow, by omega⟩
        omega
  have hl' := hv.rewrite ⟨fun x => if x = a then b else u.heap.memory.byte x, u.heap.memory.written⟩
    hkeep
  have hsame : u.live.map (chunk { u.heap with memory := ⟨fun x => if x = a then b else
      u.heap.memory.byte x, u.heap.memory.written⟩ }) = u.live.map (chunk u.heap) :=
    List.map_congr_left fun p hp => hl'.chunk_eq (List.mem_map_of_mem hp)
  rw [Config.chunks, ← hsame] at hl'
  exact ⟨_, rfl, hl'.valid⟩

/-- The copy of `realloc` fills part of the payload of a chunk. -/
theorem memcpy_spec (src len : ℕ) (hl : Layout s holes (live.map (chunk s)) lost) (hq : q ∈ live)
    (hlen : len + 4 ≤ (chunk s q).size) :
    Layout (s.memcpy q src len) holes (live.map (chunk (s.memcpy q src len))) lost ∧
      (∀ p ∈ live, chunk (s.memcpy q src len) p = chunk s p) ∧
      Memory.Confined (bytesOf [chunk s q]) s.memory (s.memcpy q src len).memory := by
  obtain ⟨hstart, -⟩ := hl.pointer_bounds hq
  simp only [heapStartAddr] at hstart
  simp only [chunk] at hlen
  have hkeep : ∀ x, ((∃ e ∈ holes, x ∈ e) ∨
      ∃ d ∈ live.map (chunk s), d.start ≤ x ∧ x < d.start + 4) →
      (s.memory.copy q src len).byte x = s.memory.byte x := by
    intro x hx
    apply Memory.byte_copy_of_not_mem
    by_contra hn
    have hin : x ∈ chunk s q := by
      simp only [chunk, Extent.mem_mk]
      omega
    rcases hx with ⟨e, he, hxe⟩ | ⟨d, hd, hlow, hhigh⟩
    · exact not_mem_of_disjoint (hl.hole_disjoint_live he (List.mem_map_of_mem hq)) hxe hin
    · obtain ⟨r, hr, rfl⟩ := List.mem_map.mp hd
      by_cases hne : r = q
      · subst hne
        simp only [chunk] at hhigh
        omega
      · have hbig := (hl.pointer_bounds hr).2
        exact not_mem_of_disjoint (hl.pointers_disjoint hr hq hne) ⟨hlow, by omega⟩ hin
  have hl' := hl.rewrite (s.memory.copy q src len) hkeep
  have hsame : ∀ p ∈ live, chunk (s.memcpy q src len) p = chunk s p := fun p hp =>
    hl'.chunk_eq (List.mem_map_of_mem hp)
  refine ⟨?_, hsame, Memory.confined_copy fun x h₁ h₂ => ⟨chunk s q, List.mem_cons_self, ?_⟩⟩
  · rw [List.map_congr_left hsame]
    exact hl'
  · simp only [chunk, Extent.mem_mk]
    omega

theorem load_zero_of_confined (hes : ∀ e ∈ es, heapStartAddr ≤ e.start) {m m' : Memory}
    (hconf : Memory.Confined (bytesOf es) m m') : m'.load 0 = m.load 0 := by
  refine hconf.load_eq fun a _ ha => ?_
  rintro ⟨e, he, hae⟩
  have hge := hes e he
  rw [Extent.mem_def] at hae
  simp only [heapStartAddr] at hge
  omega

theorem Layout.load_zero_of_stored (hl : Layout s holes (live.map (chunk s)) lost) (hq : q ∈ live)
    {m : Memory} (hconf : Memory.Confined (bytesOf [chunk s q]) s.memory m) :
    m.load 0 = s.memory.load 0 := by
  refine load_zero_of_confined (fun e he => ?_) hconf
  obtain rfl := List.mem_singleton.mp he
  exact (hl.pointer_bounds hq).1

theorem Layout.load_zero_of_malloc {es : List Extent} (hl : Layout s holes (live.map (chunk s)) lost)
    (hl' : Layout s' es ((q :: live).map (chunk s')) lost)
    (hconf : Memory.Confined (bytesOf (holes ++ chunk s' q :: es)) s.memory s'.memory) :
    s'.memory.load 0 = s.memory.load 0 := by
  refine load_zero_of_confined (fun e he => ?_) hconf
  rcases List.mem_append.mp he with he | he
  · exact (hl.sound.bounds e he).1
  · rcases List.mem_cons.mp he with rfl | he
    · exact (hl'.pointer_bounds List.mem_cons_self).1
    · exact (hl'.sound.bounds e he).1

/-- How many bytes `realloc` copies. -/
def bytesToCopy (s : State) (p n : ℕ) : ℕ :=
  if sub32 (s.size (sub32 p 4)) 4 < n then sub32 (s.size (sub32 p 4)) 4 else n

theorem bytesToCopy_le : bytesToCopy s p n ≤ n := by
  unfold bytesToCopy
  split_ifs <;> omega

theorem Layout.bytesToCopy_eq (hl : Layout s holes (live.map (chunk s)) lost) (hp : p ∈ live) :
    bytesToCopy s p n = min ((chunk s p).size - 4) n := by
  obtain ⟨hstart, hbig⟩ := hl.pointer_bounds hp
  have hend := (hl.live_bounds (List.mem_map_of_mem hp)).2
  have hlt := size_lt (s := s) (h := p - 4)
  simp only [chunk] at hbig hend ⊢
  simp only [heapStartAddr, windowStart] at hstart hend
  have hheader : sub32 p 4 = p - 4 := sub32_of_le (by omega) (by omega)
  have hold : sub32 (s.size (p - 4)) 4 = s.size (p - 4) - 4 := sub32_of_le hlt (by omega)
  rw [bytesToCopy, hheader, hold]
  split_ifs <;> omega

/-- The steps of a call of `realloc` that moves a chunk: `s₁` is the state after its
call of `malloc`, and `holes₁` are the holes listed then. -/
structure Moved (s : State) (holes holes₁ : List Extent) (live : List ℕ) (p n q : ℕ)
    (s₁ t : State) : Prop where
  called : s.realloc p n = some (q, t)
  nonnull : q ≠ 0
  fresh : q ∉ live
  room : n + 4 ≤ (chunk s₁ q).size
  grow : ∀ a, cover s.pages a ≤ cover s₁.pages a
  pages : t.pages = s₁.pages
  sameBefore : ∀ r ∈ live, chunk s₁ r = chunk s r
  sameAfter : ∀ r ∈ q :: live.erase p, chunk t r = chunk s₁ r
  malloced : Memory.Confined (bytesOf (holes ++ chunk s₁ q :: holes₁)) s.memory s₁.memory
  copied : Memory.Confined (bytesOf [chunk s₁ q]) s₁.memory
    (s₁.memory.copy q p (bytesToCopy s p n))
  freed : Memory.Confined (bytesOf (chunk s p :: holes₁))
    (s₁.memory.copy q p (bytesToCopy s p n)) t.memory
  released : ∀ a ∈ chunk s p, 0 < cover t.holes a

theorem realloc_spec (hl : Layout s holes (live.map (chunk s)) lost) (hp : p ∈ live) (hn : n ≠ 0)
    (hm : Mallocable s holes n) (hanchored : Anchored s (holesAfter s holes n) p) :
    ∃ q s₁ t holes' lost', Moved s holes (holesAfter s holes n) live p n q s₁ t ∧
      Layout s₁ (holesAfter s holes n) ((q :: live).map (chunk s₁)) lost ∧
      Layout t holes' ((q :: live.erase p).map (chunk t)) lost' ∧
      (¬ Between (holesAfter s holes n) (chunk s p) → lost' = lost) := by
  obtain ⟨hstart, hbig⟩ := hl.pointer_bounds hp
  simp only [heapStartAddr] at hstart
  have hp0 : p ≠ 0 := by omega
  obtain ⟨q, s₁, hmalloc, hl₁, hq, hroom, hsame₁, hgrow, hconf₁⟩ := malloc_spec hl hn hm
  generalize holesAfter s holes n = holes₁ at *
  have hfresh : q ∉ live := (List.nodup_cons.mp hl₁.pointers_nodup).1
  have hpq : q ≠ p := fun h => hfresh (h ▸ hp)
  -- The copy into the new chunk.
  have hlen : bytesToCopy s p n ≤ n := bytesToCopy_le
  obtain ⟨hl₂, hsame₂, hconf₂⟩ := memcpy_spec p (bytesToCopy s p n) hl₁ List.mem_cons_self
    (show bytesToCopy s p n + 4 ≤ (chunk s₁ q).size by omega)
  have hzero : (s₁.memcpy q p (bytesToCopy s p n)).memory.load 0 = s.memory.load 0 := by
    rw [hl₁.load_zero_of_stored List.mem_cons_self hconf₂, hl.load_zero_of_malloc hl₁ hconf₁]
  -- The release of the old chunk.
  have hsame₁₂ : ∀ r ∈ live, chunk (s₁.memcpy q p (bytesToCopy s p n)) r = chunk s r :=
    fun r hr => (hsame₂ r (List.mem_cons_of_mem q hr)).trans (hsame₁ r hr)
  have hanchored₂ : Anchored (s₁.memcpy q p (bytesToCopy s p n)) holes₁ p := by
    intro hbelow
    rw [hzero]
    exact hanchored hbelow
  obtain ⟨s₃, holes₃, lost', hfree, hl₃, hmapped, hsame₃, hconf₃, hlost, hreleased⟩ :=
    free_spec hl₂ (List.mem_cons_of_mem q hp) hanchored₂
  rw [List.erase_cons_tail (by simpa using hpq)] at hl₃ hsame₃
  rw [hsame₁₂ p hp] at hconf₃ hlost hreleased
  rw [← hl₃.holds.holes_eq] at hreleased
  refine ⟨q, s₁, s₃, holes₃, lost', ⟨?_, hq, hfresh, hroom, hgrow, ?_, hsame₁, ?_, hconf₁, hconf₂,
    hconf₃, hreleased⟩, hl₁, hl₃, hlost⟩
  · have hcopied : (if sub32 (s.size (sub32 p 4)) 4 < n then sub32 (s.size (sub32 p 4)) 4 else n) =
        bytesToCopy s p n := rfl
    simp only [realloc, if_neg hp0, if_neg hn, hmalloc, Option.bind_eq_bind, Option.bind_some,
      if_neg hq, hcopied, hfree]
  · rw [State.pages, State.pages, hmapped, memcpy]
  · intro r hr
    refine (hsame₃ r hr).trans (hsame₂ r ?_)
    rcases List.mem_cons.mp hr with rfl | hr
    · exact List.mem_cons_self
    · exact List.mem_cons_of_mem q (List.mem_of_mem_erase hr)

theorem step_realloc (hv : Valid u lost) (hp : p ∈ u.live) (hn : n ≠ 0)
    (hm : Mallocable u.heap u.heap.holes n)
    (hanchored : Anchored u.heap (holesAfter u.heap u.heap.holes n) p) :
    ∃ t lost', u.step (.realloc p n) = some t ∧ Valid t lost' ∧ Untouched u (.realloc p n) t ∧
      (¬ Between (holesAfter u.heap u.heap.holes n) (chunk u.heap p) → lost' = lost) := by
  obtain ⟨q, s₁, s₃, holes₃, lost', hmoved, hl₁, hl₃, hlost⟩ := realloc_spec hv hp hn hm hanchored
  have hrelease : u.release (.realloc p n) =
      some (p, holesAfter u.heap u.heap.holes n) := by simp [Config.release, hn]
  generalize holesAfter u.heap u.heap.holes n = holes₁ at *
  have hgone : p ∉ q :: u.live.erase p := by
    rw [List.mem_cons, not_or]
    exact ⟨fun h => hmoved.fresh (h ▸ hp), (Layout.pointers_nodup hv).not_mem_erase⟩
  have hchunk : chunk s₃ q = chunk s₁ q := hmoved.sameAfter q List.mem_cons_self
  refine ⟨⟨s₃, q :: u.live.erase p⟩, lost', ?_, hl₃.valid, ?_, hlost⟩
  · simp only [Config.step, hmoved.called, Option.bind_eq_bind, Option.bind_some,
      if_neg hmoved.nonnull]
  · apply untouched_of_valid hv hl₃.valid
    · intro a
      rw [hmoved.pages]
      exact hmoved.grow a
    · intro r hr e he
      rw [hrelease] at hr
      obtain rfl := Option.some.inj hr
      refine ⟨fun r hr => ?_, fun a ha => ?_⟩
      · rw [← hmoved.sameBefore r hr]
        exact hl₁.hole_disjoint_live he (List.mem_map_of_mem (List.mem_cons_of_mem q hr))
      · rw [hmoved.pages]
        have hcov := hl₁.covered a
        have hpos : 0 < cover holes₁ a := cover_pos_of_mem he ha
        omega
    · intro r hr hr'
      exact (hmoved.sameAfter r hr').trans (hmoved.sameBefore r hr)
    · have hnew : ∀ a ∈ chunk s₁ q, a ∈ storable u (.realloc p n) ⟨s₃, q :: u.live.erase p⟩ := by
        intro a ha
        rw [← hchunk] at ha
        exact storable_handed_out List.mem_cons_self hmoved.fresh ha
      have hmid : ∀ e ∈ holes₁, ∀ a ∈ e,
          a ∈ storable u (.realloc p n) ⟨s₃, q :: u.live.erase p⟩ :=
        fun e he a ha => storable_release hrelease he ha
      refine ((hmoved.malloced.mono ?_).trans (hmoved.copied.mono ?_)).trans (hmoved.freed.mono ?_)
      · rintro a ⟨e, he, ha⟩
        rcases List.mem_append.mp he with he | he
        · exact storable_before he ha
        · rcases List.mem_cons.mp he with rfl | he
          · exact hnew a ha
          · exact hmid e he a ha
      · rintro a ⟨e, he, ha⟩
        obtain rfl := List.mem_singleton.mp he
        exact hnew a ha
      · rintro a ⟨e, he, ha⟩
        rcases List.mem_cons.mp he with rfl | he
        · exact storable_taken_back hp hgone ha
        · exact hmid e he a ha

theorem Untouched.congr {t : Config} {k k' : Call} (h : Untouched u k t)
    (hrelease : u.release k' = u.release k) : Untouched u k' t := by
  have hstorable : storable u k' t = storable u k t := by
    simp only [storable, listed, hrelease]
  obtain ⟨hstores, hbig, hothers, houtside⟩ := h
  refine ⟨?_, hbig, ?_, ?_⟩
  · rw [hstorable]
    exact hstores
  · rw [hstorable]
    exact hothers
  · rw [hstorable]
    exact houtside

theorem step_realloc_zero : u.step (.realloc p 0) = u.step (.free p) ∨ p = 0 := by
  by_cases hp : p = 0
  · exact Or.inr hp
  · left
    simp only [Config.step, realloc, if_neg hp, if_true, Option.bind_eq_bind]
    cases u.heap.free p <;> rfl

/-- Calls of the heap, as opposed to stores of its clients. -/
def Call.OfHeap : Call → Prop
  | .store _ _ => False
  | _ => True

/-- One call under the promises of the caller, when no hole is cut too thin
and no release compares itself with the word at address zero. -/
theorem step_spec {k : Call} (hv : Valid u lost) (hlegal : Legal u k) (hcut : CutsWell u k)
    (hanchored : ReleasesAnchored u k) :
    ∃ t lost', u.step k = some t ∧ Valid t lost' ∧ (k.OfHeap → Untouched u k t) ∧
      (ReleasesApart u k → lost' = lost) := by
  cases k with
  | malloc n =>
      obtain ⟨t, hstep, hvalid, hunt⟩ := step_malloc hv hlegal hcut
      exact ⟨t, lost, hstep, hvalid, fun _ => hunt, fun _ => rfl⟩
  | free p =>
      obtain ⟨t, lost', hstep, hvalid, hunt, hlost⟩ := step_free hv hlegal (hanchored _ rfl)
      exact ⟨t, lost', hstep, hvalid, fun _ => hunt, fun hapart => hlost (hapart _ rfl)⟩
  | realloc p n =>
      obtain ⟨hp, hreq⟩ := hlegal
      by_cases hn : n = 0
      · subst hn
        have hrelease : u.release (.realloc p 0) = u.release (.free p) := rfl
        obtain ⟨t, lost', hstep, hvalid, hunt, hlost⟩ := step_free hv hp (hanchored _ hrelease)
        have hp0 : p ≠ 0 := by
          have hge := (Layout.pointer_bounds hv hp).1
          simp only [heapStartAddr] at hge
          omega
        refine ⟨t, lost', ?_, hvalid, fun _ => hunt.congr hrelease,
          fun hapart => hlost (hapart _ hrelease)⟩
        rw [step_realloc_zero.resolve_right hp0]
        exact hstep
      · have hrelease : u.release (.realloc p n) =
            some (p, holesAfter u.heap u.heap.holes n) := by simp [Config.release, hn]
        have hm := mallocable_of hn hreq fun e he => hcut n (by simp [Call.request, hn]) e he
        obtain ⟨t, lost', hstep, hvalid, hunt, hlost⟩ :=
          step_realloc hv hp hn hm (hanchored _ hrelease)
        exact ⟨t, lost', hstep, hvalid, fun _ => hunt, fun hapart => hlost (hapart _ hrelease)⟩
  | store a b =>
      obtain ⟨t, hstep, hvalid⟩ := step_store hv hlegal
      exact ⟨t, lost, hstep, hvalid, False.elim, fun _ => rfl⟩

end Steps

/-! ## Whole runs -/

theorem layout_initial (hmapped : s.mapped = [(heapStartAddr, p)])
    (hlast : s.lastPage = heapStartAddr) (hhead : s.holesListHead = heapStartAddr)
    (htail : s.holesListTail = heapStartAddr) (hsize : s.size heapStartAddr = 4096)
    (hprev : s.prev heapStartAddr = 0) (hnext : s.next heapStartAddr = 0) :
    Layout s [⟨heapStartAddr, 4096⟩] [] [] := by
  have hpages : s.pages = [⟨heapStartAddr, 4096⟩] := by rw [pages, hmapped]; rfl
  refine ⟨⟨⟨⟨hprev, hnext, trivial⟩, hhead, htail, List.pairwise_singleton _ _, ?_⟩, ?_⟩,
    ⟨?_, List.pairwise_singleton _ _, ?_⟩, by simp, by simp, ?_, ?_, ?_, ?_⟩
  · intro x hx
    obtain rfl := List.mem_singleton.mp hx
    decide
  · intro e he
    obtain rfl := List.mem_singleton.mp he
    exact hsize
  · intro e he
    obtain rfl := List.mem_singleton.mp he
    decide
  · intro e he
    obtain rfl := List.mem_singleton.mp he
    decide
  · intro a
    rw [hpages, cover_nil, Nat.add_zero]
  · intro a
    rw [hpages, cover_cons, cover_nil]
    split_ifs <;> decide
  · rw [hmapped, hlast]
    intro v hv
    obtain rfl := List.mem_singleton.mp hv
    have htop : heapStartAddr + 4096 ≤ windowStart := by decide
    exact ⟨le_rfl, le_rfl, htop⟩
  · rw [hlast]
    decide

/-- The heap starts as one hole of one page, whose table is the first that is made. -/
structure Started (c : Config) (f g : ℕ) (frames : List ℕ) : Prop where
  layout : Layout c.heap [⟨heapStartAddr, 4096⟩] [] []
  live : c.live = []
  lastPage : c.heap.lastPage = heapStartAddr
  frames : c.heap.frames = frames
  tables : c.heap.tables = [(771, g)]
  mapped : c.heap.mapped = [(heapStartAddr, f)]

theorem initializeHeap_cons {f : ℕ} (memory : Memory) (frames : List ℕ) (hf : f ≠ 0) :
    ∃ s : State, initializeHeap memory (f :: frames) = some (((s.setSize heapStartAddr 4096).setPrev
        heapStartAddr 0).setNext heapStartAddr 0) ∧
      s.holesListHead = heapStartAddr ∧ s.holesListTail = heapStartAddr ∧
      s.lastPage = heapStartAddr ∧ s.frames = frames.tail ∧ s.tables = [(771, frames.headD 0)] ∧
      s.mapped = [(heapStartAddr, f)] := by
  obtain ⟨s, hs⟩ : ∃ s : State, s = ⟨memory, heapStartAddr, heapStartAddr, 0, frames, [], []⟩ :=
    ⟨_, rfl⟩
  have htable : ¬ s.HasTable (VirtualMgr.getPageDirectoryIndex heapStartAddr) := by
    rintro (hinitial | hmade)
    · revert hinitial
      decide
    · rw [hs] at hmade
      exact List.not_mem_nil hmade
  refine ⟨{ s.map heapStartAddr f with lastPage := heapStartAddr }, ?_, ?_, ?_, rfl, ?_, ?_, ?_⟩
  · have hhead : (s.map heapStartAddr f).holesListHead = heapStartAddr := by rw [head_map, hs]
    have hheap : initializeHeap memory (f :: frames) =
        some ((({ s.map heapStartAddr f with lastPage := (s.map heapStartAddr f).holesListHead } :
          State).setSize (s.map heapStartAddr f).holesListHead 4096).setPrev
            (s.map heapStartAddr f).holesListHead 0 |>.setNext
              (s.map heapStartAddr f).holesListHead 0) := by
      rw [hs]
      exact if_neg hf
    rw [hheap, hhead]
  · rw [head_map, hs]
  · rw [tail_map, hs]
  · rw [frames_map, if_neg htable, hs]
  · rw [tables_map, if_neg htable, hs]
    rfl
  · rw [mapped_map, hs]

theorem started_initializeHeap {f : ℕ} (memory : Memory) (frames : List ℕ) (hf : f ≠ 0) :
    ∃ s, initializeHeap memory (f :: frames) = some s ∧ (Framed s ↔ frames.headD 0 ≠ 0) ∧
      Started ⟨s, []⟩ f (frames.headD 0) frames.tail := by
  obtain ⟨t, hcons, hhead, htail, hlast, hframes, htables, hmapped⟩ :=
    initializeHeap_cons memory frames hf
  have hclear : Clear heapStartAddr heapStartAddr := Or.inl rfl
  have hzero : (0 : ℕ) < 2 ^ 32 := by decide
  have hpage : (4096 : ℕ) < 2 ^ 32 := by decide
  refine ⟨_, hcons, ?_, ⟨?_, rfl, hlast, hframes, htables, hmapped⟩⟩
  · show (∀ v ∈ t.tables, v.2 ≠ 0) ↔ _
    rw [htables, List.forall_mem_singleton]
  · apply layout_initial
    · exact hmapped
    · exact hlast
    · exact hhead
    · exact htail
    · rw [size_setNext hclear, size_setPrev hclear, size_setSize_self hpage]
    · rw [prev_setNext hclear, prev_setPrev_self hzero]
    · exact next_setNext_self hzero

theorem exists_initial {f g : ℕ} (memory : Memory) (frames : List ℕ) (hf : f ≠ 0) (hg : g ≠ 0) :
    ∃ c, Config.initial memory (f :: g :: frames) = some c ∧ Started c f g frames := by
  obtain ⟨s, hs, hiff, hstarted⟩ := started_initializeHeap memory (g :: frames) hf
  have hframed : Framed s := hiff.mpr hg
  refine ⟨⟨s, []⟩, ?_, hstarted⟩
  simp only [Config.initial, hs, Option.bind_eq_bind, Option.bind_some, if_pos hframed]

theorem exists_started {memory : Memory} {frames : List ℕ} {c : Config}
    (hinit : Config.initial memory frames = some c) :
    ∃ f g fs, frames = f :: g :: fs ∧ f ≠ 0 ∧ g ≠ 0 ∧ Started c f g fs := by
  obtain ⟨s, hheap, hstart⟩ := Option.bind_eq_some_iff.mp hinit
  obtain ⟨hframed, hc⟩ := Option.ite_none_right_eq_some.mp hstart
  obtain rfl := Option.some.inj hc
  cases frames with
  | nil => cases hheap
  | cons f frames =>
      by_cases hf : f = 0
      · rw [initializeHeap, allocateBlock] at hheap
        simp [hf] at hheap
      · obtain ⟨t, ht, hiff, hstarted⟩ := started_initializeHeap memory frames hf
        obtain rfl := Option.some.inj (ht.symm.trans hheap)
        cases frames with
        | nil => exact absurd rfl (hiff.mp hframed)
        | cons g frames => exact ⟨f, g, frames, rfl, hf, hiff.mp hframed, hstarted⟩

theorem Started.holes_eq {c : Config} {f g : ℕ} {frames : List ℕ} (h : Started c f g frames) :
    c.heap.holes = [⟨heapStartAddr, 4096⟩] := h.layout.holds.holes_eq

theorem Started.valid {c : Config} {f g : ℕ} {frames : List ℕ} (h : Started c f g frames) :
    Valid c [] := by
  have hchunks : c.chunks = [] := by rw [Config.chunks, h.live, List.map_nil]
  rw [Valid, h.holes_eq, hchunks]
  exact h.layout

theorem valid_initial {memory : Memory} {frames : List ℕ} {c : Config}
    (hinit : Config.initial memory frames = some c) : Valid c [] := by
  obtain ⟨f, g, fs, -, -, -, hstarted⟩ := exists_started hinit
  exact hstarted.valid

/-- Every byte of the mapped pages belongs to exactly one hole or chunk, and
no byte outside them to any. -/
structure Conserved (c : Config) : Prop where
  partition : ∀ a, cover c.heap.holes a + cover c.chunks a =
    if ∃ page ∈ c.heap.pages, a ∈ page then 1 else 0
  total : totalSize c.heap.holes + totalSize c.chunks = 4096 * c.heap.mapped.length

theorem Valid.conserved {c : Config} (hv : Valid c []) : Conserved c := by
  have hcov : ∀ a, cover (c.heap.holes ++ c.chunks) a = cover c.heap.pages a := by
    intro a
    have hcov := hv.covered a
    rw [cover_append]
    simpa using hcov
  constructor
  · intro a
    rw [← cover_append, hcov]
    split_ifs with hpage
    · have hpos := cover_pos_iff.mpr hpage
      have honce := hv.once a
      omega
    · exact Nat.eq_zero_of_not_pos fun hpos => hpage (cover_pos_iff.mp hpos)
  · rw [← totalSize_append, totalSize_eq_of_cover_eq hcov, pages, totalSize, List.map_map]
    have hconst : (Extent.size ∘ fun page : ℕ × ℕ => (⟨page.1, 4096⟩ : Extent)) =
        fun _ => 4096 := rfl
    rw [hconst, List.map_const', List.sum_replicate, smul_eq_mul, Nat.mul_comm]

/-- The heap is conserved along every run in which no hole is cut too thin, no
release compares itself with the word at address zero and no chunk is released
directly between two holes. -/
theorem conserved_of_run {memory : Memory} {frames : List ℕ} {c : Config} {calls : List Call}
    (hinit : Config.initial memory frames = some c)
    (hrun : RunAll Config.step (fun u k => Legal u k ∧ CutsWell u k ∧ ReleasesAnchored u k ∧
      ReleasesApart u k) c calls) :
    ∃ t, run Config.step c calls = some t ∧ Conserved t := by
  have hstep : ∀ u k, Valid u [] → (Legal u k ∧ CutsWell u k ∧ ReleasesAnchored u k ∧
      ReleasesApart u k) → ∃ t, u.step k = some t ∧ Valid t [] := by
    rintro u k hv ⟨hlegal, hcut, hanchored, hapart⟩
    obtain ⟨t, lost, hstep, hvalid, -, hlost⟩ := step_spec hv hlegal hcut hanchored
    rw [hlost hapart] at hvalid
    exact ⟨t, hstep, hvalid⟩
  obtain ⟨t, ht, hvalid⟩ := run_invariant hstep (valid_initial hinit) hrun
  exact ⟨t, ht, hvalid.conserved⟩

/-- A memory of zeros. -/
def zeroMemory : Memory := ⟨fun _ => 0, []⟩

/-- Three chunks side by side, released first, last, middle. -/
def releaseBetween : List Call :=
  [.malloc 8, .malloc 8, .malloc 8, .free 0xC0C00004, .free 0xC0C0001C, .free 0xC0C00010]

theorem conserved_of_run_mixed :
    ∃ c, Config.initial zeroMemory [4096, 8192, 12288, 16384] = some c ∧
      ∃ t, run Config.step c [.malloc 100, .malloc 8000, .store 0xC0C00010 7,
        .realloc 0xC0C00004 300, .malloc 1, .free 0xC0C00004] = some t ∧ Conserved t := by
  obtain ⟨c, hc⟩ : ∃ c, Config.initial zeroMemory [4096, 8192, 12288, 16384] = some c := ⟨_, rfl⟩
  have hrun : ∀ c ∈ Config.initial zeroMemory [4096, 8192, 12288, 16384],
      RunAll Config.step (fun u k => Legal u k ∧ CutsWell u k ∧ ReleasesAnchored u k ∧
        ReleasesApart u k) c [.malloc 100, .malloc 8000, .store 0xC0C00010 7,
        .realloc 0xC0C00004 300, .malloc 1, .free 0xC0C00004] := by decide +kernel
  exact ⟨c, hc, conserved_of_run hc (hrun c hc)⟩

/-- The middle release loses the last hole. -/
theorem not_conserved_of_run : ¬ ∀ (memory : Memory) (frames : List ℕ) (c : Config)
    (calls : List Call), Config.initial memory frames = some c →
      RunAll Config.step Legal c calls →
        ∃ t, run Config.step c calls = some t ∧ Conserved t := by
  intro h
  have hlegal : ∀ c ∈ Config.initial zeroMemory [4096, 8192],
      RunAll Config.step Legal c releaseBetween := by decide +kernel
  have hloss : ∀ c ∈ Config.initial zeroMemory [4096, 8192],
      ∀ t ∈ run Config.step c releaseBetween,
        totalSize t.heap.holes + totalSize t.chunks ≠ 4096 * t.heap.mapped.length := by
    decide +kernel
  obtain ⟨c, hc⟩ : ∃ c, Config.initial zeroMemory [4096, 8192] = some c := ⟨_, rfl⟩
  obtain ⟨t, ht, hconserved⟩ := h zeroMemory [4096, 8192] c releaseBetween hc (hlegal c hc)
  exact hloss c hc t ht hconserved.total

/-- A call of the heap stores to the listed holes and to the chunks it hands
out or takes back only, at the end of every run in which no hole is cut too
thin and no release compares itself with the word at address zero. -/
theorem untouched_of_run {memory : Memory} {frames : List ℕ} {c : Config} {calls : List Call}
    {k : Call} (hinit : Config.initial memory frames = some c)
    (hrun : RunAll Config.step (fun u k => Legal u k ∧ CutsWell u k ∧ ReleasesAnchored u k) c
      (calls ++ [k])) :
    ∃ u t, run Config.step c calls = some u ∧ u.step k = some t ∧
      (k.OfHeap → Untouched u k t) := by
  have hstep : ∀ u k, (∃ lost, Valid u lost) →
      (Legal u k ∧ CutsWell u k ∧ ReleasesAnchored u k) →
      ∃ t, u.step k = some t ∧ (∃ lost, Valid t lost) ∧ (k.OfHeap → Untouched u k t) := by
    rintro u k ⟨lost, hv⟩ ⟨hlegal, hcut, hanchored⟩
    obtain ⟨t, lost', hstep, hvalid, huntouched, -⟩ := step_spec hv hlegal hcut hanchored
    exact ⟨t, hstep, ⟨lost', hvalid⟩, huntouched⟩
  obtain ⟨u, t, hu, ht, -, huntouched⟩ := run_step hstep ⟨[], valid_initial hinit⟩ hrun
  exact ⟨u, t, hu, ht, huntouched⟩

theorem untouched_of_run_mixed : ∃ c, Config.initial zeroMemory [4096, 8192] = some c ∧
    ∃ u t, run Config.step c [.malloc 100, .malloc 16, .free 0xC0C00004] = some u ∧
      u.step (.realloc 0xC0C0006C 40) = some t ∧
      ((Call.realloc 0xC0C0006C 40).OfHeap → Untouched u (.realloc 0xC0C0006C 40) t) := by
  obtain ⟨c, hc⟩ : ∃ c, Config.initial zeroMemory [4096, 8192] = some c := ⟨_, rfl⟩
  have hrun : ∀ c ∈ Config.initial zeroMemory [4096, 8192],
      RunAll Config.step (fun u k => Legal u k ∧ CutsWell u k ∧ ReleasesAnchored u k) c
        ([.malloc 100, .malloc 16, .free 0xC0C00004] ++ [.realloc 0xC0C0006C 40]) := by
    decide +kernel
  exact ⟨c, hc, untouched_of_run hc (hrun c hc)⟩

/-- A hole of twenty bytes below a chunk in use. -/
def smallHole : List Call := [.malloc 16, .malloc 16, .free 0xC0C00004]

/-- Cutting twelve bytes off that hole leaves eight, and the header of the
remainder overwrites the size of the chunk above. -/
theorem not_untouched_of_run : ¬ ∀ (memory : Memory) (frames : List ℕ) (c : Config)
    (calls : List Call) (k : Call), Config.initial memory frames = some c →
      RunAll Config.step Legal c (calls ++ [k]) →
        ∃ u t, run Config.step c calls = some u ∧ u.step k = some t ∧
          (k.OfHeap → Untouched u k t) := by
  intro h
  have hlegal : ∀ c ∈ Config.initial zeroMemory [4096, 8192],
      RunAll Config.step Legal c (smallHole ++ [.malloc 1]) := by decide +kernel
  have hbroken : ∀ c ∈ Config.initial zeroMemory [4096, 8192],
      ∀ u ∈ run Config.step c smallHole, ∀ t ∈ u.step (.malloc 1),
        0xC0C00018 ∈ u.live ∧ 0xC0C00018 ∈ t.live ∧
          chunk t.heap 0xC0C00018 ≠ chunk u.heap 0xC0C00018 := by
    decide +kernel
  obtain ⟨c, hc⟩ : ∃ c, Config.initial zeroMemory [4096, 8192] = some c := ⟨_, rfl⟩
  obtain ⟨u, t, hu, ht, huntouched⟩ :=
    h zeroMemory [4096, 8192] c smallHole (.malloc 1) hc (hlegal c hc)
  obtain ⟨hlive, hlive', hne⟩ := hbroken c hc u hu t ht
  exact hne ((huntouched trivial).others _ hlive hlive').1

end AviKernel.Heap
