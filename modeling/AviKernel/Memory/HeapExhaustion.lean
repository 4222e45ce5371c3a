import AviKernel.Memory.HeapRuns

/-!
# Running out of frames

When the frames end after the first page of an extension, the pages mapped so
far become a hole, and the request is refused with the heap intact.  Without
any page `extend_heap` links in the header at address zero.
-/

namespace AviKernel.Heap

open State Holds

variable {s s' : State} {holes lost l₁ l₂ : List Extent} {live : List Extent} {e : Extent}
  {n p r : ℕ}

/-! ## Requests that are refused -/

theorem mallocWithin_refused {calls : ℕ} (hl : Layout s holes live lost) (hn : n ≠ 0)
    (hwrap : n + 16 < 2 ^ 32) (hfit : fit (n + 4) holes = none)
    (hextend : s.extendHeap (n + 4) = some (false, s')) :
    mallocWithin (calls + 1) s n = some (0, s') := by
  rw [mallocWithin_unfit hl hn hwrap hfit, hextend]
  rfl

/-- No listed hole is big enough, and the frames for pages run out after the first page. -/
structure RunsOut (s : State) (holes : List Extent) (n : ℕ) : Prop where
  wrap : n + 16 < 2 ^ 32
  none : fit (n + 4) holes = none
  short : Short s (n + 4)

instance (s : State) (holes : List Extent) (n : ℕ) : Decidable (RunsOut s holes n) :=
  decidable_of_iff (n + 16 < 2 ^ 32 ∧ fit (n + 4) holes = none ∧ Short s (n + 4))
    ⟨fun h => ⟨h.1, h.2.1, h.2.2⟩, fun h => ⟨h.wrap, h.none, h.short⟩⟩

theorem malloc_refused (hl : Layout s holes live lost) (hn : n ≠ 0) (hr : RunsOut s holes n) :
    ∃ s', s.malloc n = some (0, s') ∧
      Layout s' (holes ++ [newHole s (pagesDone s (n + 4))]) live lost ∧
      (∀ a, cover s'.pages a = cover s.pages a + cover [newHole s (pagesDone s (n + 4))] a) ∧
      (∃ fs, fs.length = pagesDone s (n + 4) ∧
        s'.mapped = mapFrames (s.lastPage + 4096) fs s.mapped) ∧
      Memory.Confined (bytesOf (holes ++ [newHole s (pagesDone s (n + 4))]))
        s.memory s'.memory := by
  obtain ⟨hwrap, hnone, hshort⟩ := hr
  obtain ⟨s', hextend, hrest⟩ := hl.extendHeap_short hshort
  exact ⟨s', mallocWithin_refused hl hn hwrap hnone hextend, hrest⟩

/-! ## Requests that fit -/

/-- Linking in a header between two listed ones has a result, whatever it overwrites. -/
theorem HolesList.insert_some {xs ys : List ℕ} {h : ℕ} (hl : HolesList s (xs ++ ys))
    (hlow : ∀ x ∈ xs, x ≤ h) (hhigh : ∀ y ∈ ys, h < y) :
    ∃ s', s.insertToHolesList h = some s' := by
  have hfind := hl.findNode hlow hhigh
  rw [insertToHolesList]
  split_ifs with htail
  · exact ⟨_, rfl⟩
  · rw [hfind]
    simp only [Option.bind_eq_bind, Option.bind_some]
    split_ifs
    · exact ⟨_, rfl⟩
    · exact ⟨_, rfl⟩
    · exact ⟨_, rfl⟩

theorem take_some (hs : Holds s (l₁ ++ e :: l₂)) (hsound : Sound (l₁ ++ e :: l₂))
    (hr : 4 ≤ r) (hfit : r ≤ e.size) : ∃ s', take s e.start r = some (e.start + 4, s') := by
  have hbig := hsound.big e (by simp)
  have hbounds := hsound.bounds e (by simp)
  simp only [heapStartAddr, windowStart] at hbounds
  have hsize := hs.sizes e (by simp)
  have hsub : sub32 e.size r = e.size - r := sub32_of_le (by omega) hfit
  have haddr : add32 e.start 4 = e.start + 4 := add32_of_lt (by omega)
  obtain ⟨hlow, hhigh⟩ := hsound.neighbours
  by_cases h : 12 < e.size - r
  · obtain ⟨o, ho⟩ : ∃ o, (if 12 < r then r else 12) = o := ⟨_, rfl⟩
    have ho' : 12 ≤ o ∧ o + 4 ≤ e.size := by
      rw [← ho]
      split_ifs <;> omega
    have hnew : add32 e.start o = e.start + o := add32_of_lt (by omega)
    have hne : o ≠ 0 := by omega
    have hout : ∀ f ∈ l₁ ++ e :: l₂, e.start + o + 4 ≤ f.start ∨ f.start + 12 ≤ e.start + o := by
      intro f hf
      simp only [List.mem_append, List.mem_cons] at hf
      rcases hf with hf | rfl | hf
      · have := hlow f hf
        omega
      · omega
      · have := hhigh f hf
        omega
    have hstored : Holds (s.setSize (e.start + o) (sub32 e.size o)) ((l₁ ++ [e]) ++ l₂) := by
      simpa using hs.setSize hout
    have hlist := hstored.list
    rw [List.map_append] at hlist
    obtain ⟨s₂, hinsert⟩ := hlist.insert_some (h := e.start + o)
      (fun x hx => by
        obtain ⟨f, hf, rfl⟩ := List.mem_map.mp hx
        rcases List.mem_append.mp hf with hf | hf
        · have := hlow f hf
          omega
        · obtain rfl := List.mem_singleton.mp hf
          omega)
      (fun x hx => by
        obtain ⟨f, hf, rfl⟩ := List.mem_map.mp hx
        have := hhigh f hf
        omega)
    refine ⟨(s₂.removeFromHolesList e.start).setSize e.start o, ?_⟩
    simp only [take, split, hsize, hsub, if_pos h, ho, hnew, hinsert, Option.bind_eq_bind,
      Option.bind_some, if_neg hne, haddr]
  · refine ⟨(s.removeFromHolesList e.start).setSize e.start e.size, ?_⟩
    simp only [take, split, hsize, hsub, if_neg h, Option.bind_eq_bind, Option.bind_some, if_true,
      haddr]

/-- A request that some listed hole is big enough for is served. -/
theorem Layout.malloc_serves (hl : Layout s holes live lost) (hn : n ≠ 0)
    (hfit : ∃ e ∈ holes, n + 4 ≤ e.size) : ∃ q s', s.malloc n = some (q, s') ∧ q ≠ 0 := by
  obtain ⟨f, hf, hbig⟩ := hfit
  obtain ⟨e, hfind⟩ := exists_fit hf hbig
  obtain ⟨hle', l₁, l₂, rfl⟩ := fit_split hfind
  have hbounds := hl.sound.bounds e (by simp)
  simp only [heapStartAddr, windowStart] at hbounds
  obtain ⟨s', htake⟩ := take_some hl.holds hl.sound (by omega) hle'
  refine ⟨e.start + 4, s', ?_, by omega⟩
  rw [State.malloc, mallocWithin_fit hl hn (by omega) hfind, htake]

/-! ## Runs -/

/-- The call asks for memory, returns `NULL` and is no release. -/
def Refused (u : Config) : Call → Prop
  | .malloc n => ∃ s, u.heap.malloc n = some (0, s)
  | .realloc p n => n ≠ 0 ∧ ∃ s, u.heap.realloc p n = some (0, s)
  | _ => False

/-- The pages that a refused call has mapped. -/
def pagesGained (u : Config) (k : Call) : ℕ :=
  match k.request with
  | some n => pagesDone u.heap (n + 4)
  | none => 0

/-- Nothing is lost: the chunks and the holes are still there, the list is well
formed, and the `k` new pages are in listed holes. -/
structure Intact (k : ℕ) (u t : Config) : Prop where
  live : t.live = u.live
  chunks : ∀ p ∈ u.live, chunk t.heap p = chunk u.heap p ∧
    ∀ a ∈ chunk u.heap p, t.heap.memory.byte a = u.heap.memory.byte a
  holes : ∀ e ∈ u.heap.holes, e ∈ t.heap.holes
  list : HolesList t.heap (t.heap.holes.map Extent.start)
  gained : ∃ new, t.heap.mapped = new ++ u.heap.mapped ∧ new.length = k ∧
    ∀ v ∈ new, ∀ a ∈ (⟨v.1, 4096⟩ : Extent), 0 < cover t.heap.holes a
  stores : Memory.Confined {a | 0 < cover t.heap.pages a} u.heap.memory t.heap.memory
  serves : ∀ n ≠ 0, (∃ e ∈ t.heap.holes, n + 4 ≤ e.size) →
    ∃ q s, t.heap.malloc n = some (q, s) ∧ q ≠ 0

theorem exists_mapFrames (page : ℕ) (fs : List ℕ) (m : List (ℕ × ℕ)) :
    ∃ new, mapFrames page fs m = new ++ m ∧ new.length = fs.length ∧
      ∀ v ∈ new, page ≤ v.1 ∧ v.1 + 4096 ≤ page + 4096 * fs.length := by
  induction fs generalizing page m with
  | nil => exact ⟨[], rfl, rfl, by simp⟩
  | cons f fs ih =>
      obtain ⟨new, hnew, hlength, hpages⟩ := ih (page + 4096) ((page, f) :: m)
      refine ⟨new ++ [(page, f)], ?_, ?_, ?_⟩
      · rw [mapFrames, hnew, List.append_assoc]
        rfl
      · rw [List.length_append, hlength]
        rfl
      · intro v hv
        rw [List.length_cons]
        rcases List.mem_append.mp hv with hv | hv
        · have := hpages v hv
          omega
        · obtain rfl := List.mem_singleton.mp hv
          show page ≤ page ∧ page + 4096 ≤ page + 4096 * (fs.length + 1)
          omega

theorem intact_self {u : Config} (hv : Valid u lost) : Intact 0 u u where
  live := rfl
  chunks _ _ := ⟨rfl, fun _ _ => rfl⟩
  holes _ he := he
  list := hv.holds.list
  gained := ⟨[], rfl, rfl, by simp⟩
  stores := Memory.Confined.refl _ _
  serves _ hn hfit := hv.malloc_serves hn hfit

theorem valid_refused {u : Config} (hv : Valid u lost) (hn : n ≠ 0)
    (hr : RunsOut u.heap u.heap.holes n) :
    ∃ s', u.heap.malloc n = some (0, s') ∧ Valid ⟨s', u.live⟩ lost ∧
      Intact (pagesDone u.heap (n + 4)) u ⟨s', u.live⟩ := by
  obtain ⟨s', hmalloc, hl', hpages, ⟨fs, hfs, hmapped⟩, hconf⟩ := malloc_refused hv hn hr
  have hsame : ∀ p ∈ u.live, chunk s' p = chunk u.heap p := fun p hp =>
    hl'.chunk_eq (List.mem_map_of_mem hp)
  have hholes : s'.holes = u.heap.holes ++ [newHole u.heap (pagesDone u.heap (n + 4))] :=
    hl'.holds.holes_eq
  have hlist := hl'.holds.list
  have hserves := fun (m : ℕ) (hm : m ≠ 0) => hl'.malloc_serves hm
  have hin : ∀ e ∈ u.heap.holes ++ [newHole u.heap (pagesDone u.heap (n + 4))], ∀ a ∈ e,
      0 < cover s'.pages a := by
    intro e he a ha
    have hpos := cover_pos_of_mem he ha
    have hcov := hl'.covered a
    omega
  obtain ⟨new, hnew, hlength, hlow⟩ :=
    exists_mapFrames (u.heap.lastPage + 4096) fs u.heap.mapped
  rw [hfs] at hlength hlow
  rw [← hholes] at hlist hserves
  refine ⟨s', hmalloc, ?_, rfl, ?_, ?_, hlist, ?_, ?_, hserves⟩
  · have hl'' := hl'
    rw [Config.chunks, ← List.map_congr_left hsame] at hl''
    exact hl''.valid
  · refine fun p hp => ⟨hsame p hp, fun a ha => hconf.byte_eq ?_⟩
    rintro ⟨e, he, hae⟩
    have hmem : chunk u.heap p ∈ u.chunks := List.mem_map_of_mem hp
    exact not_mem_of_disjoint (hl'.hole_disjoint_live he hmem) hae ha
  · intro e he
    show e ∈ s'.holes
    rw [hholes]
    exact List.mem_append_left _ he
  · refine ⟨new, hmapped.trans hnew, hlength, fun v hv a ha => ?_⟩
    show 0 < cover s'.holes a
    rw [hholes]
    have hv := hlow v hv
    rw [Extent.mem_mk] at ha
    refine cover_pos_of_mem (e := newHole u.heap (pagesDone u.heap (n + 4))) (by simp) ?_
    rw [newHole, Extent.mem_mk]
    omega
  · apply hconf.mono
    rintro a ⟨e, he, ha⟩
    exact hin e he a ha

/-- The frames run out during the call. -/
def Exhausts (u : Config) : Call → Prop
  | .malloc n => n ≠ 0 ∧ RunsOut u.heap u.heap.holes n
  | .realloc p n => p ∈ u.live ∧ n ≠ 0 ∧ RunsOut u.heap u.heap.holes n
  | _ => False

instance (u : Config) : ∀ k, Decidable (Exhausts u k)
  | .malloc n => inferInstanceAs (Decidable (n ≠ 0 ∧ RunsOut u.heap u.heap.holes n))
  | .realloc p n =>
      inferInstanceAs (Decidable (p ∈ u.live ∧ n ≠ 0 ∧ RunsOut u.heap u.heap.holes n))
  | .free _ => inferInstanceAs (Decidable False)
  | .store _ _ => inferInstanceAs (Decidable False)

/-- Either the call has what it needs, or the frames run out after a page. -/
def Copes (u : Config) (k : Call) : Prop :=
  (Legal u k ∧ CutsWell u k ∧ ReleasesAnchored u k) ∨ Exhausts u k

instance (u : Config) (k : Call) : Decidable (Copes u k) := inferInstanceAs (Decidable (_ ∨ _))

section Steps

variable {u : Config} {k : Call}

theorem malloc_ne_zero (hv : Valid u lost) (hn : n ≠ 0) (hreq : Requestable u.heap n)
    (hcut : ∀ e ∈ fit (n + 4) u.heap.holes, Unsliced (n + 4) e) (s : State) :
    u.heap.malloc n ≠ some (0, s) := by
  intro hnull
  obtain ⟨q, s', hmalloc, -, hq, -⟩ := malloc_spec hv hn (mallocable_of hn hreq hcut)
  rw [hmalloc] at hnull
  cases hnull
  exact hq rfl

theorem malloc_of_realloc (hp : p ≠ 0) (hn : n ≠ 0) (h : s.realloc p n = some (0, s')) :
    s.malloc n = some (0, s') := by
  simp only [realloc, if_neg hp, if_neg hn, Option.bind_eq_bind] at h
  obtain ⟨⟨q, s₁⟩, hmalloc, hrest⟩ := Option.bind_eq_some_iff.mp h
  by_cases hq : q = 0
  · subst hq
    rw [if_pos rfl] at hrest
    cases hrest
    exact hmalloc
  · rw [if_neg hq] at hrest
    obtain ⟨s₂, -, heq⟩ := Option.bind_eq_some_iff.mp hrest
    cases heq
    exact absurd rfl hq

theorem pointer_ne_zero (hv : Valid u lost) (hp : p ∈ u.live) : p ≠ 0 := by
  have hge := (Layout.pointer_bounds hv hp).1
  simp only [heapStartAddr] at hge
  omega

/-- A call that has what it needs is refused only if it asks for nothing. -/
theorem intact_of_legal {t : Config} (hv : Valid u lost) (hlegal : Legal u k)
    (hcut : CutsWell u k) (hstep : u.step k = some t) (hr : Refused u k) :
    Intact (pagesGained u k) u t := by
  cases k with
  | malloc n =>
      by_cases hn : n = 0
      · subst hn
        have hsame : u.step (.malloc 0) = some u := rfl
        obtain rfl : u = t := Option.some.inj (hsame.symm.trans hstep)
        exact intact_self hv
      · obtain ⟨s, hnull⟩ := hr
        have hcut' := fun e he => hcut n (by simp [Call.request, hn]) e he
        exact absurd hnull (malloc_ne_zero hv hn hlegal hcut' s)
  | realloc p n =>
      obtain ⟨hn, s, hnull⟩ := hr
      have hcut' := fun e he => hcut n (by simp [Call.request, hn]) e he
      have hmalloc := malloc_of_realloc (pointer_ne_zero hv hlegal.1) hn hnull
      exact absurd hmalloc (malloc_ne_zero hv hn hlegal.2 hcut' s)
  | free p => exact hr.elim
  | store a b => exact hr.elim

theorem step_exhausts (hv : Valid u lost) (hk : Exhausts u k) :
    ∃ t, u.step k = some t ∧ Valid t lost ∧ Intact (pagesGained u k) u t := by
  cases k with
  | malloc n =>
      obtain ⟨hn, hr⟩ := hk
      obtain ⟨s', hmalloc, hvalid, hintact⟩ := valid_refused hv hn hr
      refine ⟨⟨s', u.live⟩, ?_, hvalid, ?_⟩
      · simp only [Config.step, hmalloc, Option.bind_eq_bind, Option.bind_some, if_true]
      · simpa only [pagesGained, Call.request, if_neg hn] using hintact
  | realloc p n =>
      obtain ⟨hp, hn, hr⟩ := hk
      obtain ⟨s', hmalloc, hvalid, hintact⟩ := valid_refused hv hn hr
      refine ⟨⟨s', u.live⟩, ?_, hvalid, ?_⟩
      · simp only [Config.step, realloc, if_neg (pointer_ne_zero hv hp), if_neg hn, hmalloc,
          Option.bind_eq_bind, Option.bind_some, if_true]
      · simpa only [pagesGained, Call.request, if_neg hn] using hintact
  | free p => exact hk.elim
  | store a b => exact hk.elim

theorem step_copes (hv : Valid u lost) (hk : Copes u k) :
    ∃ t lost', u.step k = some t ∧ Valid t lost' ∧
      (Refused u k → Intact (pagesGained u k) u t) := by
  rcases hk with ⟨hlegal, hcut, hanchored⟩ | hk
  · obtain ⟨t, lost', hstep, hvalid, -⟩ := step_spec hv hlegal hcut hanchored
    exact ⟨t, lost', hstep, hvalid, intact_of_legal hv hlegal hcut hstep⟩
  · obtain ⟨t, hstep, hvalid, hintact⟩ := step_exhausts hv hk
    exact ⟨t, lost, hstep, hvalid, fun _ => hintact⟩

end Steps

theorem run_copes {memory : Memory} {frames : List ℕ} {c : Config} {calls : List Call}
    (hinit : Config.initial memory frames = some c) (hrun : RunAll Config.step Copes c calls) :
    ∃ u, run Config.step c calls = some u ∧ ∃ lost, Valid u lost := by
  have hstep : ∀ u k, (∃ lost, Valid u lost) → Copes u k →
      ∃ t, u.step k = some t ∧ ∃ lost, Valid t lost := by
    rintro u k ⟨lost, hv⟩ hk
    obtain ⟨t, lost', hstep, hvalid, -⟩ := step_copes hv hk
    exact ⟨t, hstep, lost', hvalid⟩
  exact run_invariant (I := fun u => ∃ lost, Valid u lost) hstep ⟨[], valid_initial hinit⟩ hrun

/-- A call that is refused for want of memory leaves the heap intact, at the end
of every run in which an extension that fails has mapped a page. -/
theorem intact_of_run {memory : Memory} {frames : List ℕ} {c : Config} {calls : List Call}
    {k : Call} (hinit : Config.initial memory frames = some c)
    (hrun : RunAll Config.step Copes c (calls ++ [k])) :
    ∃ u t, run Config.step c calls = some u ∧ u.step k = some t ∧
      (Refused u k → Intact (pagesGained u k) u t) := by
  obtain ⟨hpre, hlast⟩ := runAll_append.mp hrun
  obtain ⟨u, hu, lost, hv⟩ := run_copes hinit hpre
  obtain ⟨t, -, ht, -, hintact⟩ := step_copes hv (hlast u hu).1
  exact ⟨u, t, hu, ht, hintact⟩

theorem intact_of_run_twice : ∃ c,
    Config.initial zeroMemory [4096, 8192, 12288, 0, 16384] = some c ∧
    ∃ u t, run Config.step c [.malloc 100, .malloc 9000] = some u ∧
      u.step (.realloc 0xC0C00004 5000) = some t ∧
      (Refused u (.realloc 0xC0C00004 5000) →
        Intact (pagesGained u (.realloc 0xC0C00004 5000)) u t) := by
  obtain ⟨c, hc⟩ : ∃ c, Config.initial zeroMemory [4096, 8192, 12288, 0, 16384] = some c := ⟨_, rfl⟩
  have hrun : ∀ c ∈ Config.initial zeroMemory [4096, 8192, 12288, 0, 16384],
      RunAll Config.step Copes c ([.malloc 100, .malloc 9000] ++ [.realloc 0xC0C00004 5000]) := by
    decide +kernel
  exact ⟨c, hc, intact_of_run hc (hrun c hc)⟩

/-- What callers promise, whatever memory there is. -/
def Promised (u : Config) : Call → Prop
  | .malloc _ => True
  | .free p => p ∈ u.live
  | .realloc p _ => p ∈ u.live
  | .store a b => Legal u (.store a b)

/-- Without any frame the header is linked in at address zero, and no hole is
listed any more. -/
theorem not_intact_of_run : ¬ ∀ (memory : Memory) (frames : List ℕ) (c : Config)
    (calls : List Call) (k : Call), Config.initial memory frames = some c →
      RunAll Config.step Promised c (calls ++ [k]) →
        ∃ u t, run Config.step c calls = some u ∧ u.step k = some t ∧
          (Refused u k → Intact (pagesGained u k) u t) := by
  intro h
  have hnull : ∀ c ∈ Config.initial zeroMemory [4096, 8192],
      (c.heap.malloc 5000).map Prod.fst = some 0 := by decide +kernel
  have hbroken : ∀ c ∈ Config.initial zeroMemory [4096, 8192],
      c.heap.holes ≠ [] ∧ ∀ t ∈ c.step (.malloc 5000), t.heap.holes = [] := by decide +kernel
  obtain ⟨c, hc⟩ : ∃ c, Config.initial zeroMemory [4096, 8192] = some c := ⟨_, rfl⟩
  obtain ⟨u, t, hu, ht, hintact⟩ := h zeroMemory [4096, 8192] c [] (.malloc 5000) hc
    ⟨trivial, fun _ _ => trivial⟩
  cases hu
  obtain ⟨⟨q, s⟩, hmalloc, hq⟩ := Option.map_eq_some_iff.mp (hnull c hc)
  obtain rfl : q = 0 := hq
  obtain ⟨hne, hnone⟩ := hbroken c hc
  obtain ⟨e, he⟩ := List.exists_mem_of_ne_nil _ hne
  have hmem := (hintact ⟨s, hmalloc⟩).holes e he
  rw [hnone t ht] at hmem
  exact List.not_mem_nil hmem

end AviKernel.Heap
