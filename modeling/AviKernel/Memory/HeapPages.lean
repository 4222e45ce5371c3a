import Mathlib.Data.List.TakeWhile
import AviKernel.Memory.HeapRequests

/-!
# The pages of the heap

`extend_heap` moves `last_page` once before its loop and once after each page, so
that it ends one page behind the last one it has mapped.  The next extension
starts yet one page further, and only the frames bound where it ends.
-/

namespace AviKernel.Heap

open State Holds

variable {s t : State} {holes lost live : List Extent} {h n p q r w hole : ℕ} {k : Call}

namespace State

/-- Where the heap ends, the frames still to come, the page tables and the mapped pages. -/
def reach (s : State) : ℕ × List ℕ × List (ℕ × ℕ) × List (ℕ × ℕ) :=
  (s.lastPage, s.frames, s.tables, s.mapped)

theorem lastPage_of_reach (h : t.reach = s.reach) : t.lastPage = s.lastPage :=
  congrArg Prod.fst h

theorem tables_of_reach (h : t.reach = s.reach) : t.tables = s.tables :=
  congrArg (fun r => r.2.2.1) h

theorem mapped_of_reach (h : t.reach = s.reach) : t.mapped = s.mapped :=
  congrArg (fun r => r.2.2.2) h

/-! ## Calls that do not extend the heap -/

@[simp] theorem reach_setSize : (s.setSize h w).reach = s.reach := rfl

theorem reach_removeFromHolesList : (s.removeFromHolesList hole).reach = s.reach := by
  unfold removeFromHolesList
  split_ifs
  · rfl
  · rfl
  · rfl
  · rfl

theorem reach_insertToHolesList (hinsert : s.insertToHolesList hole = some t) :
    t.reach = s.reach := by
  rw [insertToHolesList] at hinsert
  by_cases htail : s.holesListTail = 0
  · rw [if_pos htail] at hinsert
    obtain rfl := Option.some.inj hinsert
    rfl
  · rw [if_neg htail] at hinsert
    obtain ⟨node, -, hnode⟩ := Option.bind_eq_some_iff.mp hinsert
    split_ifs at hnode
    · obtain rfl := Option.some.inj hnode
      rfl
    · obtain rfl := Option.some.inj hnode
      rfl
    · obtain rfl := Option.some.inj hnode
      rfl

theorem reach_split (hsplit : s.split hole w = some (n, t)) : t.reach = s.reach := by
  rw [split] at hsplit
  generalize (if 12 < w then w else 12) = offset at hsplit
  by_cases hroom : 12 < sub32 (s.size hole) w
  · rw [if_pos hroom] at hsplit
    obtain ⟨u, hinsert, hu⟩ := Option.bind_eq_some_iff.mp hsplit
    cases hu
    rw [reach_removeFromHolesList, reach_insertToHolesList hinsert, reach_setSize]
  · rw [if_neg hroom] at hsplit
    cases hsplit
    rfl

theorem reach_take (htake : take s hole r = some (q, t)) : t.reach = s.reach := by
  obtain ⟨⟨n, u⟩, hsplit, hu⟩ := Option.bind_eq_some_iff.mp htake
  have hreach := reach_split hsplit
  by_cases hn : n = 0
  · simp only [if_pos hn, Option.some.injEq, Prod.mk.injEq] at hu
    obtain ⟨-, rfl⟩ := hu
    rw [reach_setSize, reach_removeFromHolesList, hreach]
  · simp only [if_neg hn, Option.some.injEq, Prod.mk.injEq] at hu
    obtain ⟨-, rfl⟩ := hu
    rw [reach_setSize, hreach]

theorem reach_merge : (s.merge h).reach = s.reach := by
  have hprevious : ∀ u : State, (u.mergePrevious h).reach = u.reach := fun u =>
    reach_removeFromHolesList
  have hnext : ∀ u : State, (u.mergeNext h).reach = u.reach := fun u =>
    reach_removeFromHolesList
  rw [merge]
  split_ifs
  · rw [hnext, hprevious]
  · rw [hprevious]
  · rw [hnext]
  · rfl

theorem reach_free (hfree : s.free p = some t) : t.reach = s.reach := by
  obtain ⟨u, hinsert, hu⟩ := Option.bind_eq_some_iff.mp hfree
  obtain rfl := Option.some.inj hu
  rw [reach_merge, reach_insertToHolesList hinsert, reach_setSize]

/-- The search of `malloc` does not end at `NULL`. -/
def Finds (s : State) (n : ℕ) : Prop :=
  s.findHole (add32 n 4) stepLimit s.holesListHead ≠ some 0

instance (s : State) (n : ℕ) : Decidable (s.Finds n) := inferInstanceAs (Decidable (¬ _ = _))

theorem mallocWithin_finds {calls : ℕ} (hn : n ≠ 0) (hfinds : s.Finds n)
    (hmalloc : mallocWithin calls s n = some (q, t)) :
    ∃ hole, take s hole (add32 n 4) = some (q, t) := by
  cases calls with
  | zero => cases hmalloc
  | succ calls =>
      rw [mallocWithin, if_neg hn] at hmalloc
      obtain ⟨hole, hfind, hrest⟩ := Option.bind_eq_some_iff.mp hmalloc
      have hne : hole ≠ 0 := by
        rintro rfl
        exact hfinds hfind
      rw [if_neg hne] at hrest
      exact ⟨hole, hrest⟩

/-- Whatever `realloc` does after its `malloc` leaves the pages alone. -/
theorem reach_realloc (hp : p ≠ 0) (hn : n ≠ 0) (hrealloc : s.realloc p n = some (q, t)) :
    ∃ r u, s.malloc n = some (r, u) ∧ t.reach = u.reach := by
  simp only [realloc, if_neg hp, if_neg hn, Option.bind_eq_bind] at hrealloc
  obtain ⟨⟨r, u⟩, hmalloc, hrest⟩ := Option.bind_eq_some_iff.mp hrealloc
  refine ⟨r, u, hmalloc, ?_⟩
  by_cases hr : r = 0
  · rw [if_pos hr] at hrest
    cases hrest
    rfl
  · rw [if_neg hr] at hrest
    obtain ⟨v, hfree, hv⟩ := Option.bind_eq_some_iff.mp hrest
    cases hv
    have hreach := reach_free hfree
    have hcopy : ∀ d a l : ℕ, (u.memcpy d a l).reach = u.reach := fun _ _ _ => rfl
    rw [hreach, hcopy]

theorem malloc_zero : s.malloc 0 = some (0, s) := rfl

theorem realloc_null : s.realloc 0 n = s.malloc n := by
  simp only [realloc, if_true]

end State

/-- A call that asks for nothing leaves the pages alone, and one that asks for
something does to them what `malloc` does. -/
theorem reach_step {u t : Config} (hstep : u.step k = some t) :
    (k.request = none ∧ t.heap.reach = u.heap.reach) ∨ ∃ n ∈ k.request, n ≠ 0 ∧ ∃ q s,
      u.heap.malloc n = some (q, s) ∧ t.heap.reach = s.reach := by
  cases k with
  | malloc n =>
      obtain ⟨⟨q, s⟩, hmalloc, ht⟩ := Option.bind_eq_some_iff.mp hstep
      cases ht
      by_cases hn : n = 0
      · subst hn
        rw [malloc_zero] at hmalloc
        cases hmalloc
        exact Or.inl ⟨rfl, rfl⟩
      · exact Or.inr ⟨n, by simp [Call.request, hn], hn, q, s, hmalloc, rfl⟩
  | free p =>
      obtain ⟨s, hfree, ht⟩ := Option.bind_eq_some_iff.mp hstep
      cases ht
      exact Or.inl ⟨rfl, reach_free hfree⟩
  | realloc p n =>
      obtain ⟨⟨q, s⟩, hrealloc, ht⟩ := Option.bind_eq_some_iff.mp hstep
      cases ht
      by_cases hp : p = 0
      · subst hp
        rw [realloc_null] at hrealloc
        by_cases hn : n = 0
        · subst hn
          rw [malloc_zero] at hrealloc
          cases hrealloc
          exact Or.inl ⟨rfl, rfl⟩
        · exact Or.inr ⟨n, by simp [Call.request, hn], hn, q, s, hrealloc, rfl⟩
      · by_cases hn : n = 0
        · simp only [realloc, if_neg hp, if_pos hn, Option.bind_eq_bind] at hrealloc
          obtain ⟨v, hfree, hv⟩ := Option.bind_eq_some_iff.mp hrealloc
          cases hv
          exact Or.inl ⟨by simp [Call.request, hn], reach_free hfree⟩
        · obtain ⟨r, v, hmalloc, hreach⟩ := reach_realloc hp hn hrealloc
          exact Or.inr ⟨n, by simp [Call.request, hn], hn, r, v, hmalloc, hreach⟩
  | store a b =>
      cases hstep
      exact Or.inl ⟨rfl, rfl⟩

/-! ## Extensions -/

/-- What an extension leaves mapped, and its result. -/
theorem extendHeap_reach {status : Bool} (hextend : s.extendHeap r = some (status, t)) :
    t.reach = (extended s r).reach ∧ status = decide (pagesDone s r = desiredPages r) := by
  obtain ⟨header, -, heq⟩ := extendHeap_eq s r
  rw [heq] at hextend
  obtain ⟨u, hinsert, hu⟩ := Option.map_eq_some_iff.mp hextend
  cases hu
  exact ⟨by rw [reach_insertToHolesList hinsert, reach_setSize], rfl⟩

/-- The two ways in which a request is promised to end. -/
theorem Copes.request {u : Config} (hk : Copes u k) (hreq : n ∈ k.request) :
    n ≠ 0 ∧ n + 16 < 2 ^ 32 ∧ (fit (n + 4) u.heap.holes = none →
      Supplied u.heap (n + 4) ∨ Short u.heap (n + 4)) := by
  have hlegal : Requestable u.heap n → n ≠ 0 → n ≠ 0 ∧ n + 16 < 2 ^ 32 ∧
      (fit (n + 4) u.heap.holes = none → Supplied u.heap (n + 4) ∨ Short u.heap (n + 4)) :=
    fun hrequest hn => ⟨hn, (hrequest hn).1, fun hfit => Or.inl ((hrequest hn).2 hfit)⟩
  have hexhausts : n ≠ 0 → RunsOut u.heap u.heap.holes n → n ≠ 0 ∧ n + 16 < 2 ^ 32 ∧
      (fit (n + 4) u.heap.holes = none → Supplied u.heap (n + 4) ∨ Short u.heap (n + 4)) :=
    fun hn hr => ⟨hn, hr.wrap, fun _ => Or.inr hr.short⟩
  cases k with
  | malloc m =>
      by_cases hm : m = 0
      · simp [Call.request, hm] at hreq
      · obtain rfl : m = n := by simpa [Call.request, hm] using hreq
        rcases hk with ⟨hrequest, -⟩ | ⟨-, hr⟩
        · exact hlegal hrequest hm
        · exact hexhausts hm hr
  | realloc p m =>
      by_cases hm : m = 0
      · simp [Call.request, hm] at hreq
      · obtain rfl : m = n := by simpa [Call.request, hm] using hreq
        rcases hk with ⟨⟨-, hrequest⟩, -⟩ | ⟨-, -, hr⟩
        · exact hlegal hrequest hm
        · exact hexhausts hm hr
  | free p => simp [Call.request] at hreq
  | store a b => simp [Call.request] at hreq

/-- Either way some pages are mapped, with frames for their tables. -/
theorem mappable_of_got (h : Supplied s r ∨ Short s r) :
    1 ≤ pagesDone s r ∧ Mappable s (pagesDone s r) := by
  rcases h with hsup | hshort
  · have hall := hsup.pagesDone_eq
    exact ⟨hall ▸ Nat.succ_pos _, hall ▸ hsup⟩
  · exact ⟨hshort.some, hshort.mappable⟩

theorem Layout.finds_iff (hl : Layout s holes live lost) (hwrap : n + 16 < 2 ^ 32) :
    s.Finds n ↔ fit (n + 4) holes ≠ none := by
  have hsum : add32 n 4 = n + 4 := add32_of_lt (by omega)
  rw [Finds, hsum, hl.holds.findHole_eq, ne_eq, Option.some.injEq, not_iff_not]
  cases hfit : fit (n + 4) holes with
  | none => simp
  | some e =>
      have hpos := hl.holds.pos (List.mem_of_find?_eq_some hfit)
      have hne : e.start ≠ 0 := by omega
      simpa using hne

/-- The hole that an extension adds is big enough for the request. -/
theorem Layout.finds_extended (hl : Layout s holes live lost) (hwrap : n + 16 < 2 ^ 32)
    (hgot : Supplied s (n + 4) ∨ Short s (n + 4))
    (hextend : s.extendHeap (n + 4) = some (true, t)) : t.Finds n := by
  rcases hgot with hsup | hshort
  · obtain ⟨u, hu, hl', -, -⟩ := hl.extendHeap_supplied hsup
    rw [hu] at hextend
    cases hextend
    rw [hl'.finds_iff hwrap]
    have hpages : desiredPages (n + 4) = (n + 16) / 4096 + 1 := by
      rw [desiredPages, add32_of_lt (by omega)]
    have hmem : newHole s (desiredPages (n + 4)) ∈
        holes ++ [newHole s (desiredPages (n + 4))] := by simp
    have hbig : n + 4 ≤ (newHole s (desiredPages (n + 4))).size := by
      show n + 4 ≤ 4096 * desiredPages (n + 4)
      omega
    obtain ⟨e, he⟩ := exists_fit hmem hbig
    rw [he]
    exact Option.some_ne_none e
  · obtain ⟨u, hu, -⟩ := hl.extendHeap_short hshort
    rw [hu] at hextend
    cases hextend

/-- Where the search fails, `malloc` extends the heap once. -/
theorem malloc_reach (hl : Layout s holes live lost) (hn : n ≠ 0) (hwrap : n + 16 < 2 ^ 32)
    (hfinds : ¬ s.Finds n) (hgot : Supplied s (n + 4) ∨ Short s (n + 4))
    (hmalloc : s.malloc n = some (q, t)) : t.reach = (extended s (n + 4)).reach := by
  have hsum : add32 n 4 = n + 4 := add32_of_lt (by omega)
  have hfind := not_not.mp hfinds
  rw [State.malloc, mallocWithin_none hn hfind, hsum] at hmalloc
  obtain ⟨⟨status, u⟩, hextend, hrest⟩ := Option.bind_eq_some_iff.mp hmalloc
  rw [← (extendHeap_reach hextend).1]
  cases status with
  | false =>
      cases hrest
      rfl
  | true =>
      have hrest' : mallocWithin s.frames.length u n = some (q, t) := hrest
      obtain ⟨hole, htake⟩ := mallocWithin_finds hn (hl.finds_extended hwrap hgot hextend) hrest'
      exact reach_take htake

/-! ## The range of the mapped pages -/

/-- The last page to be mapped is `last_page`, and each page from the start of
the heap up to it is mapped once. -/
structure Contiguous (s : State) : Prop where
  last : s.mapped.head?.map Prod.fst = some s.lastPage
  pages : ∀ a, cover s.pages a =
    if heapStartAddr ≤ a ∧ a < s.lastPage + 4096 then 1 else 0

theorem Contiguous.congr (hc : Contiguous s) (h : t.reach = s.reach) : Contiguous t := by
  obtain ⟨hlast, hpages⟩ := hc
  have hpage := lastPage_of_reach h
  have hmapped := mapped_of_reach h
  refine ⟨?_, fun a => ?_⟩
  · rw [hmapped, hpage, hlast]
  · rw [State.pages, hmapped, hpage]
    exact hpages a

theorem Started.contiguous {c : Config} {f g : ℕ} {frames : List ℕ} (h : Started c f g frames) :
    Contiguous c.heap := by
  refine ⟨?_, fun a => ?_⟩
  · rw [h.mapped, h.lastPage]
    rfl
  · rw [State.pages, h.mapped, h.lastPage]
    rw [List.map_singleton, cover_cons, cover_nil, Nat.zero_add]
    rfl

/-- After the call the heap is contiguous. -/
def LeavesContiguous (u : Config) (k : Call) : Prop :=
  ∀ t, u.step k = some t → Contiguous t.heap

/-- A listed hole is big enough for what the call asks for. -/
def Served (u : Config) (k : Call) : Prop := ∀ n ∈ k.request, u.heap.Finds n

instance (u : Config) (k : Call) : Decidable (Served u k) := by
  unfold Served
  infer_instance

/-- A call that does not extend the heap leaves the pages alone. -/
theorem reach_served {u t : Config} (hserved : Served u k) (hstep : u.step k = some t) :
    t.heap.reach = u.heap.reach := by
  rcases reach_step hstep with ⟨-, hreach⟩ | ⟨n, hreq, hn, q, s, hmalloc, hreach⟩
  · exact hreach
  · obtain ⟨hole, htake⟩ := mallocWithin_finds hn (hserved n hreq) hmalloc
    rw [hreach, reach_take htake]

/-- What a call does to the pages when it extends the heap. -/
theorem reach_extended {u t : Config} (hv : Valid u lost) (hk : Copes u k) (hreq : n ∈ k.request)
    (hfinds : ¬ u.heap.Finds n) (hstep : u.step k = some t) :
    (Supplied u.heap (n + 4) ∨ Short u.heap (n + 4)) ∧
      t.heap.reach = (extended u.heap (n + 4)).reach := by
  obtain ⟨hn, hwrap, hgot⟩ := hk.request hreq
  have hfit : fit (n + 4) u.heap.holes = none :=
    not_not.mp fun hne => hfinds ((hv.finds_iff hwrap).mpr hne)
  rcases reach_step hstep with ⟨hnone, -⟩ | ⟨m, hreq', -, q, s, hmalloc, hreach⟩
  · rw [hnone] at hreq
    cases hreq
  · obtain rfl : m = n := Option.some.inj (hreq'.symm.trans hreq)
    exact ⟨hgot hfit, hreach.trans (malloc_reach hv hn hwrap hfinds (hgot hfit) hmalloc)⟩

/-- A call leaves the pages alone, or extends the heap once. -/
theorem reach_cases {u t : Config} (hv : Valid u lost) (hk : Copes u k)
    (hstep : u.step k = some t) : t.heap.reach = u.heap.reach ∨ ∃ r,
      (Supplied u.heap r ∨ Short u.heap r) ∧ t.heap.reach = (extended u.heap r).reach := by
  by_cases hserved : Served u k
  · exact Or.inl (reach_served hserved hstep)
  · simp only [Served, not_forall] at hserved
    obtain ⟨n, hreq, hfinds⟩ := hserved
    exact Or.inr ⟨n + 4, reach_extended hv hk hreq hfinds hstep⟩

theorem framed_step {u t : Config} (hv : Valid u lost) (hk : Copes u k) (hframed : Framed u.heap)
    (hstep : u.step k = some t) : Framed t.heap := by
  rcases reach_cases hv hk hstep with hsame | ⟨r, hgot, hextended⟩
  · rw [Framed, tables_of_reach hsame]
    exact hframed
  · rw [Framed, tables_of_reach hextended]
    exact (framed_extended (mappable_of_got hgot).2).2

/-- Calls that cope never leave a page table at address zero. -/
theorem framed_of_run {memory : Memory} {frames : List ℕ} {c : Config} {calls : List Call}
    (hinit : Config.initial memory frames = some c) (hrun : RunAll Config.step Copes c calls) :
    ∃ u, run Config.step c calls = some u ∧ Framed u.heap := by
  obtain ⟨f, g, fs, -, -, hg, hstarted⟩ := exists_started hinit
  have hframed : Framed c.heap := by
    rw [Framed, hstarted.tables, List.forall_mem_singleton]
    exact hg
  have hstep : ∀ u k, ((∃ lost, Valid u lost) ∧ Framed u.heap) → Copes u k →
      ∃ t, u.step k = some t ∧ (∃ lost, Valid t lost) ∧ Framed t.heap := by
    rintro u k ⟨⟨lost, hv⟩, hframed⟩ hk
    obtain ⟨t, lost', hstep, hvalid, -⟩ := step_copes hv hk
    exact ⟨t, hstep, ⟨lost', hvalid⟩, framed_step hv hk hframed hstep⟩
  obtain ⟨u, hu, -, hframed⟩ := run_invariant hstep ⟨⟨[], hstarted.valid⟩, hframed⟩ hrun
  exact ⟨u, hu, hframed⟩

section Runs

variable {memory : Memory} {frames : List ℕ} {c : Config} {calls : List Call}

/-- The heap stays contiguous as long as no call extends it, and no longer: an
extension leaves `last_page` behind the last page it has mapped. -/
theorem contiguous_of_run (hinit : Config.initial memory frames = some c) :
    (RunAll Config.step Served c calls → RunAll Config.step LeavesContiguous c calls) ∧
      (RunAll Config.step Copes c calls → RunAll Config.step LeavesContiguous c calls →
        RunAll Config.step Served c calls) := by
  obtain ⟨f, g, fs, -, -, -, hstarted⟩ := exists_started hinit
  constructor
  · refine RunAll.of_invariant (I := fun u => Contiguous u.heap) ?_ hstarted.contiguous
    intro u k hcontiguous hserved
    have hkeep : ∀ t, u.step k = some t → Contiguous t.heap := fun t ht =>
      hcontiguous.congr (reach_served hserved ht)
    exact ⟨hkeep, hkeep⟩
  · intro hcopes hleaves
    refine RunAll.of_invariant (I := fun u => ∃ lost, Valid u lost) ?_ ⟨[], hstarted.valid⟩
      (hcopes.and hleaves)
    rintro u k ⟨lost, hv⟩ ⟨hk, hleave⟩
    obtain ⟨t, lost', hstep, hvalid, -⟩ := step_copes hv hk
    refine ⟨fun n hreq => ?_, fun t' ht' => ?_⟩
    · by_contra hfinds
      obtain ⟨hgot, hreach⟩ := reach_extended hv hk hreq hfinds hstep
      obtain ⟨-, -, -, hlast, fs, hlength, hmapped⟩ := grows_extended (mappable_of_got hgot).2.room
      rw [← lastPage_of_reach hreach] at hlast
      rw [← mapped_of_reach hreach] at hmapped
      have hin : 0 < cover t.heap.pages t.heap.lastPage := by
        have hbelow := hvalid.lastPage.1
        rw [(hleave t hstep).pages, if_pos ⟨hbelow, by omega⟩]
        exact Nat.one_pos
      obtain ⟨e, he, hmem⟩ := cover_pos_iff.mp hin
      obtain ⟨v, hmap, rfl⟩ := List.mem_map.mp he
      rw [Extent.mem_mk] at hmem
      rw [hmapped] at hmap
      rcases mem_mapFrames hmap with hold | ⟨-, htop⟩
      · have := (hv.mapped v hold).2.1
        omega
      · rw [hlength] at htop
        omega
    · rw [hstep] at ht'
      cases ht'
      exact ⟨lost', hvalid⟩

theorem contiguous_of_run_onePage : ∃ c, Config.initial zeroMemory [4096, 8192] = some c ∧
    RunAll Config.step LeavesContiguous c [.malloc 100, .malloc 200, .free 0xC0C00004] := by
  obtain ⟨c, hc⟩ : ∃ c, Config.initial zeroMemory [4096, 8192] = some c := ⟨_, rfl⟩
  have hserved : ∀ c ∈ Config.initial zeroMemory [4096, 8192],
      RunAll Config.step Served c [.malloc 100, .malloc 200, .free 0xC0C00004] := by
    decide +kernel
  exact ⟨c, hc, (contiguous_of_run hc).1 (hserved c hc)⟩

/-- The first extension already leaves `last_page` at a page that is not mapped. -/
theorem not_contiguous_of_run : ¬ ∀ (memory : Memory) (frames : List ℕ) (c : Config)
    (calls : List Call), Config.initial memory frames = some c →
      RunAll Config.step Legal c calls → RunAll Config.step LeavesContiguous c calls := by
  intro h
  have hlegal : ∀ c ∈ Config.initial zeroMemory [4096, 8192, 12288, 16384],
      RunAll Config.step Legal c [.malloc 5000] := by decide +kernel
  have hbroken : ∀ c ∈ Config.initial zeroMemory [4096, 8192, 12288, 16384],
      ∃ t, c.step (.malloc 5000) = some t ∧
        t.heap.mapped.head?.map Prod.fst = some 0xC0C02000 ∧ t.heap.lastPage = 0xC0C03000 := by
    intro c hc
    have hmapped : ∀ c ∈ Config.initial zeroMemory [4096, 8192, 12288, 16384],
        (c.step (.malloc 5000)).map (fun t => (t.heap.mapped.head?.map Prod.fst,
          t.heap.lastPage)) = some (some 0xC0C02000, 0xC0C03000) := by decide +kernel
    obtain ⟨t, ht, heq⟩ := Option.map_eq_some_iff.mp (hmapped c hc)
    exact ⟨t, ht, congrArg Prod.fst heq, congrArg Prod.snd heq⟩
  obtain ⟨c, hc⟩ : ∃ c, Config.initial zeroMemory [4096, 8192, 12288, 16384] = some c := ⟨_, rfl⟩
  obtain ⟨t, ht, hmapped, hlast⟩ := hbroken c hc
  obtain ⟨hleave, -⟩ := h zeroMemory [4096, 8192, 12288, 16384] c [.malloc 5000] hc (hlegal c hc)
  have heq := (hleave t ht).last
  rw [hmapped, hlast] at heq
  exact absurd heq (by decide)

end Runs

/-! ## The region of the heap -/

/-- Every mapped page lies between the start of the heap and the page tables. -/
structure InRegion (s : State) : Prop where
  mapped : ∀ v ∈ s.mapped, heapStartAddr ≤ v.1 ∧ v.1 + 4096 ≤ windowStart
  lastPage : s.lastPage < 2 ^ 32

/-- The pages of the request do not fit below the page tables. -/
def NeedsMore (s : State) (n : ℕ) : Prop :=
  ¬ s.Finds n ∧ windowStart < s.lastPage + 4096 + 4096 * ((n + 16) / 4096 + 1)

/-- After the call the pages are in the region, and a request that needs more is
refused by `malloc`. -/
structure StaysInRegion (u : Config) (k : Call) : Prop where
  mapped : ∀ t, u.step k = some t → ∀ v ∈ t.heap.mapped,
    heapStartAddr ≤ v.1 ∧ v.1 + 4096 ≤ windowStart
  refused : ∀ n ∈ k.request, NeedsMore u.heap n → ∀ q s, u.heap.malloc n = some (q, s) → q = 0

/-- The pages that the extension gets, if any, start in the region and end below the page
tables. -/
def PagesBelow (s : State) (r : ℕ) : Prop :=
  pagesDone s r ≠ 0 → heapStartAddr ≤ add32 s.lastPage 4096 ∧
    add32 s.lastPage 4096 + 4096 * pagesDone s r ≤ windowStart

/-- One extension after the other gets pages below the page tables. -/
def ExtendsBelow : ℕ → State → ℕ → Prop
  | 0, _, _ => True
  | calls + 1, s, n => ¬ s.Finds n → PagesBelow s (add32 n 4) ∧
      ∀ r ∈ s.extendHeap (add32 n 4), r.1 = true → ExtendsBelow calls r.2 n

/-- The sums of the request do not wrap, and the frames end before the region does. -/
def EndsBelow (u : Config) (k : Call) : Prop :=
  ∀ n ∈ k.request, n + 16 < 2 ^ 32 ∧ ExtendsBelow (u.heap.frames.length + 1) u.heap n

instance (s : State) (r : ℕ) : Decidable (PagesBelow s r) := by
  unfold PagesBelow
  infer_instance

instance extendsBelowDecidable : ∀ calls s n, Decidable (ExtendsBelow calls s n)
  | 0, _, _ => isTrue trivial
  | calls + 1, s, n =>
      have := fun s => extendsBelowDecidable calls s n
      inferInstanceAs (Decidable (¬ s.Finds n → PagesBelow s (add32 n 4) ∧
        ∀ r ∈ s.extendHeap (add32 n 4), r.1 = true → ExtendsBelow calls r.2 n))

instance (u : Config) (k : Call) : Decidable (EndsBelow u k) := by
  unfold EndsBelow
  infer_instance

theorem InRegion.congr (hs : InRegion s) (h : t.reach = s.reach) : InRegion t := by
  refine ⟨?_, ?_⟩
  · rw [mapped_of_reach h]
    exact hs.mapped
  · rw [lastPage_of_reach h]
    exact hs.lastPage

/-- An extension that ends below the page tables stays in the region. -/
theorem InRegion.extended (hs : InRegion s) (hbelow : PagesBelow s r) :
    InRegion (extended s r) := by
  rcases Nat.eq_zero_or_pos (pagesDone s r) with hnone | hsome
  · rw [extended_of_none hnone]
    exact ⟨hs.mapped, add32_lt⟩
  · obtain ⟨hlow, hroom⟩ := hbelow hsome.ne'
    have hlt := hs.lastPage
    have hwrap : add32 s.lastPage 4096 = s.lastPage + 4096 := by
      simp only [heapStartAddr, add32] at hlow ⊢
      omega
    rw [hwrap] at hlow hroom
    obtain ⟨-, -, -, hlast, fs, hlength, hmapped⟩ := grows_extended hroom
    refine ⟨?_, ?_⟩
    · rw [hmapped]
      intro v hv
      rcases mem_mapFrames hv with hv | ⟨hstart, hend⟩
      · exact hs.mapped v hv
      · rw [hlength] at hend
        exact ⟨hlow.trans hstart, hend.trans hroom⟩
    · rw [hlast]
      exact hroom.trans_lt (by decide)

theorem InRegion.mallocWithin {calls : ℕ} (hs : InRegion s) (hn : n ≠ 0)
    (hbelow : ExtendsBelow calls s n) (hmalloc : mallocWithin calls s n = some (q, t)) :
    InRegion t := by
  induction calls generalizing s with
  | zero => cases hmalloc
  | succ calls ih =>
      by_cases hfinds : s.Finds n
      · obtain ⟨hole, htake⟩ := mallocWithin_finds hn hfinds hmalloc
        exact hs.congr (reach_take htake)
      · obtain ⟨hend, hrest⟩ := hbelow hfinds
        rw [mallocWithin_none hn (not_not.mp hfinds)] at hmalloc
        obtain ⟨⟨status, u⟩, hextend, hu⟩ := Option.bind_eq_some_iff.mp hmalloc
        have hregion := (hs.extended hend).congr (extendHeap_reach hextend).1
        cases status with
        | false =>
            cases hu
            exact hregion
        | true => exact ih hregion (hrest (true, u) hextend rfl) hu

/-- A request that needs more than the region has gets fewer pages than it asks for. -/
theorem malloc_needsMore (hs : InRegion s) (hn : n ≠ 0) (hwrap : n + 16 < 2 ^ 32)
    (hbelow : ExtendsBelow (s.frames.length + 1) s n) (hmore : NeedsMore s n)
    (hmalloc : s.malloc n = some (q, t)) : q = 0 := by
  obtain ⟨hfinds, hpast⟩ := hmore
  obtain ⟨hend, -⟩ := hbelow hfinds
  have hpages : desiredPages (add32 n 4) = (n + 16) / 4096 + 1 := by
    rw [desiredPages, add32_of_lt (show n + 4 < 2 ^ 32 by omega), add32_of_lt (by omega)]
  have hfew : pagesDone s (add32 n 4) ≠ desiredPages (add32 n 4) := by
    intro hall
    have hlt := hs.lastPage
    obtain ⟨hlow, hroom⟩ := hend (hall.trans_ne (Nat.succ_ne_zero _))
    rw [hall, hpages] at hroom
    simp only [heapStartAddr, add32] at hlow
    simp only [add32] at hroom
    omega
  rw [State.malloc, mallocWithin_none hn (not_not.mp hfinds)] at hmalloc
  obtain ⟨⟨status, u⟩, hextend, hu⟩ := Option.bind_eq_some_iff.mp hmalloc
  have hstatus := (extendHeap_reach hextend).2
  rw [decide_eq_false hfew] at hstatus
  rw [hstatus] at hu
  cases hu
  rfl

theorem staysInRegion_of_endsBelow {u : Config} (hs : InRegion u.heap) (hbelow : EndsBelow u k) :
    StaysInRegion u k ∧ ∀ t, u.step k = some t → InRegion t.heap := by
  have hkeep : ∀ t, u.step k = some t → InRegion t.heap := by
    intro t hstep
    rcases reach_step hstep with ⟨-, hreach⟩ | ⟨n, hreq, hn, q, s, hmalloc, hreach⟩
    · exact hs.congr hreach
    · exact (hs.mallocWithin hn (hbelow n hreq).2 hmalloc).congr hreach
  refine ⟨⟨fun t hstep => (hkeep t hstep).mapped, fun n hreq hmore q s hmalloc => ?_⟩, hkeep⟩
  by_cases hn : n = 0
  · subst hn
    rw [malloc_zero] at hmalloc
    cases hmalloc
    rfl
  · obtain ⟨hwrap, hextends⟩ := hbelow n hreq
    exact malloc_needsMore hs hn hwrap hextends hmore hmalloc

/-! ## Only then -/

theorem mapped_subset_iterate (s : State) (n : ℕ) : s.mapped ⊆ (mapPage^[n] s).mapped := by
  induction n with
  | zero => exact List.Subset.refl _
  | succ n ih =>
      rw [Function.iterate_succ_apply', mapped_mapPage]
      exact List.subset_cons_of_subset _ ih

theorem mem_mapped_iterate {i : ℕ} (hlt : s.lastPage < 2 ^ 32) (hi : i < n) :
    ∃ v ∈ (mapPage^[n] s).mapped, v.1 = (s.lastPage + 4096 * i) % 2 ^ 32 := by
  induction n with
  | zero => exact absurd hi (Nat.not_lt_zero i)
  | succ n ih =>
      rw [Function.iterate_succ_apply', mapped_mapPage]
      rcases Nat.lt_succ_iff_lt_or_eq.mp hi with hi | rfl
      · obtain ⟨v, hv, hpage⟩ := ih hi
        exact ⟨v, List.mem_cons_of_mem _ hv, hpage⟩
      · exact ⟨_, List.mem_cons_self, lastPage_iterate hlt⟩

/-- The first page in the place of the page tables would have been mapped, too. -/
theorem pagesBelow_of_mapped
    (hin : ∀ v ∈ (extended s r).mapped, heapStartAddr ≤ v.1 ∧ v.1 + 4096 ≤ windowStart) :
    PagesBelow s r := by
  intro hsome
  have hpage : ∀ i < pagesDone s r,
      heapStartAddr ≤ (add32 s.lastPage 4096 + 4096 * i) % 2 ^ 32 ∧
        (add32 s.lastPage 4096 + 4096 * i) % 2 ^ 32 + 4096 ≤ windowStart := by
    intro i hi
    obtain ⟨v, hv, hpage⟩ :=
      mem_mapped_iterate (s := { s with lastPage := add32 s.lastPage 4096 }) add32_lt hi
    rw [← mapped_extended] at hv
    have hv := hin v hv
    rw [hpage] at hv
    exact hv
  have hpage₀ := hpage 0 (Nat.pos_of_ne_zero hsome)
  generalize hfirst : add32 s.lastPage 4096 = first at *
  have hlt : first < 2 ^ 32 := hfirst ▸ add32_lt
  rw [Nat.mul_zero, Nat.add_zero, Nat.mod_eq_of_lt hlt] at hpage₀
  obtain ⟨hlow, htop⟩ := hpage₀
  refine ⟨hlow, ?_⟩
  by_contra hpast
  have hlast := (hpage ((windowStart - first) / 4096) (by omega)).2
  have hmod : (first + 4096 * ((windowStart - first) / 4096)) % 2 ^ 32 =
      first + 4096 * ((windowStart - first) / 4096) := by
    refine Nat.mod_eq_of_lt (lt_of_le_of_lt (b := windowStart) ?_ (by decide))
    omega
  rw [hmod] at hlast
  omega

theorem mapped_subset_extendHeap {status : Bool} (hextend : s.extendHeap r = some (status, t)) :
    s.mapped ⊆ t.mapped := by
  rw [mapped_of_reach (extendHeap_reach hextend).1, mapped_extended]
  exact mapped_subset_iterate { s with lastPage := add32 s.lastPage 4096 } _

theorem mapped_subset_mallocWithin {calls : ℕ} (hn : n ≠ 0)
    (hmalloc : mallocWithin calls s n = some (q, t)) : s.mapped ⊆ t.mapped := by
  induction calls generalizing s with
  | zero => cases hmalloc
  | succ calls ih =>
      by_cases hfinds : s.Finds n
      · obtain ⟨hole, htake⟩ := mallocWithin_finds hn hfinds hmalloc
        rw [mapped_of_reach (reach_take htake)]
        exact List.Subset.refl _
      · rw [mallocWithin_none hn (not_not.mp hfinds)] at hmalloc
        obtain ⟨⟨status, u⟩, hextend, hu⟩ := Option.bind_eq_some_iff.mp hmalloc
        have hsub := mapped_subset_extendHeap hextend
        cases status with
        | false =>
            cases hu
            exact hsub
        | true => exact List.Subset.trans hsub (ih hu)

/-- Where all pages are in the region in the end, each extension has ended below the page
tables. -/
theorem extendsBelow_of_mapped {calls : ℕ} (hn : n ≠ 0)
    (hmalloc : mallocWithin calls s n = some (q, t))
    (hin : ∀ v ∈ t.mapped, heapStartAddr ≤ v.1 ∧ v.1 + 4096 ≤ windowStart) :
    ExtendsBelow calls s n := by
  induction calls generalizing s with
  | zero => trivial
  | succ calls ih =>
      intro hfinds
      rw [mallocWithin_none hn (not_not.mp hfinds)] at hmalloc
      obtain ⟨⟨status, u⟩, hextend, hu⟩ := Option.bind_eq_some_iff.mp hmalloc
      have hsub : u.mapped ⊆ t.mapped := by
        cases status with
        | false =>
            cases hu
            exact List.Subset.refl _
        | true => exact mapped_subset_mallocWithin hn hu
      refine ⟨pagesBelow_of_mapped fun v hv => hin v (hsub ?_), fun r hr htrue => ?_⟩
      · rw [mapped_of_reach (extendHeap_reach hextend).1]
        exact hv
      · obtain rfl := Option.some.inj (hextend.symm.trans hr)
        obtain rfl : status = true := htrue
        exact ih hu

/-- A call that returns with its pages in the region has ended below the page tables. -/
theorem endsBelow_of_staysInRegion {u t : Config} (hstep : u.step k = some t)
    (hwrap : ∀ n ∈ k.request, n + 16 < 2 ^ 32) (hstays : StaysInRegion u k) : EndsBelow u k := by
  intro n hreq
  refine ⟨hwrap n hreq, ?_⟩
  rcases reach_step hstep with ⟨hnone, -⟩ | ⟨m, hreq', hm, q, s, hmalloc, hreach⟩
  · rw [hnone] at hreq
    cases hreq
  · obtain rfl : m = n := Option.some.inj (hreq'.symm.trans hreq)
    refine extendsBelow_of_mapped hm hmalloc ?_
    rw [← mapped_of_reach hreach]
    exact hstays.mapped t hstep

section Region

variable {memory : Memory} {frames : List ℕ} {c : Config} {calls : List Call}

/-- The heap stays below the page tables as long as the frames end before its region
does, and no longer. -/
theorem staysInRegion_of_run (hinit : Config.initial memory frames = some c) :
    (RunAll Config.step EndsBelow c calls → RunAll Config.step StaysInRegion c calls) ∧
      ((run Config.step c calls).isSome → (∀ k ∈ calls, ∀ n ∈ k.request, n + 16 < 2 ^ 32) →
        RunAll Config.step StaysInRegion c calls → RunAll Config.step EndsBelow c calls) := by
  obtain ⟨f, g, fs, -, -, -, hstarted⟩ := exists_started hinit
  have hregion : InRegion c.heap := by
    refine ⟨?_, ?_⟩
    · rw [hstarted.mapped]
      intro v hv
      obtain rfl := List.mem_singleton.mp hv
      exact ⟨le_rfl, by show heapStartAddr + 4096 ≤ windowStart; decide⟩
    · rw [hstarted.lastPage]
      decide
  constructor
  · exact RunAll.of_invariant (I := fun u => InRegion u.heap)
      (fun u k hs hbelow => staysInRegion_of_endsBelow hs hbelow) hregion
  · intro hreturns hwrap hstays
    refine (((runAll_of_isSome hreturns).and (runAll_of_forall hwrap)).and hstays).mono ?_
    rintro u k ⟨⟨hstep, hsize⟩, hstay⟩
    obtain ⟨t, ht⟩ := Option.isSome_iff_exists.mp hstep
    exact endsBelow_of_staysInRegion ht hsize hstay

theorem staysInRegion_of_run_twice :
    ∃ c, Config.initial zeroMemory [4096, 8192, 12288, 16384, 0] = some c ∧
      RunAll Config.step StaysInRegion c [.malloc 5000, .malloc 0x3F000000, .malloc 100] := by
  obtain ⟨c, hc⟩ : ∃ c, Config.initial zeroMemory [4096, 8192, 12288, 16384, 0] = some c := ⟨_, rfl⟩
  have hbelow : ∀ c ∈ Config.initial zeroMemory [4096, 8192, 12288, 16384, 0],
      RunAll Config.step EndsBelow c [.malloc 5000, .malloc 0x3F000000, .malloc 100] := by
    decide +kernel
  exact ⟨c, hc, (staysInRegion_of_run hc).1 (hbelow c hc)⟩

/-- Different page-aligned frames of a physical memory of at most 4 GB. -/
structure Installed (frames : List ℕ) : Prop where
  nodup : frames.Nodup
  aligned : ∀ f ∈ frames, f ≠ 0 ∧ 4096 ∣ f ∧ f + 4096 ≤ 2 ^ 32

/-- The frames above the first megabyte of a little more than 1 GB of memory. -/
def gigabyte : List ℕ := (List.range 0x3F402).map fun i => 0x100000 + 4096 * i

theorem installed_gigabyte : Installed gigabyte := by
  refine ⟨?_, ?_⟩
  · refine List.Nodup.map ?_ List.nodup_range
    intro i j h
    simp only at h
    omega
  · intro f hf
    obtain ⟨i, hi, rfl⟩ := List.mem_map.mp hf
    have hlt := List.mem_range.mp hi
    exact ⟨by omega, by omega, by omega⟩

theorem gigabyte_eq : ∃ fs, gigabyte = 0x100000 :: 0x101000 :: fs ∧ fs.length = 0x3F400 ∧
    ∀ f ∈ fs, f ≠ 0 := by
  have hrange : List.range 0x3F402 = 0 :: 1 :: (List.range 0x3F400).map fun i => i + 1 + 1 := by
    rw [List.range_succ_eq_map, List.range_succ_eq_map, List.map_cons, List.map_map]
    rfl
  refine ⟨((List.range 0x3F400).map fun i => i + 1 + 1).map fun i => 0x100000 + 4096 * i,
    ?_, ?_, ?_⟩
  · rw [gigabyte, hrange, List.map_cons, List.map_cons]
  · rw [List.length_map, List.length_map, List.length_range]
  · intro f hf
    obtain ⟨i, -, rfl⟩ := List.mem_map.mp hf
    omega

/-- One request for more than all of that memory is refused after a page has been mapped in
the place of the first page table. -/
theorem not_staysInRegion_of_run : ¬ ∀ (memory : Memory) (frames : List ℕ) (c : Config)
    (calls : List Call), Installed frames → Config.initial memory frames = some c →
      RunAll Config.step Promised c calls → RunAll Config.step StaysInRegion c calls := by
  intro h
  obtain ⟨fs, hframes, hlength, hnonzero⟩ := gigabyte_eq
  obtain ⟨c, hc, hstarted⟩ := exists_initial zeroMemory fs
    (show 0x100000 ≠ 0 by decide) (show 0x101000 ≠ 0 by decide)
  have hpages : desiredPages (add32 0x3F400000 4) = 0x3F401 := by decide
  have hdelivered : (delivered c.heap).length = 0x3F400 := by
    rw [delivered, hstarted.frames, List.takeWhile_eq_self_iff.mpr, hlength]
    exact fun f hf => decide_eq_true (hnonzero f hf)
  -- Up to the page tables every page gets its frame.
  have hmany : 0x3F000 ≤ pagesDone c.heap (add32 0x3F400000 4) := by
    refine le_pagesDone (by rw [hpages]; decide) fun k hk => frame_ne_zero ?_
    have := framesFor_le c.heap (c.heap.lastPage + 4096) k
    omega
  have hfew : pagesDone c.heap (add32 0x3F400000 4) ≠ 0x3F401 := by
    intro hall
    have hlast := frame_of_lt_pagesDone (show 0x3F400 < pagesDone c.heap _ by rw [hall]; decide)
    have hle := le_framesFor c.heap (c.heap.lastPage + 4096) 0x3F400
    rw [List.getD_eq_default _ _ (by rw [hstarted.frames, hlength]; exact hle)] at hlast
    exact hlast rfl
  obtain ⟨s, hextend⟩ := hstarted.layout.extendHeap_returns (add32 0x3F400000 4)
  rw [hpages, decide_eq_false hfew] at hextend
  have hfind : c.heap.findHole (add32 0x3F400000 4) stepLimit c.heap.holesListHead = some 0 := by
    rw [hstarted.layout.holds.findHole_eq]
    decide
  have hmalloc : c.heap.malloc 0x3F400000 = some (0, s) := by
    rw [State.malloc, mallocWithin_none (by decide) hfind, hextend]
    rfl
  have hstep : c.step (.malloc 0x3F400000) = some ⟨s, c.live⟩ := by
    simp only [Config.step, hmalloc, Option.bind_eq_bind, Option.bind_some, if_true]
  obtain ⟨hstays, -⟩ := h zeroMemory gigabyte c [.malloc 0x3F400000] installed_gigabyte
    (by rw [hframes]; exact hc) ⟨trivial, fun _ _ => trivial⟩
  have hbelow : PagesBelow c.heap (add32 0x3F400000 4) := by
    refine pagesBelow_of_mapped ?_
    rw [← mapped_of_reach (extendHeap_reach hextend).1]
    exact hstays.mapped _ hstep
  obtain ⟨-, hend⟩ := hbelow (by omega)
  have hfirst : add32 c.heap.lastPage 4096 = 0xC0C01000 := by
    rw [hstarted.lastPage]
    decide
  simp only [hfirst, windowStart] at hend
  omega

end Region

end AviKernel.Heap
