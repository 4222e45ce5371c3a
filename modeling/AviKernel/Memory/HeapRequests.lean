import AviKernel.Memory.HeapExhaustion

/-!
# Requests of every size

`malloc` with its calls counted.  From `2 ^ 32 - 16` on the sums that lead from
the request to the number of pages wrap, at one of two places: the pages are too
few for what is looked for, and `malloc` extends the heap again and again; or
what is looked for is itself too small.
-/

namespace AviKernel.Heap

open State Holds

variable {s s' : State} {holes lost live : List Extent} {e : Extent} {k n q r hole : ℕ}

/-- The outcome of `malloc`, with how often it called `extend_heap` and itself. -/
structure Counted where
  pointer : ℕ
  state : State
  extensions : ℕ
  recursions : ℕ

namespace Counted

/-- One extension and one recursion more. -/
def again (c : Counted) : Counted :=
  { c with
    extensions := c.extensions + 1
    recursions := c.recursions + 1 }

/-- The size in front of the pointer. -/
def recorded (c : Counted) : ℕ := c.state.size (sub32 c.pointer 4)

end Counted

def mallocCounted : ℕ → State → ℕ → Option Counted
  | 0, _, _ => none
  | calls + 1, s, size =>
      if size = 0 then some ⟨0, s, 0, 0⟩
      else do
        let requiredSize := add32 size 4
        let hole ← s.findHole requiredSize stepLimit s.holesListHead
        if hole = 0 then
          let (status, s) ← s.extendHeap requiredSize
          if status then (mallocCounted calls s size).map Counted.again else some ⟨0, s, 1, 0⟩
        else
          let (pointer, s) ← take s hole requiredSize
          some ⟨pointer, s, 0, 0⟩

/-- Counting changes nothing. -/
theorem mallocCounted_map (k : ℕ) (s : State) (n : ℕ) :
    (mallocCounted k s n).map (fun c => (c.pointer, c.state)) = mallocWithin k s n := by
  induction k generalizing s with
  | zero => rfl
  | succ k ih =>
      rw [mallocCounted, mallocWithin]
      by_cases hn : n = 0
      · rw [if_pos hn, if_pos hn]
        rfl
      · rw [if_neg hn, if_neg hn]
        cases hfind : s.findHole (add32 n 4) stepLimit s.holesListHead with
        | none => simp [hfind]
        | some hole =>
            by_cases hhole : hole = 0
            · cases hextend : s.extendHeap (add32 n 4) with
              | none => simp [hfind, hhole, hextend]
              | some x =>
                  obtain ⟨status, t⟩ := x
                  cases status
                  · simp [hfind, hhole, hextend]
                  · have hagain : (fun c : Counted => (c.pointer, c.state)) ∘ Counted.again =
                      fun c => (c.pointer, c.state) := rfl
                    simp [hfind, hhole, hextend, hagain, ih]
            · cases htake : take s hole (add32 n 4) with
              | none => simp_all [take]
              | some x => simp_all [take]

/-! ## One search -/

/-- What is recorded is at least what is looked for. -/
theorem take_recorded (hfit : r ≤ s.size hole) (hr : r < 2 ^ 32)
    (htake : take s hole r = some (q, s')) : q = add32 hole 4 ∧ r ≤ s'.size hole := by
  have hword : s.size hole < 2 ^ 32 := Memory.load_lt
  by_cases h : 12 < sub32 (s.size hole) r
  · obtain ⟨o, ho⟩ : ∃ o, (if 12 < r then r else 12) = o := ⟨_, rfl⟩
    have hoffset : 12 ≤ o ∧ r ≤ o ∧ o < 2 ^ 32 := by
      rw [← ho]
      split_ifs <;> omega
    have hne : o ≠ 0 := by omega
    cases hinsert : (s.setSize (add32 hole o) (sub32 (s.size hole) o)).insertToHolesList
        (add32 hole o) with
    | none => simp [take, split, h, ho, hinsert] at htake
    | some t =>
        simp only [take, split, if_pos h, ho, hinsert, Option.bind_eq_bind, Option.bind_some,
          if_neg hne, Option.some.injEq, Prod.mk.injEq] at htake
        obtain ⟨rfl, rfl⟩ := htake
        refine ⟨rfl, ?_⟩
        rw [size_setSize_self hoffset.2.2]
        exact hoffset.2.1
  · simp only [take, split, if_neg h, Option.bind_eq_bind, Option.bind_some, if_true,
      Option.some.injEq, Prod.mk.injEq] at htake
    obtain ⟨rfl, rfl⟩ := htake
    refine ⟨rfl, ?_⟩
    rw [size_setSize_self hword]
    exact hfit

theorem counted_fit (hs : Holds s holes) (hn : n ≠ 0) (hfit : fit (add32 n 4) holes = some e) :
    mallocCounted (k + 1) s n =
      (take s e.start (add32 n 4)).map fun x => ⟨x.1, x.2, 0, 0⟩ := by
  have hpos : e.start ≠ 0 := (hs.pos (List.mem_of_find?_eq_some hfit)).ne'
  have hfind : s.findHole (add32 n 4) stepLimit s.holesListHead = some e.start := by
    rw [hs.findHole_eq, hfit]
    rfl
  rw [mallocCounted, if_neg hn]
  simp only [hfind, Option.bind_eq_bind, Option.bind_some, if_neg hpos]
  cases take s e.start (add32 n 4) <;> rfl

theorem counted_unfit (hs : Holds s holes) (hn : n ≠ 0) (hfit : fit (add32 n 4) holes = none) :
    mallocCounted (k + 1) s n = (s.extendHeap (add32 n 4)).bind fun x =>
      if x.1 then (mallocCounted k x.2 n).map Counted.again else some ⟨0, x.2, 1, 0⟩ := by
  have hfind : s.findHole (add32 n 4) stepLimit s.holesListHead = some 0 := by
    rw [hs.findHole_eq, hfit]
    rfl
  rw [mallocCounted, if_neg hn]
  simp only [hfind, Option.bind_eq_bind, Option.bind_some, if_true]

/-- A hole that is found is handed out. -/
theorem counted_found {c : Counted} (hs : Holds s holes) (hsound : Sound holes) (hn : n ≠ 0)
    (hfit : fit (add32 n 4) holes = some e) (hc : mallocCounted (k + 1) s n = some c) :
    c.pointer ≠ 0 ∧ c.extensions = 0 ∧ c.recursions = 0 ∧ add32 n 4 ≤ c.recorded := by
  have hmem := List.mem_of_find?_eq_some hfit
  have hle := (fit_split hfit).1
  have hbounds := hsound.bounds e hmem
  have hbig := hsound.big e hmem
  simp only [heapStartAddr, windowStart] at hbounds
  rw [counted_fit hs hn hfit] at hc
  obtain ⟨⟨q, t⟩, htake, rfl⟩ := Option.map_eq_some_iff.mp hc
  rw [← hs.sizes e hmem] at hle
  obtain ⟨rfl, hrecorded⟩ := take_recorded hle add32_lt htake
  have haddr : add32 e.start 4 = e.start + 4 := add32_of_lt (by omega)
  have hback : sub32 (e.start + 4) 4 = e.start := sub32_of_le (by omega) (Nat.le_add_left _ _)
  refine ⟨?_, rfl, rfl, ?_⟩
  · show add32 e.start 4 ≠ 0
    omega
  · rw [Counted.recorded]
    dsimp only
    rw [haddr, hback]
    exact hrecorded

/-! ## Extensions -/

/-- An extension returns, wherever its pages end. -/
theorem Layout.extendHeap_returns (hl : Layout s holes live lost) (r : ℕ) :
    ∃ s', s.extendHeap r = some (decide (pagesDone s r = desiredPages r), s') := by
  have hlast := hl.lastPage
  simp only [heapStartAddr, windowStart] at hlast
  have hwrap : add32 s.lastPage 4096 = s.lastPage + 4096 := add32_of_lt (by omega)
  obtain ⟨header, hheader, hextend⟩ := extendHeap_eq s r
  have hmembers : ∀ e ∈ holes, 4096 ≤ e.start ∧ e.start + 12 ≤ s.lastPage + 4096 := by
    intro e he
    have hstart := (hl.sound.bounds e he).1
    obtain ⟨hbig, hend⟩ := hl.member_end (List.mem_append_left live he)
    simp only [heapStartAddr] at hstart
    exact ⟨by omega, by omega⟩
  have hholds : Holds (extended s r) holes := by
    refine hl.holds.congr (fun e he a hge _ => byte_extended s r ?_) (head_extended s r)
      (tail_extended s r)
    exact (hmembers e he).1.trans hge
  have hinsert : ∃ s', ((extended s r).setSize header
      (pagesDone s r * 4096 % 2 ^ 32)).insertToHolesList header = some s' := by
    rw [hheader (by omega)]
    rcases Nat.eq_zero_or_pos (pagesDone s r) with hnone | hsome
    · rw [if_pos hnone]
      have hstored := hholds.setSize (w := pagesDone s r * 4096 % 2 ^ 32) fun e he =>
        Or.inl (show 0 + 4 ≤ e.start by have := hmembers e he; omega)
      have hlist : HolesList _ ([] ++ holes.map Extent.start) := hstored.list
      refine hlist.insert_some (fun _ hx => absurd hx List.not_mem_nil) fun x hx => ?_
      obtain ⟨e, he, rfl⟩ := List.mem_map.mp hx
      have := hmembers e he
      omega
    · rw [if_neg hsome.ne', hwrap]
      have hstored := hholds.setSize (w := pagesDone s r * 4096 % 2 ^ 32) fun e he =>
        Or.inr (hmembers e he).2
      have hlist := hstored.list
      rw [← List.append_nil (holes.map Extent.start)] at hlist
      refine hlist.insert_some (fun x hx => ?_) fun _ hx => absurd hx List.not_mem_nil
      obtain ⟨e, he, rfl⟩ := List.mem_map.mp hx
      have := hmembers e he
      omega
  obtain ⟨s', hinsert⟩ := hinsert
  exact ⟨s', by rw [hextend, hinsert]; rfl⟩

/-- Without any frame `extend_heap` fails. -/
theorem Layout.extendHeap_none (hl : Layout s holes live lost) (hnone : pagesDone s r = 0) :
    ∃ s', s.extendHeap r = some (false, s') := by
  have hextend := hl.extendHeap_returns r
  have hfew : pagesDone s r ≠ desiredPages r := hnone ▸ (Nat.succ_ne_zero _).symm
  rw [decide_eq_false hfew] at hextend
  exact hextend

/-- The pages that the extension gets end below the page tables. -/
def HasRoom (s : State) (holes : List Extent) (n : ℕ) : Prop :=
  fit (add32 n 4) holes = none → pagesDone s (add32 n 4) ≠ 0 →
    s.lastPage + 4096 + 4096 * pagesDone s (add32 n 4) ≤ windowStart

theorem exists_length_eq (hsome : pagesDone s r ≠ 0) : ∃ k, s.frames.length = k + 1 := by
  refine Nat.exists_eq_succ_of_ne_zero fun hnil => ?_
  have hfirst := frame_of_lt_pagesDone (Nat.pos_of_ne_zero hsome)
  rw [List.length_eq_zero_iff.mp hnil] at hfirst
  exact hfirst rfl

/-- An extension fails, or adds a hole of the pages that were asked for. -/
theorem Layout.extendHeap_cases (hl : Layout s holes live lost)
    (hroom : pagesDone s r ≠ 0 → s.lastPage + 4096 + 4096 * pagesDone s r ≤ windowStart) :
    (pagesDone s r < desiredPages r ∧ ∃ s', s.extendHeap r = some (false, s')) ∨
      pagesDone s r = desiredPages r ∧ ∃ s', s.extendHeap r = some (true, s') ∧
        Holds s' (holes ++ [newHole s (desiredPages r)]) ∧
        Sound (holes ++ [newHole s (desiredPages r)]) := by
  rcases Nat.eq_zero_or_pos (pagesDone s r) with hzero | hsome
  · exact Or.inl ⟨hzero ▸ Nat.succ_pos _, hl.extendHeap_none hzero⟩
  · have hsound := hl.sound_newHole hsome (hroom hsome.ne')
    obtain ⟨s', hextend, hholds, -⟩ := hl.holds.extendHeap hsome hsound
    rcases (pagesDone_le s r).eq_or_lt with hall | hfew
    · rw [decide_eq_true hall] at hextend
      rw [hall] at hholds hsound
      exact Or.inr ⟨hall, s', hextend, hholds, hsound⟩
    · rw [decide_eq_false hfew.ne] at hextend
      exact Or.inl ⟨hfew, s', hextend⟩

/-! ## Whole requests -/

/-- `malloc` returns after at most one extension and one recursion, and a chunk
has room for the request. -/
def MallocBounded (s : State) (n : ℕ) : Prop :=
  ∃ c, mallocCounted (s.frames.length + 1) s n = some c ∧ c.extensions ≤ 1 ∧ c.recursions ≤ 1 ∧
    (c.pointer ≠ 0 → n + 4 ≤ c.recorded)

/-- What is counted is `malloc`. -/
theorem malloc_of_bounded (h : MallocBounded s n) :
    ∃ p t, s.malloc n = some (p, t) ∧ (p ≠ 0 → n + 4 ≤ t.size (sub32 p 4)) := by
  obtain ⟨c, hc, -, -, hrecorded⟩ := h
  refine ⟨c.pointer, c.state, ?_, hrecorded⟩
  rw [State.malloc, ← mallocCounted_map, hc]
  rfl

/-- No hole is big enough for what is looked for, and there is no frame. -/
def NothingLeft (s : State) (holes : List Extent) (n : ℕ) : Prop :=
  fit (add32 n 4) holes = none ∧ delivered s = []

theorem counted_serves (hs : Holds s holes) (hsound : Sound holes) (hn : n ≠ 0)
    (hwrap : n + 4 < 2 ^ 32) (hfit : fit (add32 n 4) holes = some e) :
    ∃ c, mallocCounted (k + 1) s n = some c ∧ c.extensions = 0 ∧ c.recursions = 0 ∧
      n + 4 ≤ c.recorded := by
  have hsum : add32 n 4 = n + 4 := add32_of_lt hwrap
  obtain ⟨hle, l₁, l₂, rfl⟩ := fit_split hfit
  obtain ⟨s', htake⟩ := take_some hs hsound (by omega) hle
  have hc : mallocCounted (k + 1) s n = some ⟨e.start + 4, s', 0, 0⟩ := by
    rw [counted_fit hs hn hfit, htake]
    rfl
  obtain ⟨-, hextensions, hrecursions, hrecorded⟩ := counted_found hs hsound hn hfit hc
  rw [hsum] at hrecorded
  exact ⟨_, hc, hextensions, hrecursions, hrecorded⟩

/-- The new pages are enough for the search that follows. -/
theorem serves_extended (hn : n ≠ 0) (hwrap : n + 16 < 2 ^ 32)
    (hs' : Holds s' (holes ++ [newHole s (desiredPages (add32 n 4))]))
    (hsound : Sound (holes ++ [newHole s (desiredPages (add32 n 4))])) :
    ∃ c, mallocCounted (k + 1) s' n = some c ∧ c.extensions = 0 ∧ c.recursions = 0 ∧
      n + 4 ≤ c.recorded := by
  have hsum : add32 n 4 = n + 4 := add32_of_lt (by omega)
  have hpages : desiredPages (n + 4) = (n + 16) / 4096 + 1 := by
    rw [desiredPages, add32_of_lt (by omega)]
  have hbig : add32 n 4 ≤ (newHole s (desiredPages (add32 n 4))).size := by
    rw [hsum]
    show n + 4 ≤ 4096 * desiredPages (n + 4)
    omega
  obtain ⟨e, hfit⟩ := exists_fit (List.mem_append_right holes (List.mem_singleton_self _)) hbig
  exact counted_serves hs' hsound hn (by omega) hfit

/-- Past the bound a hole that is found is too small. -/
theorem recorded_lt {c : Counted} (hs : Holds s holes) (hsound : Sound holes) (hn : n ≠ 0)
    (hlt : n < 2 ^ 32) (hwrap : 2 ^ 32 ≤ n + 16) (hfit : fit (add32 n 4) holes = some e)
    (hc : mallocCounted (k + 1) s n = some c) : c.pointer ≠ 0 ∧ c.recorded < n + 4 := by
  have hword : c.recorded < 2 ^ 32 := Memory.load_lt
  obtain ⟨hne, -⟩ := counted_found hs hsound hn hfit hc
  refine ⟨hne, ?_⟩
  by_cases hsum : n + 4 < 2 ^ 32
  · have hbounds := hsound.bounds e (List.mem_of_find?_eq_some hfit)
    simp only [heapStartAddr, windowStart] at hbounds
    have hle := (fit_split hfit).1
    rw [add32_of_lt hsum] at hle
    omega
  · exact hword.trans_le (not_lt.mp hsum)

/-- Where no hole is found, the heap is extended. -/
theorem extensions_pos {c : Counted} (hs : Holds s holes) (hn : n ≠ 0)
    (hfit : fit (add32 n 4) holes = none) (hc : mallocCounted (k + 1) s n = some c) :
    1 ≤ c.extensions := by
  rw [counted_unfit hs hn hfit] at hc
  obtain ⟨⟨status, t⟩, -, hrest⟩ := Option.bind_eq_some_iff.mp hc
  cases status with
  | false =>
      cases hrest
      exact le_rfl
  | true =>
      obtain ⟨c', -, rfl⟩ := Option.map_eq_some_iff.mp hrest
      exact Nat.le_add_left 1 c'.extensions

section Requests

variable (hl : Layout s holes live lost) (hn : n ≠ 0)
include hl hn

theorem bounded_of_lt (hwrap : n + 16 < 2 ^ 32) (hroom : HasRoom s holes n) :
    MallocBounded s n := by
  cases hfit : fit (add32 n 4) holes with
  | some e =>
      obtain ⟨c, hc, hextensions, hrecursions, hrecorded⟩ :=
        counted_serves hl.holds hl.sound hn (by omega) hfit
      exact ⟨c, hc, by omega, by omega, fun _ => hrecorded⟩
  | none =>
      rcases hl.extendHeap_cases (hroom hfit) with ⟨-, s', hextend⟩ |
        ⟨hall, s', hextend, hs', hsound⟩
      · refine ⟨⟨0, s', 1, 0⟩, ?_, le_rfl, Nat.zero_le 1, fun hne => absurd rfl hne⟩
        rw [counted_unfit hl.holds hn hfit, hextend]
        rfl
      · obtain ⟨k, hk⟩ := exists_length_eq (hall.trans_ne (Nat.succ_ne_zero _))
        obtain ⟨c, hc, hextensions, hrecursions, hrecorded⟩ :=
          @serves_extended s s' holes k n hn hwrap hs' hsound
        refine ⟨c.again, ?_, ?_, ?_, fun _ => hrecorded⟩
        · rw [counted_unfit hl.holds hn hfit, hextend, hk]
          dsimp only [Option.bind_some]
          rw [if_pos rfl, hc]
          rfl
        · exact Nat.succ_le_succ hextensions.le
        · exact Nat.succ_le_succ hrecursions.le

theorem nothingLeft_of_bounded (hlt : n < 2 ^ 32) (hwrap : 2 ^ 32 ≤ n + 16)
    (hroom : HasRoom s holes n) (h : MallocBounded s n) : NothingLeft s holes n := by
  obtain ⟨c, hc, hextensions, -, hrecorded⟩ := h
  have hpages : desiredPages (add32 n 4) = 1 := by
    unfold desiredPages add32
    omega
  cases hfit : fit (add32 n 4) holes with
  | some e =>
      obtain ⟨hne, hsmall⟩ := recorded_lt hl.holds hl.sound hn hlt hwrap hfit hc
      exact absurd (hrecorded hne) (not_le.mpr hsmall)
  | none =>
      refine ⟨hfit, ?_⟩
      rcases hl.extendHeap_cases (hroom hfit) with ⟨hfew, -⟩ | ⟨hall, s', hextend, hs', hsound⟩
      · rw [hpages] at hfew
        exact pagesDone_eq_zero.mp (Nat.lt_one_iff.mp hfew)
      · rw [counted_unfit hl.holds hn hfit, hextend] at hc
        obtain ⟨c', hc', rfl⟩ := Option.map_eq_some_iff.mp hc
        obtain ⟨k, hk⟩ := exists_length_eq (hall.trans_ne (Nat.succ_ne_zero _))
        rw [hk] at hc'
        cases hfit' : fit (add32 n 4) (holes ++ [newHole s (desiredPages (add32 n 4))]) with
        | some e =>
            obtain ⟨hne, hsmall⟩ := recorded_lt hs' hsound hn hlt hwrap hfit' hc'
            exact absurd (hrecorded hne) (not_le.mpr hsmall)
        | none =>
            have hmore := extensions_pos hs' hn hfit' hc'
            exact absurd hextensions (not_le.mpr (Nat.lt_add_of_pos_left hmore))

theorem bounded_of_nothingLeft (h : NothingLeft s holes n) : MallocBounded s n := by
  obtain ⟨hfit, hnone⟩ := h
  obtain ⟨s', hextend⟩ := hl.extendHeap_none (pagesDone_eq_zero.mpr hnone)
  refine ⟨⟨0, s', 1, 0⟩, ?_, le_rfl, Nat.zero_le 1, fun hne => absurd rfl hne⟩
  rw [counted_unfit hl.holds hn hfit, hextend]
  rfl

theorem bounded_iff (hlt : n < 2 ^ 32) (hroom : HasRoom s holes n) :
    MallocBounded s n ↔ n + 16 < 2 ^ 32 ∨ NothingLeft s holes n := by
  constructor
  · intro h
    by_cases hwrap : n + 16 < 2 ^ 32
    · exact Or.inl hwrap
    · exact Or.inr (nothingLeft_of_bounded hl hn hlt (not_lt.mp hwrap) hroom h)
  · rintro (hwrap | hnothing)
    · exact bounded_of_lt hl hn hwrap hroom
    · exact bounded_of_nothingLeft hl hn hnothing

end Requests

/-! ## Runs -/

/-- In every state that is reached by calls that get what they need, or are
refused after a page, requests below the bound are handled as they should be, and
beyond it only those for which nothing is left. -/
theorem bounded_of_run {memory : Memory} {frames : List ℕ} {c : Config} {calls : List Call}
    (hinit : Config.initial memory frames = some c) (hrun : RunAll Config.step Copes c calls) :
    ∃ u, run Config.step c calls = some u ∧ ∀ n, n ≠ 0 → n < 2 ^ 32 →
      HasRoom u.heap u.heap.holes n →
        (MallocBounded u.heap n ↔ n + 16 < 2 ^ 32 ∨ NothingLeft u.heap u.heap.holes n) := by
  obtain ⟨u, hu, lost, hv⟩ := run_copes hinit hrun
  exact ⟨u, hu, fun n hn hlt hroom => bounded_iff hv hn hlt hroom⟩

theorem bounded_of_run_twice : ∃ c,
    Config.initial zeroMemory [4096, 8192, 12288, 0, 16384] = some c ∧
    ∃ u, run Config.step c [.malloc 100, .malloc 9000] = some u ∧ ∀ n, n ≠ 0 → n < 2 ^ 32 →
      HasRoom u.heap u.heap.holes n →
        (MallocBounded u.heap n ↔ n + 16 < 2 ^ 32 ∨ NothingLeft u.heap u.heap.holes n) := by
  obtain ⟨c, hc⟩ : ∃ c, Config.initial zeroMemory [4096, 8192, 12288, 0, 16384] = some c := ⟨_, rfl⟩
  have hrun : ∀ c ∈ Config.initial zeroMemory [4096, 8192, 12288, 0, 16384],
      RunAll Config.step Copes c [.malloc 100, .malloc 9000] := by decide +kernel
  exact ⟨c, hc, bounded_of_run hc (hrun c hc)⟩

/-- The first page is all there is to start with.  A request of `2 ^ 32 - 16`
bytes takes one more page twice and then fails, and one of `2 ^ 32 - 1` bytes is
granted with a chunk of twelve bytes. -/
theorem not_bounded_of_run :
    (¬∀ (memory : Memory) (frames : List ℕ) (c u : Config) (calls : List Call) (n : ℕ),
      Config.initial memory frames = some c → RunAll Config.step Promised c calls →
      run Config.step c calls = some u → n ≠ 0 → n < 2 ^ 32 →
        ∃ r, mallocCounted (u.heap.frames.length + 1) u.heap n = some r ∧ r.extensions ≤ 1 ∧
          r.recursions ≤ 1) ∧
    ¬∀ (memory : Memory) (frames : List ℕ) (c u : Config) (calls : List Call) (n : ℕ),
      Config.initial memory frames = some c → RunAll Config.step Promised c calls →
      run Config.step c calls = some u → n ≠ 0 → n < 2 ^ 32 →
        ∀ r, mallocCounted (u.heap.frames.length + 1) u.heap n = some r → r.pointer ≠ 0 →
          n + 4 ≤ r.recorded := by
  obtain ⟨c, hc⟩ : ∃ c, Config.initial zeroMemory [4096, 8192, 12288, 16384] = some c := ⟨_, rfl⟩
  constructor
  · intro h
    have hcount : ∀ c ∈ Config.initial zeroMemory [4096, 8192, 12288, 16384],
        ∀ r ∈ mallocCounted (c.heap.frames.length + 1) c.heap (2 ^ 32 - 16),
          r.extensions = 3 := by decide +kernel
    obtain ⟨r, hr, hone, -⟩ := h zeroMemory [4096, 8192, 12288, 16384] c c [] (2 ^ 32 - 16) hc
      trivial rfl (by decide) (by decide)
    rw [hcount c hc r hr] at hone
    exact absurd hone (by decide)
  · intro h
    have hsmall : ∀ c ∈ Config.initial zeroMemory [4096, 8192, 12288, 16384],
        ∃ r ∈ mallocCounted (c.heap.frames.length + 1) c.heap (2 ^ 32 - 1),
          r.pointer ≠ 0 ∧ r.recorded = 12 := by decide +kernel
    obtain ⟨r, hr, hne, hrecorded⟩ := hsmall c hc
    have hroom := h zeroMemory [4096, 8192, 12288, 16384] c c [] (2 ^ 32 - 1) hc trivial rfl
      (by decide) (by decide) r hr hne
    rw [hrecorded] at hroom
    exact absurd hroom (by decide)

end AviKernel.Heap
