import AviKernel.Memory.HeapGrowth

/-!
# Allocating from the heap

`malloc` cuts the first hole that is big enough.  The hole is split when more
than twelve bytes would remain, at an offset of at least twelve bytes; a
request below twelve bytes can therefore leave a remainder that does not have
room for a header.
-/

namespace AviKernel.Heap

open State Holds

variable {s s' : State} {holes live lost l₁ l₂ : List Extent} {c e : Extent}
  {n r : ℕ}

/-- How many bytes of the hole `malloc` takes. -/
def takenSize (r : ℕ) (e : Extent) : ℕ :=
  if 12 < e.size - r then if 12 < r then r else 12 else e.size

def taken (r : ℕ) (e : Extent) : Extent := ⟨e.start, takenSize r e⟩

/-- What is left of the hole. -/
def remainder (r : ℕ) (e : Extent) : List Extent :=
  if 12 < e.size - r then [⟨e.start + takenSize r e, e.size - takenSize r e⟩] else []

/-- A hole that is split has room for two headers. -/
def Unsliced (r : ℕ) (e : Extent) : Prop := 12 < e.size - r → 24 ≤ e.size

theorem takenSize_ge (hr : r ≤ e.size) : r ≤ takenSize r e := by
  unfold takenSize
  split_ifs <;> omega

theorem takenSize_big (hbig : 12 ≤ e.size) : 12 ≤ takenSize r e := by
  unfold takenSize
  split_ifs <;> omega

theorem takenSize_le (hbig : 12 ≤ e.size) : takenSize r e ≤ e.size := by
  unfold takenSize
  split_ifs <;> omega

theorem remainder_big (hslice : Unsliced r e) (h : 12 < e.size - r) :
    12 ≤ e.size - takenSize r e := by
  have hroom := hslice h
  unfold takenSize
  split_ifs <;> omega

theorem cover_taken (hbig : 12 ≤ e.size) (a : ℕ) :
    cover (remainder r e) a + cover [taken r e] a = cover [e] a := by
  have hle := takenSize_le (r := r) hbig
  unfold remainder taken
  by_cases h : 12 < e.size - r
  · have hsplit := indicator_split e.start (takenSize r e) (e.size - takenSize r e) a
    rw [Nat.add_sub_cancel' hle] at hsplit
    rw [if_pos h]
    simp only [cover_cons, cover_nil]
    have hsame : (if a ∈ e then 1 else 0) =
        if a ∈ (⟨e.start, e.size⟩ : Extent) then 1 else 0 := rfl
    rw [hsame, hsplit]
    omega
  · have hwhole : takenSize r e = e.size := if_neg h
    rw [if_neg h, hwhole, cover_nil, Nat.zero_add]

theorem sound_taken (hs : Sound (l₁ ++ e :: l₂)) (hslice : Unsliced r e) :
    Sound (l₁ ++ remainder r e ++ l₂) := by
  have hdrop : Sound (l₁ ++ l₂) := hs.sublist ((List.sublist_cons_self e l₂).append_left l₁)
  have hbig := hs.big e (by simp)
  have hbounds := hs.bounds e (by simp)
  have hle := takenSize_le (r := r) hbig
  obtain ⟨-, h₂, h₁₂⟩ := List.pairwise_append.mp hs.apart
  by_cases h : 12 < e.size - r
  · have hrem := remainder_big hslice h
    have hinsert : Sound (l₁ ++ ⟨e.start + takenSize r e, e.size - takenSize r e⟩ :: l₂) := by
      apply hdrop.insert hrem
      · constructor
        · exact hbounds.1.trans (Nat.le_add_right _ _)
        · show e.start + takenSize r e + (e.size - takenSize r e) ≤ windowStart
          omega
      · intro f hf
        have := h₁₂ f hf e List.mem_cons_self
        exact this.trans (Nat.le_add_right _ _)
      · intro f hf
        have := (List.pairwise_cons.mp h₂).1 f hf
        show e.start + takenSize r e + (e.size - takenSize r e) ≤ f.start
        omega
    rw [remainder, if_pos h]
    simpa using hinsert
  · rw [remainder, if_neg h]
    simpa using hdrop

/-! ## Taking a hole -/

/-- The last part of `malloc`, with the hole found. -/
def take (s : State) (hole requiredSize : ℕ) : Option (ℕ × State) := do
  let (splitSize, s) ← s.split hole requiredSize
  let (allocatedSize, s) :=
    if splitSize = 0 then (s.size hole, s.removeFromHolesList hole) else (splitSize, s)
  some (add32 hole 4, s.setSize hole allocatedSize)

/-- The holes below and above a listed one. -/
theorem Sound.neighbours (hs : Sound (l₁ ++ e :: l₂)) :
    (∀ f ∈ l₁, f.start + 12 ≤ f.start + f.size ∧ f.start + f.size ≤ e.start) ∧
      ∀ f ∈ l₂, e.start + e.size ≤ f.start := by
  obtain ⟨-, h₂, h₁₂⟩ := List.pairwise_append.mp hs.apart
  constructor
  · intro f hf
    have hbig := hs.big f (List.mem_append_left _ hf)
    exact ⟨by omega, h₁₂ f hf e List.mem_cons_self⟩
  · exact (List.pairwise_cons.mp h₂).1

/-- The header of the hole that is split gets the rest of it for its next hole. -/
theorem split_links {A : Set ℕ} (hs : Holds s (l₁ ++ e :: l₂)) (hsound : Sound (l₁ ++ e :: l₂))
    (hslice : Unsliced r e) (h : 12 < e.size - r)
    (hA : HeadersIn A (l₁ ++ e :: (remainder r e ++ l₂))) :
    ∃ s', s.split e.start r = some (takenSize r e, s') ∧
      Holds s' (l₁ ++ remainder r e ++ l₂) ∧
      s'.next e.start = ((remainder r e ++ l₂).map Extent.start).headD 0 ∧
      s'.prev e.start = (l₁.map Extent.start).getLastD 0 ∧ Touches A s s' := by
  have hrem := remainder_big hslice h
  have hbig := hsound.big e (by simp)
  have htaken := takenSize_big (r := r) hbig
  have hoffset : (if 12 < r then r else 12) = takenSize r e := by rw [takenSize, if_pos h]
  have hremainder : remainder r e = [⟨e.start + takenSize r e, e.size - takenSize r e⟩] := if_pos h
  rw [hremainder] at hA ⊢
  generalize takenSize r e = o at *
  have hbounds := hsound.bounds e (by simp)
  simp only [heapStartAddr, windowStart] at hbounds
  have hsize := hs.sizes e (by simp)
  obtain ⟨hlow, hhigh⟩ := hsound.neighbours
  have hnew : add32 e.start o = e.start + o := add32_of_lt (by omega)
  have hnewSize : sub32 e.size o = e.size - o := sub32_of_le (by omega) (by omega)
  -- The new hole, and its place in the list.
  have hbelow : ∀ f ∈ l₁ ++ [e], f.start + 12 ≤ e.start + o := by
    intro f hf
    rcases List.mem_append.mp hf with hf | hf
    · have := hlow f hf
      omega
    · obtain rfl := List.mem_singleton.mp hf
      omega
  have habove : ∀ f ∈ l₂, e.start + o + 12 ≤ f.start := by
    intro f hf
    have := hhigh f hf
    omega
  have hwords : HeadersIn A (l₁ ++ [e] ++ ⟨e.start + o, e.size - o⟩ :: l₂) := by simpa using hA
  have hsplit : Holds s (l₁ ++ [e] ++ l₂) := by simpa using hs
  obtain ⟨s₂, hinsert, hholds, ht₂⟩ := hsplit.listed (e := ⟨e.start + o, e.size - o⟩)
    (show 0 < e.start + o by omega) (show e.start + o < 2 ^ 32 by omega)
    (show e.size - o < 2 ^ 32 by omega) hbelow habove hwords
  have hmiddle : Holds s₂ (l₁ ++ e :: ⟨e.start + o, e.size - o⟩ :: l₂) := by simpa using hholds
  have hlinks := hmiddle.links_at
  have hfar := hmiddle.apart_others
  obtain ⟨hholds', hr'⟩ := hmiddle.remove
  have hwords' : HeadersIn A (l₁ ++ ⟨e.start + o, e.size - o⟩ :: l₂) := by
    refine hwords.of_starts fun f hf => ⟨f, ?_, rfl⟩
    simp only [List.mem_append, List.mem_cons] at hf ⊢
    tauto
  refine ⟨s₂.removeFromHolesList e.start, ?_, by simpa using hholds', ?_, ?_, ?_⟩
  · have hsub : sub32 e.size r = e.size - r := sub32_of_le (by omega) (by omega)
    simp only [split, hsize, hsub, if_pos h, hoffset, hnew, hnewSize, hinsert,
      Option.bind_eq_bind, Option.bind_some]
  · rw [hr'.next_eq hfar, hlinks.2]
    rfl
  · rw [hr'.prev_eq hfar, hlinks.1]
  · exact ht₂.trans (hwords'.relinked hr')

/-- The hole is off the list, and its header still has the links to its neighbours. -/
theorem take_links {A : Set ℕ} (hs : Holds s (l₁ ++ e :: l₂)) (hsound : Sound (l₁ ++ e :: l₂))
    (hfit : r ≤ e.size) (hslice : Unsliced r e)
    (hA : HeadersIn A (l₁ ++ e :: (remainder r e ++ l₂))) :
    ∃ s', take s e.start r = some (e.start + 4, s') ∧
      Holds s' (l₁ ++ remainder r e ++ l₂) ∧ s'.size e.start = takenSize r e ∧
      s'.next e.start = ((remainder r e ++ l₂).map Extent.start).headD 0 ∧
      s'.prev e.start = (l₁.map Extent.start).getLastD 0 ∧ Touches A s s' := by
  have hbig := hsound.big e (by simp)
  have hbounds := hsound.bounds e (by simp)
  simp only [heapStartAddr, windowStart] at hbounds
  have hle := takenSize_le (r := r) hbig
  have htaken := takenSize_big (r := r) hbig
  have haddr : add32 e.start 4 = e.start + 4 := add32_of_lt (by omega)
  obtain ⟨hlow, hhigh⟩ := hsound.neighbours
  have hrecord : ∀ {s₁ : State} {w : ℕ}, Touches A s s₁ →
      Touches A s (s₁.setSize e.start w) := fun ht => ht.trans (hA.setSize (by simp))
  have hself : Clear e.start e.start := Or.inl rfl
  have hfree : ∀ f ∈ l₁ ++ remainder r e ++ l₂,
      e.start + 4 ≤ f.start ∨ f.start + 12 ≤ e.start := by
    intro f hf
    rcases List.mem_append.mp hf with hf | hf
    · rcases List.mem_append.mp hf with hf | hf
      · have := hlow f hf
        omega
      · unfold remainder at hf
        split_ifs at hf
        · obtain rfl := List.mem_singleton.mp hf
          left
          show e.start + 4 ≤ e.start + takenSize r e
          omega
        · exact absurd hf List.not_mem_nil
    · have := hhigh f hf
      omega
  by_cases h : 12 < e.size - r
  · obtain ⟨s₂, hsplit, hholds, hnext, hprev, ht⟩ := split_links hs hsound hslice h hA
    have hne : takenSize r e ≠ 0 := by omega
    refine ⟨s₂.setSize e.start (takenSize r e), ?_, hholds.setSize hfree,
      size_setSize_self (by omega), ?_, ?_, hrecord ht⟩
    · simp only [take, hsplit, Option.bind_eq_bind, Option.bind_some, if_neg hne, haddr]
    · rw [next_setSize hself, hnext]
    · rw [prev_setSize hself, hprev]
  · have hwhole : takenSize r e = e.size := if_neg h
    have hnone : remainder r e = [] := if_neg h
    have hsize := hs.sizes e (by simp)
    have hsub : sub32 e.size r = e.size - r := sub32_of_le (by omega) hfit
    have hlinks := hs.links_at
    have hfar := hs.apart_others
    obtain ⟨hholds, hr⟩ := hs.remove
    have hwords : HeadersIn A (l₁ ++ l₂) := by
      refine hA.of_starts fun f hf => ⟨f, ?_, rfl⟩
      simp only [List.mem_append, List.mem_cons] at hf ⊢
      tauto
    rw [hnone, List.append_nil] at hfree
    rw [hnone, List.append_nil, hwhole]
    refine ⟨(s.removeFromHolesList e.start).setSize e.start e.size, ?_, hholds.setSize hfree,
      size_setSize_self (by omega), ?_, ?_, hrecord (hwords.relinked hr)⟩
    · simp only [take, split, hsize, hsub, if_neg h, Option.bind_eq_bind, Option.bind_some,
        if_true, haddr]
    · rw [next_setSize hself, hr.next_eq hfar, hlinks.2, List.nil_append]
    · rw [prev_setSize hself, hr.prev_eq hfar, hlinks.1]

theorem headersIn_remainder (hsound : Sound (l₁ ++ e :: l₂)) (hslice : Unsliced r e) :
    HeadersIn (bytesOf (l₁ ++ e :: l₂)) (l₁ ++ e :: (remainder r e ++ l₂)) := by
  have hbig := hsound.big e (by simp)
  have hle := takenSize_le (r := r) hbig
  have hheaders := headersIn_bytesOf hsound.big
  intro f hf a ha ha'
  simp only [List.mem_append, List.mem_cons] at hf
  rcases hf with hf | rfl | hf | hf
  · exact hheaders f (by simp [hf]) a ha ha'
  · exact hheaders f (by simp) a ha ha'
  · unfold remainder at hf
    split_ifs at hf with h
    · obtain rfl := List.mem_singleton.mp hf
      have hrem := remainder_big hslice h
      simp only at ha ha'
      exact ⟨e, by simp, by omega, by omega⟩
    · exact absurd hf List.not_mem_nil
  · exact hheaders f (by simp [hf]) a ha ha'

theorem take_holds (hs : Holds s (l₁ ++ e :: l₂)) (hsound : Sound (l₁ ++ e :: l₂))
    (hfit : r ≤ e.size) (hslice : Unsliced r e) :
    ∃ s', take s e.start r = some (e.start + 4, s') ∧
      Holds s' (l₁ ++ remainder r e ++ l₂) ∧ s'.size e.start = takenSize r e ∧
      Touches (bytesOf (l₁ ++ e :: l₂)) s s' := by
  obtain ⟨s', htake, hholds, hsize, -, -, ht⟩ :=
    take_links hs hsound hfit hslice (headersIn_remainder hsound hslice)
  exact ⟨s', htake, hholds, hsize, ht⟩

/-! ## `malloc` -/

namespace Layout

theorem take (hl : Layout s (l₁ ++ e :: l₂) live lost) (hfit : r ≤ e.size)
    (hslice : Unsliced r e) :
    ∃ s', Heap.take s e.start r = some (e.start + 4, s') ∧
      Layout s' (l₁ ++ remainder r e ++ l₂) (taken r e :: live) lost ∧
      Touches (bytesOf (l₁ ++ e :: l₂)) s s' := by
  have hbig := hl.sound.big e (by simp)
  obtain ⟨s', htake, hholds, hsize, ht⟩ := take_holds hl.holds hl.sound hfit hslice
  have hpages : s'.pages = s.pages := by rw [pages, pages, ht.mapped]
  refine ⟨s', htake, ⟨hholds, sound_taken hl.sound hslice, ?_, ?_, ?_, ?_, ?_, ?_⟩, ht⟩
  · intro c hc
    rcases List.mem_cons.mp hc with rfl | hc
    · exact hsize
    · rw [size_eq_of_confined ht.confined (fun f hf => hl.hole_disjoint_live hf hc)
        (hl.liveBig c hc)]
      exact hl.recorded c hc
  · intro c hc
    rcases List.mem_cons.mp hc with rfl | hc
    · exact takenSize_big hbig
    · exact hl.liveBig c hc
  · intro a
    have hcov := hl.covered a
    have htaken := cover_taken (r := r) hbig a
    rw [hpages, ← hcov]
    simp only [cover_append, cover_cons, cover_nil] at htaken ⊢
    omega
  · intro a
    rw [hpages]
    exact hl.once a
  · rw [ht.mapped, ht.lastPage]
    exact hl.mapped
  · rw [ht.lastPage]
    exact hl.lastPage

end Layout

theorem mem_bytesOf_iff {es : List Extent} {a : ℕ} : a ∈ bytesOf es ↔ 0 < cover es a :=
  cover_pos_iff.symm

theorem Holds.mallocWithin_take {calls : ℕ} (hs : Holds s holes) (hn : n ≠ 0)
    (hwrap : n + 4 < 2 ^ 32) (hfit : fit (n + 4) holes = some e) :
    mallocWithin (calls + 1) s n = take s e.start (n + 4) := by
  have hsum : add32 n 4 = n + 4 := add32_of_lt hwrap
  have hpos : e.start ≠ 0 := (hs.pos (List.mem_of_find?_eq_some hfit)).ne'
  have hfind : s.findHole (n + 4) stepLimit s.holesListHead = some e.start := by
    rw [hs.findHole_eq, hfit]
    rfl
  rw [mallocWithin, if_neg hn]
  simp only [hsum, hfind, Option.bind_eq_bind, Option.bind_some, if_neg hpos, take]

theorem mallocWithin_fit {calls : ℕ} (hl : Layout s holes live lost) (hn : n ≠ 0)
    (hwrap : n + 16 < 2 ^ 32) (hfit : fit (n + 4) holes = some e) :
    mallocWithin (calls + 1) s n = take s e.start (n + 4) :=
  hl.holds.mallocWithin_take hn (by omega) hfit

/-- Where the search ends at `NULL`, the answer is that of the extension. -/
theorem mallocWithin_none {calls : ℕ} (hn : n ≠ 0)
    (hfind : s.findHole (add32 n 4) stepLimit s.holesListHead = some 0) :
    mallocWithin (calls + 1) s n = (s.extendHeap (add32 n 4)).bind fun r =>
      if r.1 then mallocWithin calls r.2 n else some (0, r.2) := by
  rw [mallocWithin, if_neg hn]
  simp only [hfind, Option.bind_eq_bind, Option.bind_some, if_true]

theorem mallocWithin_unfit {calls : ℕ} (hl : Layout s holes live lost) (hn : n ≠ 0)
    (hwrap : n + 16 < 2 ^ 32) (hfit : fit (n + 4) holes = none) :
    mallocWithin (calls + 1) s n = (s.extendHeap (n + 4)).bind fun r =>
      if r.1 then mallocWithin calls r.2 n else some (0, r.2) := by
  have hsum : add32 n 4 = n + 4 := add32_of_lt (by omega)
  have hfind : s.findHole (add32 n 4) stepLimit s.holesListHead = some 0 := by
    rw [hsum, hl.holds.findHole_eq, hfit]
    rfl
  rw [mallocWithin_none hn hfind, hsum]

theorem mallocWithin_extend {calls : ℕ} (hl : Layout s holes live lost) (hn : n ≠ 0)
    (hwrap : n + 16 < 2 ^ 32) (hfit : fit (n + 4) holes = none)
    (hextend : s.extendHeap (n + 4) = some (true, s')) :
    mallocWithin (calls + 1) s n = mallocWithin calls s' n := by
  rw [mallocWithin_unfit hl hn hwrap hfit, hextend]
  rfl

/-- What `malloc` needs: frames when it has to extend the heap, and a hole
that it does not slice too thin. -/
structure Mallocable (s : State) (holes : List Extent) (n : ℕ) : Prop where
  wrap : n + 16 < 2 ^ 32
  supply : fit (n + 4) holes = none → Supplied s (n + 4)
  unsliced : ∀ e, fit (n + 4) holes = some e → Unsliced (n + 4) e

/-- The chunk that `malloc` hands out. -/
def allocated (s : State) (holes : List Extent) (n : ℕ) : Extent :=
  match fit (n + 4) holes with
  | some e => taken (n + 4) e
  | none => taken (n + 4) (newHole s (desiredPages (n + 4)))

/-- The holes that `malloc` leaves. -/
def holesAfter (s : State) (holes : List Extent) (n : ℕ) : List Extent :=
  match fit (n + 4) holes with
  | some e => holes.flatMap fun f => if f = e then remainder (n + 4) e else [f]
  | none => holes ++ remainder (n + 4) (newHole s (desiredPages (n + 4)))

theorem flatMap_of_not_mem {es rest : List Extent} (he : e ∉ es) :
    es.flatMap (fun f => if f = e then rest else [f]) = es := by
  induction es with
  | nil => rfl
  | cons f es ih =>
      have hne : f ≠ e := fun h => he (h ▸ List.mem_cons_self)
      rw [List.flatMap_cons, if_neg hne, ih fun h => he (List.mem_cons_of_mem f h)]
      rfl

theorem flatMap_replace {rest : List Extent} (hs : Sound (l₁ ++ e :: l₂)) :
    (l₁ ++ e :: l₂).flatMap (fun f => if f = e then rest else [f]) = l₁ ++ rest ++ l₂ := by
  have hbig := hs.big e (by simp)
  obtain ⟨hlow, hhigh⟩ := hs.neighbours
  have h₁ : e ∉ l₁ := by
    intro he
    have := hlow e he
    omega
  have h₂ : e ∉ l₂ := by
    intro he
    have := hhigh e he
    omega
  rw [List.flatMap_append, List.flatMap_cons, if_pos rfl, flatMap_of_not_mem h₁,
    flatMap_of_not_mem h₂, List.append_assoc]

/-- `malloc` hands out a chunk of the holes or of new pages, and stores to the
old holes, the new holes and the chunk only. -/
theorem Layout.malloc (hl : Layout s holes live lost) (hn : n ≠ 0) (hm : Mallocable s holes n) :
    ∃ s', s.malloc n = some ((allocated s holes n).start + 4, s') ∧
      Layout s' (holesAfter s holes n) (allocated s holes n :: live) lost ∧
      n + 4 ≤ (allocated s holes n).size ∧ (∀ a, cover s.pages a ≤ cover s'.pages a) ∧
      Memory.Confined (bytesOf (holes ++ allocated s holes n :: holesAfter s holes n))
        s.memory s'.memory := by
  obtain ⟨hwrap, hsupply, hunsliced⟩ := hm
  cases hfit : fit (n + 4) holes with
  | some e =>
      obtain ⟨hle', l₁, l₂, rfl⟩ := fit_split hfit
      have hchunk : allocated s (l₁ ++ e :: l₂) n = taken (n + 4) e := by rw [allocated, hfit]
      have hafter : holesAfter s (l₁ ++ e :: l₂) n = l₁ ++ remainder (n + 4) e ++ l₂ := by
        rw [holesAfter, hfit]
        exact flatMap_replace hl.sound
      obtain ⟨s', htake, hl', ht⟩ := hl.take hle' (hunsliced e hfit)
      rw [hchunk, hafter]
      refine ⟨s', ?_, hl', takenSize_ge hle', fun a => ?_, ht.confined.mono ?_⟩
      · rw [State.malloc, mallocWithin_fit hl hn hwrap hfit, htake]
        rfl
      · rw [pages, pages, ht.mapped]
      · rintro a ⟨f, hf, ha⟩
        exact ⟨f, List.mem_append_left _ hf, ha⟩
  | none =>
      have hsup := hsupply hfit
      obtain ⟨s₁, hextend, hl₁, hgrow, hconf₁⟩ := hl.extendHeap_supplied hsup
      have hpages : desiredPages (n + 4) = (n + 16) / 4096 + 1 := by
        rw [desiredPages, add32_of_lt (by omega)]
      have hchunk : allocated s holes n = taken (n + 4) (newHole s (desiredPages (n + 4))) := by
        rw [allocated, hfit]
      have hafter : holesAfter s holes n =
          holes ++ remainder (n + 4) (newHole s (desiredPages (n + 4))) := by
        rw [holesAfter, hfit]
      obtain ⟨calls, hcalls⟩ : ∃ calls, s.frames.length = calls + 1 := by
        have hfirst := (le_framesFor s _ _).trans hsup.frames
        have hdelivered := congrArg List.length (frames_eq s)
        rw [List.length_append] at hdelivered
        exact Nat.exists_eq_succ_of_ne_zero (by omega)
      rw [hchunk, hafter]
      have hroom : n + 4 ≤ (newHole s (desiredPages (n + 4))).size ∧
          24 ≤ (newHole s (desiredPages (n + 4))).size := by
        show n + 4 ≤ 4096 * desiredPages (n + 4) ∧ 24 ≤ 4096 * desiredPages (n + 4)
        omega
      generalize newHole s (desiredPages (n + 4)) = e at *
      have hfit₁ : fit (n + 4) (holes ++ [e]) = some e := by
        have hnone : holes.find? (fun e => decide (n + 4 ≤ e.size)) = none := hfit
        rw [fit, List.find?_append, hnone, Option.none_or]
        exact List.find?_cons_of_pos (decide_eq_true hroom.1)
      obtain ⟨s', htake, hl', ht⟩ := hl₁.take hroom.1 fun _ => hroom.2
      rw [List.append_nil] at hl'
      have hsub : bytesOf (holes ++ [e]) ⊆
          bytesOf (holes ++ taken (n + 4) e :: (holes ++ remainder (n + 4) e)) := by
        intro a ha
        have htaken := cover_taken (r := n + 4) (e := e) (by omega) a
        rw [mem_bytesOf_iff] at ha ⊢
        simp only [cover_append, cover_cons, cover_nil] at ha htaken ⊢
        omega
      refine ⟨s', ?_, hl', takenSize_ge hroom.1, fun a => ?_,
        (hconf₁.trans ht.confined).mono hsub⟩
      · rw [State.malloc, mallocWithin_extend hl hn hwrap hfit hextend, hcalls,
          mallocWithin_fit hl₁ hn hwrap hfit₁, htake]
        rfl
      · have hmapped : s'.pages = s₁.pages := by rw [pages, pages, ht.mapped]
        rw [hmapped, hgrow]
        exact Nat.le_add_right _ _

end AviKernel.Heap
