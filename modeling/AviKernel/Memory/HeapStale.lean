import AviKernel.Memory.HeapContents

/-!
# What a released chunk holds

`free` writes a header to the chunk, and `malloc` may cut a header into it.  The links in
these headers follow from the list of holes; the other bytes stay.
-/

namespace AviKernel.Heap

open State Holds

variable {s t : State} {holes lost l₁ l₂ m₁ m₂ front : List Extent} {c d e q : Extent} {A : Set ℕ}
  {live : List ℕ} {a i n p r : ℕ}

/-! ## The links of a header -/

/-- The first hole above an address. -/
def above (holes : List Extent) (a : ℕ) : ℕ :=
  ((holes.filter fun e => decide (a < e.start)).map Extent.start).headD 0

/-- The last hole below an address. -/
def below (holes : List Extent) (a : ℕ) : ℕ :=
  ((holes.filter fun e => decide (e.start < a)).map Extent.start).getLastD 0

theorem above_append (hlow : ∀ f ∈ l₁, f.start ≤ a) (hhigh : ∀ f ∈ l₂, a < f.start) :
    above (l₁ ++ l₂) a = (l₂.map Extent.start).headD 0 := by
  have h₁ : l₁.filter (fun e => decide (a < e.start)) = [] :=
    List.filter_eq_nil_iff.mpr fun f hf => by simpa using hlow f hf
  have h₂ : l₂.filter (fun e => decide (a < e.start)) = l₂ :=
    List.filter_eq_self.mpr fun f hf => decide_eq_true (hhigh f hf)
  rw [above, List.filter_append, h₁, h₂, List.nil_append]

theorem above_middle (hlow : ∀ f ∈ l₁, f.start ≤ a) (he : e.start ≤ a)
    (hhigh : ∀ f ∈ l₂, a < f.start) : above (l₁ ++ e :: l₂) a = (l₂.map Extent.start).headD 0 := by
  have hsplit : l₁ ++ e :: l₂ = (l₁ ++ [e]) ++ l₂ := by simp
  rw [hsplit]
  apply above_append _ hhigh
  intro f hf
  rcases List.mem_append.mp hf with hf | hf
  · exact hlow f hf
  · rw [List.mem_singleton.mp hf]
    exact he

theorem below_append (hlow : ∀ f ∈ l₁, f.start < a) (hhigh : ∀ f ∈ l₂, a ≤ f.start) :
    below (l₁ ++ l₂) a = (l₁.map Extent.start).getLastD 0 := by
  have h₁ : l₁.filter (fun e => decide (e.start < a)) = l₁ :=
    List.filter_eq_self.mpr fun f hf => decide_eq_true (hlow f hf)
  have h₂ : l₂.filter (fun e => decide (e.start < a)) = [] :=
    List.filter_eq_nil_iff.mpr fun f hf => by simpa using hhigh f hf
  rw [below, List.filter_append, h₁, h₂, List.append_nil]

/-- Byte `i` of the links of a header at `h`. -/
def linkByte (holes : List Extent) (h i : ℕ) : UInt8 :=
  if i < 4 then Memory.wordByte (above holes h) i else Memory.wordByte (below holes h) (i - 4)

/-- Byte `i` of the header of a listed hole. -/
def headerByte (holes : List Extent) (e : Extent) (i : ℕ) : UInt8 :=
  if i < 4 then Memory.wordByte e.size i else linkByte holes e.start (i - 4)

theorem byte_eq_linkByte (hnext : s.next a = above holes a) (hprev : s.prev a = below holes a)
    (hi : i < 8) : s.memory.byte (a + 4 + i) = linkByte holes a i := by
  unfold linkByte
  split_ifs with hlow
  · rw [← hnext]
    exact Memory.byte_eq_wordByte hlow
  · have hplace : a + 4 + i = a + 8 + (i - 4) := by omega
    rw [← hprev, hplace]
    exact Memory.byte_eq_wordByte (by omega)

/-- A listed header has its own links. -/
theorem Holds.links_eq (hs : Holds s (l₁ ++ e :: l₂)) :
    s.next e.start = above (l₁ ++ e :: l₂) e.start ∧
      s.prev e.start = below (l₁ ++ e :: l₂) e.start := by
  have hlinks := hs.links_at
  have hpair := List.pairwise_map.mp hs.list.apart
  obtain ⟨-, h₂, h₁₂⟩ := List.pairwise_append.mp hpair
  have hlow : ∀ f ∈ l₁, f.start + 12 ≤ e.start := fun f hf => h₁₂ f hf e List.mem_cons_self
  have hhigh : ∀ f ∈ l₂, e.start + 12 ≤ f.start := (List.pairwise_cons.mp h₂).1
  rw [hlinks.1, hlinks.2]
  constructor
  · symm
    apply above_middle _ le_rfl
    · intro f hf
      have := hhigh f hf
      omega
    · intro f hf
      have := hlow f hf
      omega
  · symm
    apply below_append
    · intro f hf
      have := hlow f hf
      omega
    · intro f hf
      rcases List.mem_cons.mp hf with rfl | hf
      · exact le_rfl
      · have := hhigh f hf
        omega

theorem Holds.byte_header (hs : Holds s holes) (he : e ∈ holes) (hi : i < 12) :
    s.memory.byte (e.start + i) = headerByte holes e i := by
  obtain ⟨l₁, l₂, rfl⟩ := List.append_of_mem he
  obtain ⟨hnext, hprev⟩ := hs.links_eq
  unfold headerByte
  split_ifs with hsize
  · rw [← hs.sizes e he]
    exact Memory.byte_eq_wordByte hsize
  · have hplace : e.start + i = e.start + 4 + (i - 4) := by omega
    rw [hplace]
    exact byte_eq_linkByte hnext hprev (by omega)

/-- The addresses of the headers. -/
def headersOf (es : List Extent) : Set ℕ := {a | ∃ e ∈ es, e.start ≤ a ∧ a < e.start + 12}

theorem headersIn_headersOf : HeadersIn (headersOf holes) holes := fun e he _ h₁ h₂ =>
  ⟨e, he, h₁, h₂⟩

/-! ## The list after `free` -/

/-- The holes that `free` leaves, whichever side of the chunk they are on. -/
def released (holes : List Extent) (c : Extent) : List Extent :=
  releasedHoles (holes.filter fun e => decide (e.start < c.start)) c
    (holes.filter fun e => decide (c.start < e.start))

/-- A hole ends where the chunk starts. -/
def Joins (holes : List Extent) (c : Extent) : Prop := ∃ q ∈ holes, q.start + q.size = c.start

instance (holes : List Extent) (c : Extent) : Decidable (Joins holes c) := by
  unfold Joins
  infer_instance

theorem released_append (hlow : ∀ f ∈ l₁, f.start < c.start) (hhigh : ∀ f ∈ l₂, c.start < f.start) :
    released (l₁ ++ l₂) c = releasedHoles l₁ c l₂ := by
  have h₁ : (l₁ ++ l₂).filter (fun e => decide (e.start < c.start)) = l₁ := by
    rw [List.filter_append, List.filter_eq_self.mpr fun f hf => decide_eq_true (hlow f hf),
      List.filter_eq_nil_iff.mpr fun f hf => by simpa using (hhigh f hf).le, List.append_nil]
  have h₂ : (l₁ ++ l₂).filter (fun e => decide (c.start < e.start)) = l₂ := by
    rw [List.filter_append, List.filter_eq_nil_iff.mpr fun f hf => by simpa using (hlow f hf).le,
      List.filter_eq_self.mpr fun f hf => decide_eq_true (hhigh f hf), List.nil_append]
  rw [released, h₁, h₂]

section Released

variable (hsound : Sound (l₁ ++ c :: l₂))

include hsound

theorem Sound.released_eq : Heap.released (l₁ ++ l₂) c = releasedHoles l₁ c l₂ := by
  obtain ⟨hlow, hhigh⟩ := hsound.neighbours
  have hbig := hsound.big c (by simp)
  apply released_append
  · intro f hf
    have := hlow f hf
    omega
  · intro f hf
    have := hhigh f hf
    omega

theorem Sound.sound_released : Sound (Heap.released (l₁ ++ l₂) c) := by
  rw [hsound.released_eq]
  exact hsound.released

/-- Only the last hole below the chunk can end at it. -/
theorem Sound.joins_iff : Joins (l₁ ++ l₂) c ↔ ∃ q ∈ l₁.getLast?, q.start + q.size = c.start := by
  obtain ⟨hlow, hhigh⟩ := hsound.neighbours
  have hbig := hsound.big c (by simp)
  constructor
  · rintro ⟨q, hq, hend⟩
    rcases List.mem_append.mp hq with hq | hq
    · rcases List.eq_nil_or_concat' l₁ with rfl | ⟨front, d, rfl⟩
      · exact absurd hq List.not_mem_nil
      · rcases List.mem_append.mp hq with hq | hq
        · have hapart := (List.pairwise_append.mp hsound.apart).1
          have := (List.pairwise_append.mp hapart).2.2 q hq d (by simp)
          have := hlow d (by simp)
          omega
        · exact ⟨d, by simp, List.mem_singleton.mp hq ▸ hend⟩
    · have := hhigh q hq
      omega
  · rintro ⟨q, hq, hend⟩
    exact ⟨q, List.mem_append_left l₂ (List.mem_of_getLast? hq), hend⟩

/-- The hole that has the chunk, and the holes below and above it. -/
theorem Sound.released_split : ∃ f d, Heap.released (l₁ ++ l₂) c = f ++ d :: skipNext c l₂ ∧
    c.size ≤ d.size ∧ (¬ Joins (l₁ ++ l₂) c ∧ f = l₁ ∧ d.start = c.start ∨
      Joins (l₁ ++ l₂) c ∧ ∃ q, l₁ = f ++ [q] ∧ d.start = q.start) := by
  rw [hsound.released_eq, hsound.joins_iff]
  obtain ⟨d, hjoin, hstart, hsize⟩ := joinNext_eq c l₂
  rcases List.eq_nil_or_concat' l₁ with rfl | ⟨front, q, rfl⟩
  · exact ⟨[], d, hjoin, hsize, Or.inl ⟨by simp, rfl, hstart⟩⟩
  · by_cases hadj : q.start + q.size = c.start
    · refine ⟨front, ⟨q.start, q.size + c.size⟩, (released_of_adjacent hadj).1,
        Nat.le_add_left c.size q.size, Or.inr ⟨⟨q, by simp, hadj⟩, q, rfl, rfl⟩⟩
    · refine ⟨front ++ [q], d, ?_, hsize, Or.inl ⟨by simpa using hadj, rfl, hstart⟩⟩
      rw [(released_of_apart hadj).1, hjoin]

/-- A released hole starts below the chunk, above it, or with it. -/
theorem Sound.released_start (he : e ∈ Heap.released (l₁ ++ l₂) c) :
    e.start + 12 ≤ c.start ∨ ¬ Joins (l₁ ++ l₂) c ∧ e.start = c.start ∨
      c.start + c.size ≤ e.start := by
  obtain ⟨hlow, hhigh⟩ := hsound.neighbours
  obtain ⟨f, d, heq, -, hcases⟩ := hsound.released_split
  rw [heq] at he
  rcases List.mem_append.mp he with he | he
  · have hmem : e ∈ l₁ := by
      rcases hcases with ⟨-, rfl, -⟩ | ⟨-, q, rfl, -⟩
      · exact he
      · exact List.mem_append_left [q] he
    have := hlow e hmem
    omega
  · rcases List.mem_cons.mp he with rfl | he
    · rcases hcases with ⟨hapart, -, hstart⟩ | ⟨-, q, rfl, hstart⟩
      · exact Or.inr (Or.inl ⟨hapart, hstart⟩)
      · have := hlow q (by simp)
        omega
    · exact Or.inr (Or.inr (hhigh e (skipNext_sublist.subset he)))

end Released

/-! ## The bytes after `free` -/

/-- The list that the links of the released header are those of: a chunk that joins the
hole below it is taken off the list again. -/
def staleList (holes : List Extent) (c : Extent) : List Extent :=
  if Joins holes c then holes else released holes c

/-- The byte that `free` stores at position `i` of the text in a chunk. -/
def freedByte (holes : List Extent) (c : Extent) (i : ℕ) : Option UInt8 :=
  if i < 8 then some (linkByte (staleList holes c) c.start i) else none

/-- The links are those of the hole, or, once it is off the list, of the chunk. -/
theorem Sound.stale_links (hsound : Sound (l₁ ++ c :: l₂)) :
    above (staleList (l₁ ++ l₂) c) c.start = ((linkedAbove l₁ c l₂).map Extent.start).headD 0 ∧
      below (staleList (l₁ ++ l₂) c) c.start = (l₁.map Extent.start).getLastD 0 := by
  have hbig := hsound.big c (by simp)
  obtain ⟨hlow, hhigh⟩ := hsound.neighbours
  have hbelow : ∀ f ∈ l₁, f.start < c.start := by
    intro f hf
    have := hlow f hf
    omega
  have habove : ∀ f ∈ l₂, c.start < f.start := by
    intro f hf
    have := hhigh f hf
    omega
  have hlinked : linkedAbove l₁ c l₂ = if Joins (l₁ ++ l₂) c then l₂ else skipNext c l₂ := by
    rw [if_congr hsound.joins_iff rfl rfl, linkedAbove]
    cases l₁.getLast? <;> simp
  rw [hlinked, staleList]
  by_cases hjoins : Joins (l₁ ++ l₂) c
  · rw [if_pos hjoins, if_pos hjoins]
    exact ⟨above_append (fun f hf => (hbelow f hf).le) habove,
      below_append hbelow fun f hf => (habove f hf).le⟩
  · obtain ⟨f, d, heq, -, hcases⟩ := hsound.released_split
    obtain ⟨-, rfl, hstart⟩ := hcases.resolve_right fun h => hjoins h.1
    rw [if_neg hjoins, if_neg hjoins, heq]
    have hskip : ∀ g ∈ skipNext c l₂, c.start < g.start := fun g hg =>
      habove g (skipNext_sublist.subset hg)
    refine ⟨above_middle (fun g hg => (hbelow g hg).le) hstart.le hskip,
      below_append hbelow fun g hg => ?_⟩
    rcases List.mem_cons.mp hg with rfl | hg
    · exact hstart.ge
    · exact (hskip g hg).le

/-- `free` stores the links in the first eight bytes of the text, and no other. -/
theorem Holds.free_bytes (hs : Holds s (l₁ ++ l₂)) (hsound : Sound (l₁ ++ c :: l₂))
    (hsize : s.size c.start = c.size) (hzero : l₁ = [] → s.memory.load 0 ≠ c.start) :
    ∃ t, s.free (c.start + 4) = some t ∧ Holds t (released (l₁ ++ l₂) c) ∧
      ∀ i, i + 4 < c.size → t.memory.byte (c.start + 4 + i) =
        (freedByte (l₁ ++ l₂) c i).getD (s.memory.byte (c.start + 4 + i)) := by
  obtain ⟨t, hfree, hholds, hnext, hprev, ht⟩ :=
    hs.free_links hsound hsize hzero headersIn_headersOf
  obtain ⟨habove, hbelow⟩ := hsound.stale_links
  refine ⟨t, hfree, ?_, fun i hi => ?_⟩
  · rw [hsound.released_eq]
    exact hholds
  · unfold freedByte
    split_ifs with hlink
    · exact byte_eq_linkByte (hnext.trans habove.symm) (hprev.trans hbelow.symm) hlink
    · apply ht.confined.byte_eq
      rintro ⟨e, he, h₁, h₂⟩
      obtain ⟨hlow, hhigh⟩ := hsound.neighbours
      rcases List.mem_append.mp he with he | he
      · have := hlow e he
        omega
      · rcases List.mem_cons.mp he with rfl | he
        · omega
        · have := hhigh e he
          omega

/-! ## The bytes after `malloc` -/

/-- The header of the hole covers the address. -/
def Heads (a : ℕ) (e : Extent) : Prop := e.start ≤ a ∧ a < e.start + 12

instance (a : ℕ) : DecidablePred (Heads a) := fun _ => inferInstanceAs (Decidable (_ ∧ _))

/-- The byte that `free` and `malloc` after it have stored at position `i` of the text in a
chunk, `after` being the list they leave. -/
def reusedByte (holes : List Extent) (c : Extent) (after : List Extent) (i : ℕ) : Option UInt8 :=
  match after.find? fun e => decide (Heads (c.start + 4 + i) e) with
  | some e => some (headerByte after e (c.start + 4 + i - e.start))
  | none =>
      if i < 8 then some (linkByte (if Joins holes c then holes else after) c.start i) else none

/-- The hole that is taken keeps its links, which are of use where it is the chunk. -/
theorem Sound.taken_links (hsound : Sound (m₁ ++ e :: m₂)) :
    above (m₁ ++ remainder r e ++ m₂) e.start =
        ((remainder r e ++ m₂).map Extent.start).headD 0 ∧
      below (m₁ ++ remainder r e ++ m₂) e.start = (m₁.map Extent.start).getLastD 0 := by
  have hbig := hsound.big e (by simp)
  have htaken := takenSize_big (r := r) hbig
  obtain ⟨hlow, hhigh⟩ := hsound.neighbours
  have hbelow : ∀ f ∈ m₁, f.start < e.start := by
    intro f hf
    have := hlow f hf
    omega
  have habove : ∀ f ∈ remainder r e ++ m₂, e.start < f.start := by
    intro f hf
    rcases List.mem_append.mp hf with hf | hf
    · unfold remainder at hf
      split_ifs at hf
      · obtain rfl := List.mem_singleton.mp hf
        show e.start < e.start + takenSize r e
        omega
      · exact absurd hf List.not_mem_nil
    · have := hhigh f hf
      omega
  rw [List.append_assoc]
  exact ⟨above_append (fun f hf => (hbelow f hf).le) habove,
    below_append hbelow fun f hf => (habove f hf).le⟩

/-- A chunk on the list has its links under its own header. -/
theorem Sound.joins_of_not_heads (hsound : Sound (l₁ ++ c :: l₂)) (hi : i < 8)
    (hnone : ∀ f ∈ Heap.released (l₁ ++ l₂) c, ¬ Heads (c.start + 4 + i) f) :
    Joins (l₁ ++ l₂) c := by
  by_contra hjoins
  obtain ⟨f, d, heq, -, hcases⟩ := hsound.released_split
  obtain ⟨-, -, hstart⟩ := hcases.resolve_right fun h => hjoins h.1
  have hd : d ∈ Heap.released (l₁ ++ l₂) c := by simp [heq]
  exact hnone d hd ⟨by omega, by omega⟩

theorem Holds.take_bytes (ht : Holds t (m₁ ++ e :: m₂)) (hsound : Sound (l₁ ++ c :: l₂))
    (hsplit : released (l₁ ++ l₂) c = m₁ ++ e :: m₂) (hfit : r ≤ e.size) (hslice : Unsliced r e)
    (hfreed : ∀ i, i + 4 < c.size → t.memory.byte (c.start + 4 + i) =
      (freedByte (l₁ ++ l₂) c i).getD (s.memory.byte (c.start + 4 + i))) :
    ∃ t', take t e.start r = some (e.start + 4, t') ∧ ∀ i, i + 4 < c.size →
      t'.memory.byte (c.start + 4 + i) =
        (reusedByte (l₁ ++ l₂) c (m₁ ++ remainder r e ++ m₂) i).getD
          (s.memory.byte (c.start + 4 + i)) := by
  have hsound' : Sound (m₁ ++ e :: m₂) := hsplit ▸ hsound.sound_released
  obtain ⟨t', htake, hholds, -, hnext, hprev, hstores⟩ :=
    take_links ht hsound' hfit hslice headersIn_headersOf
  obtain ⟨habove, hbelow⟩ := hsound'.taken_links (r := r)
  refine ⟨t', htake, fun i hi => ?_⟩
  unfold reusedByte
  cases hfind : (m₁ ++ remainder r e ++ m₂).find?
      fun f => decide (Heads (c.start + 4 + i) f) with
  | some f =>
      -- The byte is under the header of a listed hole.
      have hheads : Heads (c.start + 4 + i) f := by simpa using List.find?_some hfind
      obtain ⟨h₁, h₂⟩ := hheads
      have hplace : c.start + 4 + i = f.start + (c.start + 4 + i - f.start) := by omega
      have hbyte := hholds.byte_header (List.mem_of_find?_eq_some hfind)
        (i := c.start + 4 + i - f.start) (by omega)
      rw [← hplace] at hbyte
      exact hbyte
  | none =>
      have hnone : ∀ f ∈ m₁ ++ remainder r e ++ m₂, ¬ Heads (c.start + 4 + i) f := fun f hf =>
        of_decide_eq_false (by simpa using List.find?_eq_none.mp hfind f hf)
      have hmem : e ∈ released (l₁ ++ l₂) c := by simp [hsplit]
      by_cases hheads : Heads (c.start + 4 + i) e
      · -- It is under the header of the hole that was taken, which is the chunk then.
        obtain ⟨h₁, h₂⟩ := hheads
        have hstart := hsound.released_start hmem
        obtain ⟨hjoins, hstart⟩ : ¬ Joins (l₁ ++ l₂) c ∧ e.start = c.start := by
          rcases hstart with hlow | hself | hhigh
          · omega
          · exact hself
          · omega
        dsimp only
        rw [if_pos (by omega), if_neg hjoins, ← hstart]
        exact byte_eq_linkByte (hnext.trans habove.symm) (hprev.trans hbelow.symm) (by omega)
      · -- It is under none, and `malloc` has not stored there.
        have hkeep : t'.memory.byte (c.start + 4 + i) = t.memory.byte (c.start + 4 + i) := by
          apply hstores.confined.byte_eq
          rintro ⟨f, hf, hf'⟩
          simp only [List.mem_append, List.mem_cons] at hf
          rcases hf with hf | rfl | hf | hf
          · exact hnone f (by simp [hf]) hf'
          · exact hheads hf'
          · exact hnone f (by simp [hf]) hf'
          · exact hnone f (by simp [hf]) hf'
        dsimp only
        rw [hkeep, hfreed i hi, freedByte]
        by_cases hlink : i < 8
        · have hjoins : Joins (l₁ ++ l₂) c := by
            apply hsound.joins_of_not_heads hlink
            rw [hsplit]
            intro f hf
            simp only [List.mem_append, List.mem_cons] at hf
            rcases hf with hf | rfl | hf
            · exact hnone f (by simp [hf])
            · exact hheads
            · exact hnone f (by simp [hf])
          rw [if_pos hlink, if_pos hlink, staleList, if_pos hjoins, if_pos hjoins]
        · rw [if_neg hlink, if_neg hlink]

/-- The first hole with room for a chunk that has been released does not start above it. -/
theorem Sound.fit_released (hsound : Sound (l₁ ++ c :: l₂)) (hfit : r ≤ c.size) :
    ∃ e, fit r (Heap.released (l₁ ++ l₂) c) = some e ∧ e.start ≤ c.start := by
  obtain ⟨f, d, heq, hsize, hcases⟩ := hsound.released_split
  have hsound' := hsound.sound_released
  have hd : d ∈ Heap.released (l₁ ++ l₂) c := by simp [heq]
  have hle : d.start ≤ c.start := by
    rcases hcases with ⟨-, -, hstart⟩ | ⟨-, q, rfl, hstart⟩
    · exact hstart.le
    · have := hsound.neighbours.1 q (by simp)
      omega
  obtain ⟨e, he⟩ := exists_fit hd (hfit.trans hsize)
  refine ⟨e, he, ?_⟩
  obtain ⟨-, m₁, m₂, hsplit, hfirst⟩ := List.find?_eq_some_iff_append.mp he
  rw [hsplit] at hsound' hd
  rcases List.mem_append.mp hd with hd | hd
  · have := hfirst d hd
    simp only [Bool.not_eq_true', decide_eq_false_iff_not] at this
    omega
  · rcases List.mem_cons.mp hd with rfl | hd
    · exact hle
    · have := hsound'.neighbours.2 d hd
      omega

theorem Holds.malloc_bytes (ht : Holds t (released (l₁ ++ l₂) c)) (hsound : Sound (l₁ ++ c :: l₂))
    (hn : n ≠ 0) (hroom : n + 4 ≤ c.size)
    (hslice : ∀ e ∈ fit (n + 4) (released (l₁ ++ l₂) c), Unsliced (n + 4) e)
    (hfreed : ∀ i, i + 4 < c.size → t.memory.byte (c.start + 4 + i) =
      (freedByte (l₁ ++ l₂) c i).getD (s.memory.byte (c.start + 4 + i))) :
    ∃ q t', t.malloc n = some (q, t') ∧ q ≠ 0 ∧ q ≤ c.start + 4 ∧ ∀ i, i + 4 < c.size →
      t'.memory.byte (c.start + 4 + i) =
        (reusedByte (l₁ ++ l₂) c (holesAfter s (released (l₁ ++ l₂) c) n) i).getD
          (s.memory.byte (c.start + 4 + i)) := by
  obtain ⟨e, hfit, hle⟩ := hsound.fit_released hroom
  have hbounds := hsound.bounds c (by simp)
  simp only [windowStart] at hbounds
  have hmalloc : t.malloc n = take t e.start (n + 4) := ht.mallocWithin_take hn (by omega) hfit
  have hunsliced := hslice e hfit
  obtain ⟨hsize, m₁, m₂, hsplit⟩ := fit_split hfit
  have hsound' : Sound (m₁ ++ e :: m₂) := hsplit ▸ hsound.sound_released
  have hafter : holesAfter s (released (l₁ ++ l₂) c) n = m₁ ++ remainder (n + 4) e ++ m₂ := by
    rw [holesAfter, hfit, hsplit]
    exact flatMap_replace hsound'
  rw [hsplit] at ht
  obtain ⟨t', htake, hbytes⟩ := ht.take_bytes hsound hsplit hsize hunsliced hfreed
  rw [hafter]
  exact ⟨e.start + 4, t', hmalloc.trans htake, by omega, by omega, hbytes⟩

/-! ## The bytes of a chunk in use -/

namespace Layout

/-- The holes below and above a chunk in use. -/
theorem around (hl : Layout s holes (live.map (chunk s)) lost) (hp : p ∈ live) :
    ∃ l₁ l₂, holes = l₁ ++ l₂ ∧ Sound (l₁ ++ chunk s p :: l₂) ∧ (chunk s p).start + 4 = p := by
  have hmem : chunk s p ∈ live.map (chunk s) := List.mem_map_of_mem hp
  have hstart := (hl.pointer_bounds hp).1
  simp only [heapStartAddr] at hstart
  obtain ⟨l₁, l₂, rfl, hlow, hhigh⟩ := hl.split_at hmem
  refine ⟨l₁, l₂, rfl, hl.sound.insert (hl.liveBig _ hmem) (hl.live_bounds hmem) hlow hhigh, ?_⟩
  show p - 4 + 4 = p
  omega

theorem free_bytes (hl : Layout s holes (live.map (chunk s)) lost) (hp : p ∈ live)
    (hanchored : Anchored s holes p) :
    ∃ t, s.free p = some t ∧ Holds t (released holes (chunk s p)) ∧
      ∀ i, i + 4 < (chunk s p).size → t.memory.byte (p + i) =
        (freedByte holes (chunk s p) i).getD (s.memory.byte (p + i)) := by
  obtain ⟨l₁, l₂, rfl, hsound, hpointer⟩ := hl.around hp
  have hbig := hsound.big (chunk s p) (by simp)
  have hzero : l₁ = [] → s.memory.load 0 ≠ (chunk s p).start := by
    rintro rfl
    apply hanchored
    intro e he
    have habove := hsound.neighbours.2 e he
    simp only [chunk] at habove hbig
    omega
  have hfreed := hl.holds.free_bytes hsound rfl hzero
  rw [hpointer] at hfreed
  exact hfreed

theorem malloc_bytes (hl : Layout s holes (live.map (chunk s)) lost) (hp : p ∈ live)
    (ht : Holds t (released holes (chunk s p))) (hn : n ≠ 0) (hroom : n + 4 ≤ (chunk s p).size)
    (hslice : ∀ e ∈ fit (n + 4) (released holes (chunk s p)), Unsliced (n + 4) e)
    (hfreed : ∀ i, i + 4 < (chunk s p).size → t.memory.byte (p + i) =
      (freedByte holes (chunk s p) i).getD (s.memory.byte (p + i))) :
    ∃ q t', t.malloc n = some (q, t') ∧ q ≠ 0 ∧ q ≤ p ∧ ∀ i, i + 4 < (chunk s p).size →
      t'.memory.byte (p + i) =
        (reusedByte holes (chunk s p) (holesAfter s (released holes (chunk s p)) n) i).getD
          (s.memory.byte (p + i)) := by
  obtain ⟨l₁, l₂, rfl, hsound, hpointer⟩ := hl.around hp
  rw [← hpointer] at hfreed
  have hbytes := ht.malloc_bytes hsound hn hroom hslice hfreed
  rw [hpointer] at hbytes
  exact hbytes

/-- `realloc` copies the text before it releases the chunk, in which the links are those of
the list after `malloc`. -/
theorem realloc_bytes (hl : Layout s holes (live.map (chunk s)) lost) (hp : p ∈ live) (hn : n ≠ 0)
    (hm : Mallocable s holes n) (hanchored : Anchored s (holesAfter s holes n) p) :
    ∃ q t, s.realloc p n = some (q, t) ∧ q ≠ 0 ∧ q + n < 2 ^ 32 ∧
      (q + n ≤ p ∨ p + (chunk s p).size ≤ q) ∧
      (∀ i < n, i + 4 < (chunk s p).size → t.memory.byte (q + i) = s.memory.byte (p + i)) ∧
      ∀ i, i + 4 < (chunk s p).size → t.memory.byte (p + i) =
        (freedByte (holesAfter s holes n) (chunk s p) i).getD (s.memory.byte (p + i)) := by
  have hstart := (hl.pointer_bounds hp).1
  simp only [heapStartAddr] at hstart
  have hp0 : p ≠ 0 := by omega
  obtain ⟨q, s₁, t, -, -, hmoved, hl₁, -, -⟩ := realloc_spec hl hp hn hm hanchored
  have hcopy := hl.bytesToCopy_eq (n := n) hp
  have hroom := hmoved.room
  have hqp : q ≠ p := fun h => hmoved.fresh (h ▸ hp)
  have hp₁ : p ∈ q :: live := List.mem_cons_of_mem q hp
  have hdisjoint := hl₁.pointers_disjoint List.mem_cons_self hp₁ hqp
  rw [hmoved.sameBefore p hp] at hdisjoint
  have hqstart := (hl₁.pointer_bounds List.mem_cons_self).1
  have hqend := (hl₁.live_bounds (List.mem_map_of_mem List.mem_cons_self)).2
  simp only [heapStartAddr] at hqstart
  refine ⟨q, t, hmoved.called, hmoved.nonnull, ?_, ?_, ?_, ?_⟩
  · simp only [chunk, windowStart] at hqend hroom
    omega
  · simp only [Extent.Disjoint, chunk] at hdisjoint hroom ⊢
    omega
  · intro i hi hin
    exact hmoved.byte_copied hl hl₁ hp (by omega) hin (by omega)
  · -- The release, with the links of the list after `malloc`.
    obtain ⟨r, s₂, hmalloc, hl₂, hr, hroom₂, hsame₂, -, hconf₂⟩ := malloc_spec hl hn hm
    have hlen : bytesToCopy s p n ≤ n := bytesToCopy_le
    obtain ⟨hl₃, hsame₃, hconf₃⟩ := memcpy_spec p (bytesToCopy s p n) hl₂ List.mem_cons_self
      (by omega)
    have hanchored₃ : Anchored (s₂.memcpy r p (bytesToCopy s p n)) (holesAfter s holes n) p := by
      intro hbelow
      rw [hl₂.load_zero_of_stored List.mem_cons_self hconf₃, hl.load_zero_of_malloc hl₂ hconf₂]
      exact hanchored hbelow
    have hsame : chunk (s₂.memcpy r p (bytesToCopy s p n)) p = chunk s p :=
      (hsame₃ p (List.mem_cons_of_mem r hp)).trans (hsame₂ p hp)
    obtain ⟨t', hfree, -, hbytes⟩ := hl₃.free_bytes (List.mem_cons_of_mem r hp) hanchored₃
    have hcopied : (if sub32 (s.size (sub32 p 4)) 4 < n then sub32 (s.size (sub32 p 4)) 4 else n) =
        bytesToCopy s p n := rfl
    have hcalled : s.realloc p n = some (r, t') := by
      simp only [realloc, if_neg hp0, if_neg hn, hmalloc, Option.bind_eq_bind, Option.bind_some,
        if_neg hr, hcopied, hfree]
    obtain ⟨-, rfl⟩ := Prod.mk.inj (Option.some.inj (hmoved.called.symm.trans hcalled))
    intro i hi
    rw [hsame] at hbytes
    have hin : p + i ∈ chunk s p := by
      simp only [chunk, Extent.mem_mk] at hi ⊢
      omega
    have hapart := hl.stores_apart hl₂ hp (hsame₂ p hp) hin
    have hcopy' : p + i ∉ bytesOf [chunk s₂ r] := by
      rintro ⟨e, he, hin'⟩
      obtain rfl := List.mem_singleton.mp he
      exact hapart ⟨chunk s₂ r, by simp, hin'⟩
    rw [hbytes i hi, hconf₃.byte_eq hcopy', hconf₂.byte_eq hapart]

end Layout

end AviKernel.Heap
