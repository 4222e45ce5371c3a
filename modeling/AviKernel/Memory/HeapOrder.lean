import AviKernel.Memory.HeapExhaustion

/-!
# The order of releases

A release that loses no hole joins the chunk with the holes on one side of it.
What several of them leave can be told from the holes at the start and the
chunks alone: the addresses that are covered, and the ones where a hole starts.
Two orders in which no chunk is released directly between two holes therefore
leave the same list.
-/

namespace AviKernel.Heap

open State Holds

variable {holes hs lost l₁ l₂ : List Extent} {c e n q : Extent} {F : Set Extent} {a p : ℕ}

/-! ## One release -/

theorem starts_joinNext (hs : InOrder (c :: l₂)) : (∃ e ∈ joinNext c l₂, e.start = a) ↔
    c.start = a ∨ (∃ e ∈ l₂, e.start = a) ∧ c.start + c.size ≠ a := by
  cases l₂ with
  | nil => simp [joinNext]
  | cons n rest =>
      have hn := hs.above (f := n) List.mem_cons_self
      have hpos := hs.tail.pos n List.mem_cons_self
      have hrest : ∀ e ∈ rest, n.start < e.start := by
        intro e he
        have := hs.tail.above he
        omega
      by_cases hadj : c.start + c.size = n.start
      · have hne : (∃ e ∈ rest, e.start = a) → n.start ≠ a := by
          rintro ⟨e, he, rfl⟩
          have := hrest e he
          omega
        have hdrop : (n.start = a ∨ ∃ e ∈ rest, e.start = a) ∧ n.start ≠ a ↔
            ∃ e ∈ rest, e.start = a :=
          ⟨fun h => h.1.resolve_left h.2, fun h => ⟨Or.inr h, hne h⟩⟩
        rw [joinNext, if_pos hadj, hadj]
        simp only [List.exists_mem_cons_iff, hdrop]
      · have hne : (∃ e ∈ n :: rest, e.start = a) → c.start + c.size ≠ a := by
          rintro ⟨e, he, rfl⟩
          rcases List.mem_cons.mp he with rfl | he
          · exact hadj
          · have := hrest e he
            omega
        rw [joinNext, if_neg hadj, List.exists_mem_cons_iff, and_iff_left_of_imp hne]

theorem skipNext_of_apart (hapart : ∀ e ∈ l₂, c.start + c.size ≠ e.start) :
    skipNext c l₂ = l₂ := by
  cases l₂ with
  | nil => rfl
  | cons n rest => exact if_neg (hapart n List.mem_cons_self)

/-- Where the holes start after a release that loses none. -/
theorem starts_released (hs : InOrder (l₁ ++ c :: l₂)) (hapart : ¬ Between (l₁ ++ l₂) c) :
    (∃ e ∈ releasedHoles l₁ c l₂, e.start = a) ↔
      (∃ e ∈ l₁ ++ l₂, e.start = a) ∧ c.start + c.size ≠ a ∨
        c.start = a ∧ ∀ e ∈ l₁ ++ l₂, e.start + e.size ≠ a := by
  obtain ⟨-, hafter, hbefore⟩ := List.pairwise_append.mp hs.apart
  have hcpos := hs.pos c (by simp)
  have hlow : ∀ e ∈ l₁, e.start + e.size ≤ c.start := fun e he => hbefore e he c List.mem_cons_self
  have hhigh := (List.pairwise_cons.mp hafter).1
  have hsub : (c :: l₂).Sublist (l₁ ++ c :: l₂) := List.sublist_append_right l₁ (c :: l₂)
  have hright : InOrder (c :: l₂) := ⟨fun e he => hs.pos e (hsub.subset he), hafter⟩
  have habove : ∀ e ∈ l₂, c.start < e.start + e.size := by
    intro e he
    have := hhigh e he
    omega
  rcases List.eq_nil_or_concat' l₁ with rfl | ⟨front, q, rfl⟩
  · have hends : c.start = a → ∀ e ∈ l₂, e.start + e.size ≠ a := by
      rintro rfl e he
      have := habove e he
      omega
    have hreleased : releasedHoles [] c l₂ = joinNext c l₂ := rfl
    rw [hreleased, starts_joinNext hright, List.nil_append, and_iff_left_of_imp hends, or_comm]
  · have hqpos := hs.pos q (by simp)
    by_cases hadj : q.start + q.size = c.start
    · have hskip : ∀ e ∈ front ++ [q] ++ l₂, c.start + c.size ≠ e.start := fun e he heq =>
        hapart ⟨⟨q, by simp, hadj⟩, e, he, heq⟩
      have hreleased : releasedHoles (front ++ [q]) c l₂ =
          front ++ ⟨q.start, q.size + c.size⟩ :: l₂ := by
        rw [(released_of_adjacent hadj).1,
          skipNext_of_apart fun e he => hskip e (List.mem_append_right _ he)]
      have hsame : (∃ e ∈ front ++ ⟨q.start, q.size + c.size⟩ :: l₂, e.start = a) ↔
          ∃ e ∈ front ++ [q] ++ l₂, e.start = a := by
        simp [or_and_right, exists_or]
      have hne : (∃ e ∈ front ++ [q] ++ l₂, e.start = a) → c.start + c.size ≠ a := by
        rintro ⟨e, he, rfl⟩
        exact hskip e he
      have hend : c.start = a → ¬ ∀ e ∈ front ++ [q] ++ l₂, e.start + e.size ≠ a := by
        rintro rfl hall
        exact hall q (by simp) hadj
      rw [hreleased, hsame, and_iff_left_of_imp hne]
      exact (or_iff_left fun h => hend h.1 h.2).symm
    · have hends : c.start = a → ∀ e ∈ front ++ [q] ++ l₂, e.start + e.size ≠ a := by
        rintro rfl e he
        simp only [List.mem_append, List.mem_singleton] at he
        rcases he with (he | rfl) | he
        · have hfront : e.start + e.size ≤ q.start := by
            have happ := List.pairwise_append.mp (List.pairwise_append.mp hs.apart).1
            exact happ.2.2 e he q (by simp)
          have := hlow q (by simp)
          omega
        · exact hadj
        · have := habove e he
          omega
      have hne : (∃ e ∈ front ++ [q], e.start = a) → c.start + c.size ≠ a := by
        rintro ⟨e, he, rfl⟩
        have := hlow e he
        have := hs.pos e (List.mem_append_left _ he)
        omega
      have hjoin := starts_joinNext (a := a) hright
      have hsplit : ∀ ys : List Extent, (∃ e ∈ front ++ [q] ++ ys, e.start = a) ↔
          (∃ e ∈ front ++ [q], e.start = a) ∨ ∃ e ∈ ys, e.start = a := by
        intro ys
        simp only [List.mem_append, or_and_right, exists_or]
      rw [(released_of_apart hadj).1, hsplit, hsplit, hjoin, and_iff_left_of_imp hends,
        or_and_right, and_iff_left_of_imp hne, or_assoc]
      exact or_congr_right or_comm

theorem releasedLost_of_inOrder (hs : InOrder (l₁ ++ c :: l₂)) (hapart : ¬ Between (l₁ ++ l₂) c) :
    releasedLost l₁ c l₂ = [] := by
  obtain ⟨-, -, hbefore⟩ := List.pairwise_append.mp hs.apart
  exact releasedLost_eq_nil (fun e he => hbefore e he c List.mem_cons_self) hapart

/-! ## Several releases -/

/-- The list `hs` is what releasing the chunks `F` leaves of `holes` when nothing
is lost, told without their order. -/
structure Merged (holes : List Extent) (F : Set Extent) (hs : List Extent) : Prop where
  pos : ∀ c ∈ F, 0 < c.size
  covers : ∀ a, (∃ e ∈ hs, a ∈ e) ↔ (∃ e ∈ holes, a ∈ e) ∨ ∃ c ∈ F, a ∈ c
  starts : ∀ a, (∃ e ∈ hs, e.start = a) ↔
    (∃ e ∈ holes, e.start = a) ∧ (∀ c ∈ F, c.start + c.size ≠ a) ∨
      (∃ c ∈ F, c.start = a) ∧ ∀ x, x + 1 = a → ¬ ∃ e ∈ hs, x ∈ e

namespace Merged

theorem refl (holes : List Extent) : Merged holes ∅ holes where
  pos := by simp
  covers := by simp
  starts := by simp

/-- What is left does not depend on the order. -/
theorem unique {hs' : List Extent} (h : Merged holes F hs) (h' : Merged holes F hs')
    (hs_order : InOrder hs) (hs'_order : InOrder hs') : hs = hs' := by
  have hmem : ∀ a, (∃ e ∈ hs, a ∈ e) ↔ ∃ e ∈ hs', a ∈ e := fun a =>
    (h.covers a).trans (h'.covers a).symm
  apply hs_order.ext hs'_order hmem
  intro a
  rw [h.starts, h'.starts]
  simp only [hmem]

/-- The addresses covered after a release that loses nothing. -/
theorem covers_released (hs : InOrder (l₁ ++ c :: l₂)) (hapart : ¬ Between (l₁ ++ l₂) c) :
    (∃ e ∈ releasedHoles l₁ c l₂, a ∈ e) ↔ (∃ e ∈ l₁ ++ l₂, a ∈ e) ∨ a ∈ c := by
  have hcover := cover_released l₁ c l₂ a
  rw [releasedLost_of_inOrder hs hapart, cover_nil, Nat.add_zero] at hcover
  rw [← cover_pos_iff, hcover, cover_pos_iff]
  simp only [List.mem_append, List.mem_cons, or_and_right, exists_or, exists_eq_left]
  rw [or_assoc]
  exact or_congr_right or_comm

theorem not_mem_of_inOrder (hs : InOrder (l₁ ++ c :: l₂)) (he : e ∈ l₁ ++ l₂) (ha : a ∈ e) :
    a ∉ c := by
  obtain ⟨-, hafter, hbefore⟩ := List.pairwise_append.mp hs.apart
  have hdisj : e.Disjoint c := by
    rcases List.mem_append.mp he with he | he
    · exact Or.inl (hbefore e he c List.mem_cons_self)
    · exact Or.inr ((List.pairwise_cons.mp hafter).1 e he)
  exact not_mem_of_disjoint hdisj ha

theorem release (h : Merged holes F (l₁ ++ l₂)) (hs : InOrder (l₁ ++ c :: l₂))
    (hapart : ¬ Between (l₁ ++ l₂) c) : Merged holes (insert c F) (releasedHoles l₁ c l₂) := by
  have hcpos := hs.pos c (by simp)
  refine ⟨?_, ?_, ?_⟩
  · rintro d (rfl | hd)
    · exact hcpos
    · exact h.pos d hd
  · intro a
    rw [covers_released hs hapart, h.covers, or_assoc]
    simp only [Set.mem_insert_iff, or_and_right, exists_or, exists_eq_left]
    exact or_congr_right or_comm
  · intro a
    -- A chunk released before starts where `c` ends, or not next to it.
    have hfreed : (∃ d ∈ F, d.start = a) → (c.start + c.size ≠ a ↔ ∀ x, x + 1 = a → x ∉ c) := by
      rintro ⟨d, hd, rfl⟩
      have hdpos := h.pos d hd
      obtain ⟨e, he, hin⟩ := (h.covers d.start).mpr (Or.inr ⟨d, hd, le_rfl, by omega⟩)
      have hout := not_mem_of_inOrder hs he hin
      simp only [Extent.mem_def] at hout ⊢
      constructor
      · intro hne x hx hxc
        omega
      · intro hall heq
        exact hall (d.start - 1) (by omega) ⟨by omega, by omega⟩
    have hends : c.start = a → ((∀ e ∈ l₁ ++ l₂, e.start + e.size ≠ a) ↔
        ∀ x, x + 1 = a → ¬ ∃ e ∈ l₁ ++ l₂, x ∈ e) := by
      rintro rfl
      constructor
      · rintro hne x hx ⟨e, he, hxe⟩
        have hout : c.start ∉ e := fun hin =>
          not_mem_of_inOrder hs he hin ⟨le_rfl, by omega⟩
        have hend := hne e he
        rw [Extent.mem_def] at hxe hout
        omega
      · intro hnone e he heq
        have hepos : 0 < e.size := hs.pos e (by
          simp only [List.mem_append, List.mem_cons] at he ⊢
          tauto)
        exact hnone (c.start - 1) (by omega) ⟨e, he, by omega, by omega⟩
    have hself : c.start = a → ∀ x, x + 1 = a → x ∉ c := by
      rintro rfl x hx hxc
      rw [Extent.mem_def] at hxc
      omega
    have hnew : (∀ x, x + 1 = a → ¬ ∃ e ∈ releasedHoles l₁ c l₂, x ∈ e) ↔
        (∀ x, x + 1 = a → ¬ ∃ e ∈ l₁ ++ l₂, x ∈ e) ∧ ∀ x, x + 1 = a → x ∉ c := by
      simp only [covers_released hs hapart, not_or]
      exact ⟨fun hall => ⟨fun x hx => (hall x hx).1, fun x hx => (hall x hx).2⟩,
        fun hboth x hx => ⟨hboth.1 x hx, hboth.2 x hx⟩⟩
    have hstarts : (∃ d ∈ insert c F, d.start = a) ↔ c.start = a ∨ ∃ d ∈ F, d.start = a := by
      simp only [Set.mem_insert_iff, or_and_right, exists_or, exists_eq_left]
    have hkept : (∀ d ∈ insert c F, d.start + d.size ≠ a) ↔
        c.start + c.size ≠ a ∧ ∀ d ∈ F, d.start + d.size ≠ a := by
      simp only [Set.mem_insert_iff, forall_eq_or_imp]
    rw [starts_released hs hapart, h.starts, hnew, hstarts, hkept]
    constructor
    · rintro (⟨⟨hhole, hkeep⟩ | ⟨hstart, hnone⟩, hne⟩ | ⟨hstart, hend⟩)
      · exact Or.inl ⟨hhole, hne, hkeep⟩
      · exact Or.inr ⟨Or.inr hstart, hnone, (hfreed hstart).mp hne⟩
      · exact Or.inr ⟨Or.inl hstart, (hends hstart).mp hend, hself hstart⟩
    · rintro (⟨hhole, hne, hkeep⟩ | ⟨hstart | hstart, hnone, hout⟩)
      · exact Or.inl ⟨Or.inl ⟨hhole, hkeep⟩, hne⟩
      · exact Or.inr ⟨hstart, (hends hstart).mpr hnone⟩
      · exact Or.inl ⟨Or.inr ⟨hstart, hnone⟩, (hfreed hstart).mpr hout⟩

end Merged

/-! ## Runs of releases -/

theorem Sound.inOrder (hs : Sound holes) : InOrder holes where
  pos e he := by
    have := hs.big e he
    omega
  apart := hs.apart

/-- One release, with the holes below and above the chunk. -/
theorem step_released {u : Config} (hv : Valid u lost) (hp : p ∈ u.live)
    (hanchored : Anchored u.heap u.heap.holes p) :
    ∃ l₁ l₂ t, u.heap.holes = l₁ ++ l₂ ∧ InOrder (l₁ ++ chunk u.heap p :: l₂) ∧
      u.step (.free p) = some t ∧ Valid t (releasedLost l₁ (chunk u.heap p) l₂ ++ lost) ∧
      t.live = u.live.erase p ∧ t.heap.mapped = u.heap.mapped ∧
      (∀ q ∈ t.live, chunk t.heap q = chunk u.heap q) ∧
      t.heap.holes = releasedHoles l₁ (chunk u.heap p) l₂ := by
  obtain ⟨l₁, l₂, s', hholes, hlow, hhigh, hfree, hl', hmapped, hsame, -⟩ :=
    free_released hv hp hanchored
  have hbig := (Layout.pointer_bounds hv hp).2
  have hbounds := hv.live_bounds (List.mem_map_of_mem hp)
  have hsound := hv.sound
  rw [hholes] at hsound
  refine ⟨l₁, l₂, ⟨s', u.live.erase p⟩, hholes, (hsound.insert hbig hbounds hlow hhigh).inOrder,
    ?_, hl'.valid, rfl, hmapped, hsame, hl'.holds.holes_eq⟩
  simp only [Config.step, hfree, Option.bind_eq_bind, Option.bind_some]

theorem step_merged {u : Config} (hv : Valid u lost) (hm : Merged holes F u.heap.holes)
    (hp : p ∈ u.live) (hanchored : Anchored u.heap u.heap.holes p)
    (hapart : ¬ Between u.heap.holes (chunk u.heap p)) :
    ∃ t, u.step (.free p) = some t ∧ Valid t lost ∧ t.live = u.live.erase p ∧
      (∀ q ∈ t.live, chunk t.heap q = chunk u.heap q) ∧
      Merged holes (insert (chunk u.heap p) F) t.heap.holes := by
  obtain ⟨l₁, l₂, t, hholes, horder, hstep, hvt, hlive, -, hsame, hreleased⟩ :=
    step_released hv hp hanchored
  rw [hholes] at hm hapart
  rw [releasedLost_of_inOrder horder hapart, List.nil_append] at hvt
  refine ⟨t, hstep, hvt, hlive, hsame, ?_⟩
  rw [hreleased]
  exact hm.release horder hapart

/-- The pointers still to be released are live after a release. -/
theorem live_after {u t : Config} {ps : List ℕ} (hnodup : (p :: ps).Nodup)
    (hlive : ∀ q ∈ p :: ps, q ∈ u.live) (ht : t.live = u.live.erase p) : ∀ q ∈ ps, q ∈ t.live := by
  intro q hq
  have hne : q ≠ p := fun heq => (List.nodup_cons.mp hnodup).1 (heq ▸ hq)
  rw [ht]
  exact (List.mem_erase_of_ne hne).mpr (hlive q (List.mem_cons_of_mem p hq))

/-- Releases that lose nothing leave what `Merged` says of their chunks. -/
theorem run_merged {u : Config} {ps : List ℕ} (hv : Valid u lost)
    (hm : Merged holes F u.heap.holes) (hnodup : ps.Nodup) (hlive : ∀ p ∈ ps, p ∈ u.live)
    (hrun : RunAll Config.step (fun u k => ReleasesAnchored u k ∧ ReleasesApart u k) u
      (ps.map .free)) :
    ∃ t, run Config.step u (ps.map .free) = some t ∧ Valid t lost ∧
      Merged holes (F ∪ {c | ∃ p ∈ ps, chunk u.heap p = c}) t.heap.holes := by
  induction ps generalizing u F with
  | nil => exact ⟨u, rfl, hv, by simpa using hm⟩
  | cons p ps ih =>
      obtain ⟨⟨hanchored, hapart⟩, hrest⟩ := hrun
      have hp := hlive p List.mem_cons_self
      obtain ⟨t, ht, hvt, hlivet, hsame, hmt⟩ := step_merged hv hm hp (hanchored _ rfl)
        (hapart _ rfl)
      have hlive' := live_after hnodup hlive hlivet
      obtain ⟨w, hw, hvw, hmw⟩ := ih hvt hmt hnodup.of_cons hlive' (hrest t ht)
      refine ⟨w, ?_, hvw, ?_⟩
      · rw [List.map_cons, run_cons, ht, Option.bind_some, hw]
      · have hset : insert (chunk u.heap p) F ∪ {c | ∃ q ∈ ps, chunk t.heap q = c} =
            F ∪ {c | ∃ q ∈ p :: ps, chunk u.heap q = c} := by
          have hchunks : {c | ∃ q ∈ ps, chunk t.heap q = c} =
              {c | ∃ q ∈ ps, chunk u.heap q = c} := by
            ext c
            exact exists_congr fun q => and_congr_right fun hq => by
              rw [hsame q (hlive' q hq)]
          ext c
          rw [hchunks]
          simp only [Set.mem_union, Set.mem_insert_iff, Set.mem_ofPred_eq, List.exists_mem_cons_iff]
          rw [or_comm (a := c = _), or_assoc, eq_comm (a := c)]
        rw [← hset]
        exact hmw

/-! ## Releases that lose a hole -/

theorem releasedLost_ne_nil (hs : InOrder (l₁ ++ c :: l₂)) (hbetween : Between (l₁ ++ l₂) c) :
    releasedLost l₁ c l₂ ≠ [] := by
  obtain ⟨⟨q, hq, hqc⟩, n, hn, hcn⟩ := hbetween
  obtain ⟨hbelow, hafter, hbefore⟩ := List.pairwise_append.mp hs.apart
  have habove := (List.pairwise_cons.mp hafter).1
  have hcpos := hs.pos c (by simp)
  have hpos : ∀ e ∈ l₁ ++ l₂, 0 < e.size := fun e he => hs.pos e (by
    simp only [List.mem_append, List.mem_cons] at he ⊢
    tauto)
  have hqpos := hpos q hq
  have hnpos := hpos n hn
  have hq₁ : q ∈ l₁ := by
    rcases List.mem_append.mp hq with hq | hq
    · exact hq
    · have := habove q hq
      omega
  have hn₂ : n ∈ l₂ := by
    rcases List.mem_append.mp hn with hn | hn
    · have := hbefore n hn c List.mem_cons_self
      omega
    · exact hn
  obtain ⟨front, q', rfl⟩ : ∃ front q', l₁ = front ++ [q'] :=
    (List.eq_nil_or_concat' l₁).resolve_left (List.ne_nil_of_mem hq₁)
  obtain ⟨n', rest, rfl⟩ := List.exists_cons_of_ne_nil (List.ne_nil_of_mem hn₂)
  have hlast : q = q' := by
    rcases List.mem_append.mp hq₁ with hq | hq
    · have hle := (List.pairwise_append.mp hbelow).2.2 q hq q' (by simp)
      have hle' := hbefore q' (by simp) c List.mem_cons_self
      have := hpos q' (by simp)
      omega
    · exact List.mem_singleton.mp hq
  have hfirst : n = n' := by
    rcases List.mem_cons.mp hn₂ with hn | hn
    · exact hn
    · have hle := (List.pairwise_cons.mp (List.pairwise_cons.mp hafter).2).1 n hn
      have hle' := habove n' List.mem_cons_self
      have := hpos n' (by simp)
      omega
  subst hlast hfirst
  rw [(released_of_adjacent hqc).2, skipped, if_pos hcn]
  exact List.cons_ne_nil n []

theorem pos_of_mem_releasedLost (hs : InOrder (l₁ ++ c :: l₂)) (hn : n ∈ releasedLost l₁ c l₂) :
    0 < n.size := by
  have hmem : n ∈ l₂ := by
    rcases List.eq_nil_or_concat' l₁ with rfl | ⟨front, q, rfl⟩
    · exact absurd hn List.not_mem_nil
    · by_cases hq : q.start + q.size = c.start
      · rw [(released_of_adjacent hq).2] at hn
        cases l₂ with
        | nil => exact absurd hn List.not_mem_nil
        | cons m rest =>
            rw [skipped] at hn
            split_ifs at hn
            · exact List.mem_singleton.mp hn ▸ List.mem_cons_self
            · exact absurd hn List.not_mem_nil
      · rw [(released_of_apart hq).2] at hn
        exact absurd hn List.not_mem_nil
  exact hs.pos n (by simp [hmem])

/-- What a run of releases loses, and the chunks that stay in use. -/
theorem run_lost {u : Config} {ps : List ℕ} (hv : Valid u lost) (hnodup : ps.Nodup)
    (hlive : ∀ p ∈ ps, p ∈ u.live)
    (hrun : RunAll Config.step ReleasesAnchored u (ps.map .free)) :
    ∃ t extra, run Config.step u (ps.map .free) = some t ∧ Valid t (extra ++ lost) ∧
      t.live = u.live.diff ps ∧ t.heap.mapped = u.heap.mapped ∧
      (∀ q ∈ t.live, chunk t.heap q = chunk u.heap q) ∧ (∀ e ∈ extra, 0 < e.size) ∧
      (extra = [] → RunAll Config.step ReleasesApart u (ps.map .free)) := by
  induction ps generalizing u lost with
  | nil => exact ⟨u, [], rfl, hv, rfl, rfl, fun _ _ => rfl, by simp, fun _ => trivial⟩
  | cons p ps ih =>
      obtain ⟨hanchored, hrest⟩ := hrun
      obtain ⟨l₁, l₂, t, hholes, horder, ht, hvt, hlivet, hmapped, hsame, -⟩ :=
        step_released hv (hlive p List.mem_cons_self) (hanchored _ rfl)
      have hlive' := live_after hnodup hlive hlivet
      obtain ⟨w, extra, hw, hvw, hlivew, hmappedw, hsamew, hpos, hapart⟩ :=
        ih hvt hnodup.of_cons hlive' (hrest t ht)
      rw [← List.append_assoc] at hvw
      refine ⟨w, extra ++ releasedLost l₁ (chunk u.heap p) l₂, ?_, hvw, ?_,
        hmappedw.trans hmapped, ?_, ?_, ?_⟩
      · rw [List.map_cons, run_cons, ht, Option.bind_some, hw]
      · rw [hlivew, hlivet, List.diff_cons]
      · intro q hq
        have hqt : q ∈ t.live := (List.diff_subset t.live ps) (hlivew ▸ hq)
        exact (hsamew q hq).trans (hsame q hqt)
      · intro e he
        rcases List.mem_append.mp he with he | he
        · exact hpos e he
        · exact pos_of_mem_releasedLost horder he
      · intro hnil
        obtain ⟨hextra, hlost⟩ := List.append_eq_nil_iff.mp hnil
        refine ⟨?_, fun v hv' => ?_⟩
        · rintro r hr hbetween
          obtain rfl : (p, u.heap.holes) = r := Option.some.inj hr
          rw [hholes] at hbetween
          exact releasedLost_ne_nil horder hbetween hlost
        · obtain rfl : t = v := Option.some.inj (ht.symm.trans hv')
          exact hapart hextra

/-- After two orders of the same releases the pages and the chunks in use agree, so
the holes do only if what is lost does. -/
theorem extra_eq_nil {t t' : Config} {extra : List Extent} (hv : Valid t (extra ++ lost))
    (hv' : Valid t' lost) (hpos : ∀ e ∈ extra, 0 < e.size) (hholes : t.heap.holes = t'.heap.holes)
    (hchunks : t.chunks = t'.chunks) (hmapped : t.heap.mapped = t'.heap.mapped) : extra = [] := by
  have hpages : t.heap.pages = t'.heap.pages := by rw [pages, pages, hmapped]
  cases extra with
  | nil => rfl
  | cons e extra =>
      have hcov := hv.covered e.start
      have hcov' := hv'.covered e.start
      have he := hpos e List.mem_cons_self
      have hin : 0 < cover (e :: extra) e.start :=
        cover_pos_of_mem List.mem_cons_self ⟨le_rfl, by omega⟩
      rw [hholes, hchunks, hpages, cover_append] at hcov
      omega

theorem valid_of_copes {memory : Memory} {frames : List ℕ} {c u : Config} {calls : List Call}
    (hinit : Config.initial memory frames = some c) (hrun : RunAll Config.step Copes c calls)
    (hu : run Config.step c calls = some u) : ∃ lost, Valid u lost := by
  obtain ⟨t, ht, hvalid⟩ := run_copes hinit hrun
  obtain rfl : u = t := Option.some.inj (hu.symm.trans ht)
  exact hvalid

/-- When one order releases no chunk directly between two holes, another order of
the same releases leaves the same list of holes exactly if it releases none
between two holes either. -/
theorem holes_eq_iff {memory : Memory} {frames : List ℕ} {c u : Config} {calls : List Call}
    {ps qs : List ℕ} (hinit : Config.initial memory frames = some c)
    (hrun : RunAll Config.step Copes c calls) (hu : run Config.step c calls = some u)
    (hperm : ps.Perm qs) (hnodup : ps.Nodup) (hlive : ∀ p ∈ ps, p ∈ u.live)
    (hps : RunAll Config.step ReleasesAnchored u (ps.map .free))
    (hqs : RunAll Config.step (fun u k => ReleasesAnchored u k ∧ ReleasesApart u k) u
      (qs.map .free)) :
    ∃ t t', run Config.step u (ps.map .free) = some t ∧
      run Config.step u (qs.map .free) = some t' ∧
      (t.heap.holes = t'.heap.holes ↔ RunAll Config.step ReleasesApart u (ps.map .free)) := by
  obtain ⟨lost, hv⟩ := valid_of_copes hinit hrun hu
  have hnodup' := hperm.nodup_iff.mp hnodup
  have hlive' : ∀ q ∈ qs, q ∈ u.live := fun q hq => hlive q (hperm.mem_iff.mpr hq)
  obtain ⟨t, extra, ht, hvt, hlivet, hmappedt, hsamet, hpos, hapart⟩ :=
    run_lost hv hnodup hlive hps
  obtain ⟨t', ht', hvt', hmt'⟩ := run_merged hv (Merged.refl _) hnodup' hlive' hqs
  obtain ⟨t'', -, ht'', -, hlivet', hmappedt', hsamet', -⟩ :=
    run_lost hv hnodup' hlive' (hqs.mono fun _ _ h => h.1)
  obtain rfl : t' = t'' := Option.some.inj (ht'.symm.trans ht'')
  refine ⟨t, t', ht, ht', ⟨fun hholes => hapart ?_, fun hps' => ?_⟩⟩
  · have hsame : t.live = t'.live := by rw [hlivet, hlivet', hperm.diff_left]
    have hchunks : t.chunks = t'.chunks := by
      rw [Config.chunks, Config.chunks, List.map_congr_left hsamet, List.map_congr_left hsamet',
        hsame]
    exact extra_eq_nil hvt hvt' hpos hholes hchunks (hmappedt.trans hmappedt'.symm)
  · obtain ⟨v, hrunv, hvv, hmv⟩ := run_merged hv (Merged.refl _) hnodup hlive (hps.and hps')
    obtain rfl : t = v := Option.some.inj (ht.symm.trans hrunv)
    have hset : {c | ∃ p ∈ qs, chunk u.heap p = c} = {c | ∃ p ∈ ps, chunk u.heap p = c} := by
      ext c
      exact exists_congr fun p => and_congr_left fun _ => hperm.mem_iff.symm
    rw [hset] at hmt'
    exact hmv.unique hmt' hvv.sound.inOrder hvt'.sound.inOrder

/-- Five chunks side by side. -/
def fiveChunks : List Call := [.malloc 8, .malloc 20, .malloc 8, .malloc 30, .malloc 8]

theorem holes_eq_iff_fiveChunks : ∃ c, Config.initial zeroMemory [4096, 8192] = some c ∧
    ∃ u, run Config.step c fiveChunks = some u ∧
      ∃ t t', run Config.step u ([0xC0C00004, 0xC0C00010, 0xC0C00028].map .free) = some t ∧
        run Config.step u ([0xC0C00028, 0xC0C00010, 0xC0C00004].map .free) = some t' ∧
          (t.heap.holes = t'.heap.holes ↔ RunAll Config.step ReleasesApart u
            ([0xC0C00004, 0xC0C00010, 0xC0C00028].map .free)) := by
  obtain ⟨c, hc⟩ : ∃ c, Config.initial zeroMemory [4096, 8192] = some c := ⟨_, rfl⟩
  have hrun : ∀ c ∈ Config.initial zeroMemory [4096, 8192],
      RunAll Config.step Copes c fiveChunks := by
    decide +kernel
  have hsome : ∀ c ∈ Config.initial zeroMemory [4096, 8192],
      (run Config.step c fiveChunks).isSome = true := by decide +kernel
  have horders : ∀ c ∈ Config.initial zeroMemory [4096, 8192], ∀ u ∈ run Config.step c fiveChunks,
      (∀ p ∈ [0xC0C00004, 0xC0C00010, 0xC0C00028], p ∈ u.live) ∧
      RunAll Config.step ReleasesAnchored u
        ([0xC0C00004, 0xC0C00010, 0xC0C00028].map .free) ∧
      RunAll Config.step (fun u k => ReleasesAnchored u k ∧ ReleasesApart u k) u
        ([0xC0C00028, 0xC0C00010, 0xC0C00004].map .free) := by decide +kernel
  obtain ⟨u, hu⟩ := Option.isSome_iff_exists.mp (hsome c hc)
  obtain ⟨hlive, hfirst, hlast⟩ := horders c hc u hu
  exact ⟨c, hc, u, hu, holes_eq_iff hc (hrun c hc) hu (by decide) (by decide) hlive hfirst hlast⟩

/-- Of two chunks below a hole, releasing the lower one first loses the hole. -/
theorem not_holes_eq : ¬ ∀ (memory : Memory) (frames : List ℕ) (c u : Config)
    (calls : List Call) (ps qs : List ℕ), Config.initial memory frames = some c →
      RunAll Config.step Legal c calls → run Config.step c calls = some u → ps.Perm qs →
        ps.Nodup → (∀ p ∈ ps, p ∈ u.live) →
          ∃ t t', run Config.step u (ps.map .free) = some t ∧
            run Config.step u (qs.map .free) = some t' ∧ t.heap.holes = t'.heap.holes := by
  intro h
  have hlegal : ∀ c ∈ Config.initial zeroMemory [4096, 8192],
      RunAll Config.step Legal c [.malloc 8, .malloc 8] := by decide +kernel
  have hsome : ∀ c ∈ Config.initial zeroMemory [4096, 8192],
      (run Config.step c [.malloc 8, .malloc 8]).isSome = true := by decide +kernel
  have hdiffer : ∀ c ∈ Config.initial zeroMemory [4096, 8192],
      ∀ u ∈ run Config.step c [.malloc 8, .malloc 8],
        (∀ p ∈ [0xC0C00004, 0xC0C00010], p ∈ u.live) ∧
        ∀ t ∈ run Config.step u [.free 0xC0C00004, .free 0xC0C00010],
          ∀ t' ∈ run Config.step u [.free 0xC0C00010, .free 0xC0C00004],
            t.heap.holes ≠ t'.heap.holes := by decide +kernel
  obtain ⟨c, hc⟩ : ∃ c, Config.initial zeroMemory [4096, 8192] = some c := ⟨_, rfl⟩
  obtain ⟨u, hu⟩ := Option.isSome_iff_exists.mp (hsome c hc)
  obtain ⟨hlive, hne⟩ := hdiffer c hc u hu
  obtain ⟨t, t', ht, ht', heq⟩ := h zeroMemory [4096, 8192] c u [.malloc 8, .malloc 8]
    [0xC0C00004, 0xC0C00010] [0xC0C00010, 0xC0C00004] hc (hlegal c hc) hu (by decide) (by decide)
    hlive
  exact hne t ht t' ht' heq

end AviKernel.Heap
