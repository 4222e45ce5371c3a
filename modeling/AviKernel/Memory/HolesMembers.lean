import AviKernel.Memory.HolesList

/-!
# Members of the holes list

Insertion and removal as operations on the set of listed headers.  Increasing
addresses are not enough for them: a header that starts inside another one shares
its words, and what links one of them unlinks the other.
-/

namespace AviKernel.Heap

open State

variable {s t : State} {h x : ℕ} {xs ys l₁ l₂ : List ℕ}

/-- The headers `xs`, in address order, are linked both ways from `holes_list_head`
to `holes_list_tail`, and the links at the ends are `NULL`. -/
structure WellFormed (s : State) (xs : List ℕ) : Prop where
  links : Links s.next s.prev 0 xs 0
  head : s.holesListHead = xs.headD 0
  tail : s.holesListTail = xs.getLastD 0
  increasing : xs.Pairwise fun a b => a < b
  bounds : ∀ x ∈ xs, 0 < x ∧ x < 2 ^ 32

/-- The twelve bytes of two headers have none in common. -/
def HeadersApart (a b : ℕ) : Prop := a + 12 ≤ b ∨ b + 12 ≤ a

/-- Well formed, and no listed header starts inside another one. -/
theorem holesList_iff : HolesList s xs ↔ WellFormed s xs ∧ xs.Pairwise HeadersApart := by
  constructor
  · intro hl
    refine ⟨⟨hl.links, hl.head, hl.tail, ?_, hl.bounds⟩, ?_⟩
    · exact hl.apart.imp fun hab => by omega
    · exact hl.apart.imp fun hab => Or.inl hab
  · rintro ⟨hw, hapart⟩
    refine ⟨hw.links, hw.head, hw.tail, ?_, hw.bounds⟩
    refine (hw.increasing.and hapart).imp ?_
    rintro a b ⟨hlt, hab⟩
    unfold HeadersApart at hab
    omega

/-- The listed headers split around one that overlaps none of them. -/
theorem split_around (hinc : xs.Pairwise fun a b => a < b)
    (hout : ∀ x ∈ xs, HeadersApart h x) :
    ∃ l₁ l₂, xs = l₁ ++ l₂ ∧ (∀ x ∈ l₁, x + 12 ≤ h) ∧ ∀ x ∈ l₂, h + 12 ≤ x := by
  induction xs with
  | nil => exact ⟨[], [], rfl, by simp, by simp⟩
  | cons x xs ih =>
      obtain ⟨habove, hrest⟩ := List.pairwise_cons.mp hinc
      rcases hout x List.mem_cons_self with hhigh | hlow
      · refine ⟨[], x :: xs, rfl, by simp, fun y hy => ?_⟩
        rcases List.mem_cons.mp hy with rfl | hy
        · exact hhigh
        · have := habove y hy
          omega
      · obtain ⟨l₁, l₂, rfl, h₁, h₂⟩ := ih hrest fun y hy => hout y (List.mem_cons_of_mem x hy)
        refine ⟨x :: l₁, l₂, rfl, fun y hy => ?_, h₂⟩
        rcases List.mem_cons.mp hy with rfl | hy
        · exact hlow
        · exact h₁ y hy

/-- The list from head to tail and all its links are the same in both states. -/
structure SameList (xs : List ℕ) (s t : State) : Prop where
  head : t.holesListHead = s.holesListHead
  tail : t.holesListTail = s.holesListTail
  next : ∀ x ∈ xs, t.next x = s.next x
  prev : ∀ x ∈ xs, t.prev x = s.prev x

/-- The order of the headers says what the links are. -/
theorem HolesList.sameList (hs : HolesList s xs) (ht : HolesList t xs) : SameList xs s t := by
  have hlinks : ∀ x ∈ xs, t.next x = s.next x ∧ t.prev x = s.prev x := by
    intro x hx
    obtain ⟨l₁, l₂, rfl⟩ := List.append_of_mem hx
    obtain ⟨hprev, hnext⟩ := hs.links.at_node
    obtain ⟨hprev', hnext'⟩ := ht.links.at_node
    rw [hprev, hnext, hprev', hnext']
    exact ⟨rfl, rfl⟩
  refine ⟨?_, ?_, fun x hx => (hlinks x hx).1, fun x hx => (hlinks x hx).2⟩
  · rw [hs.head, ht.head]
  · rw [hs.tail, ht.tail]

/-- `t` has a well-formed list of the headers that `p` holds of, with their sizes in `s`. -/
structure Relists (p : ℕ → Prop) (s t : State) : Prop where
  list : ∃ ys, WellFormed t ys ∧ ∀ x, x ∈ ys ↔ p x
  sizes : ∀ x, p x → t.size x = s.size x

theorem HolesList.insert_members (hl : HolesList s xs) (hpos : 0 < h) (hlt : h < 2 ^ 32)
    (hout : ∀ x ∈ xs, HeadersApart h x) :
    ∃ t, s.insertToHolesList h = some t ∧ Relists (fun x => x = h ∨ x ∈ xs) s t ∧
      SameList xs s (t.removeFromHolesList h) := by
  obtain ⟨l₁, l₂, rfl, hlow, hhigh⟩ := split_around (holesList_iff.mp hl).1.increasing hout
  obtain ⟨t, hinsert, hlist, hr⟩ := hl.insert hpos hlt hlow hhigh
  have hmem : ∀ x, x ∈ l₁ ++ h :: l₂ ↔ x = h ∨ x ∈ l₁ ++ l₂ := by
    intro x
    simp only [List.mem_append, List.mem_cons]
    tauto
  refine ⟨t, hinsert, ⟨⟨l₁ ++ h :: l₂, (holesList_iff.mp hlist).1, hmem⟩, fun x hx => ?_⟩, ?_⟩
  · exact hr.size_eq fun y hy => hlist.clear hy ((hmem x).mpr hx)
  · exact hl.sameList hlist.remove.1

theorem HolesList.remove_members (hl : HolesList s xs) (hh : h ∈ xs) :
    Relists (fun x => x ∈ xs ∧ x ≠ h) s (s.removeFromHolesList h) := by
  obtain ⟨l₁, l₂, rfl⟩ := List.append_of_mem hh
  obtain ⟨hlist, hr⟩ := hl.remove
  have hnodup := hl.nodup
  rw [List.nodup_middle, List.nodup_cons] at hnodup
  have hmem : ∀ x, x ∈ l₁ ++ l₂ ↔ x ∈ l₁ ++ h :: l₂ ∧ x ≠ h := by
    intro x
    have hne : x ∈ l₁ ++ l₂ → x ≠ h := by
      rintro hx rfl
      exact hnodup.1 hx
    simp only [List.mem_append, List.mem_cons] at hne ⊢
    tauto
  refine ⟨⟨l₁ ++ l₂, (holesList_iff.mp hlist).1, hmem⟩, fun x hx => ?_⟩
  exact hr.size_eq fun y hy => hlist.clear hy ((hmem x).mpr hx)

/-- Insertion adds a header to the list and removal takes it off again, with all
sizes unchanged, when no listed header starts inside another one. -/
theorem insert_remove_members (hw : WellFormed s xs) (hapart : xs.Pairwise HeadersApart) :
    (∀ h, 0 < h → h < 2 ^ 32 → h ∉ xs → (∀ x ∈ xs, HeadersApart h x) →
      ∃ t, s.insertToHolesList h = some t ∧ Relists (fun x => x = h ∨ x ∈ xs) s t ∧
        SameList xs s (t.removeFromHolesList h)) ∧
      ∀ h ∈ xs, Relists (fun x => x ∈ xs ∧ x ≠ h) s (s.removeFromHolesList h) := by
  have hl : HolesList s xs := holesList_iff.mpr ⟨hw, hapart⟩
  exact ⟨fun h hpos hlt _ hout => hl.insert_members hpos hlt hout,
    fun h hh => hl.remove_members hh⟩

/-- Two headers with room between them for a third. -/
def twoHeaders : State :=
  ((((⟨⟨fun _ => 0, []⟩, 16, 64, 0, [], [], []⟩ : State).setNext 16 64).setPrev 16 0).setNext 64
    0).setPrev 64 16

theorem insert_remove_members_two : Relists (fun x => x ∈ [16, 64] ∧ x ≠ 16) twoHeaders
    (twoHeaders.removeFromHolesList 16) ∧
      ∃ t, twoHeaders.insertToHolesList 40 = some t ∧
        Relists (fun x => x = 40 ∨ x ∈ [16, 64]) twoHeaders t ∧
          SameList [16, 64] twoHeaders (t.removeFromHolesList 40) := by
  have hw : WellFormed twoHeaders [16, 64] := by
    refine ⟨?_, rfl, rfl, by decide, by decide⟩
    exact ⟨by decide +kernel, by decide +kernel, by decide +kernel, by decide +kernel, trivial⟩
  have hapart : [16, 64].Pairwise HeadersApart :=
    List.pairwise_pair.mpr (Or.inl (by decide))
  have hout : ∀ x ∈ [16, 64], HeadersApart 40 x := by
    intro x hx
    simp only [List.mem_cons, List.not_mem_nil, or_false] at hx
    unfold HeadersApart
    omega
  obtain ⟨hinsert, hremove⟩ := insert_remove_members hw hapart
  exact ⟨hremove 16 (by decide), hinsert 40 (by decide) (by decide) (by decide) hout⟩

/-- The header at 20 starts inside the one at 16: its size word is the `next` of the
first header, and its `next` is the `prev`. -/
def insideHeaders : State :=
  (((⟨⟨fun _ => 0, []⟩, 16, 20, 0, [], [], []⟩ : State).setNext 16 20).setPrev 16 0).setPrev 20 16

/-- Linking a header in behind these two gives the first one a `prev` that is not
`NULL`. -/
theorem not_insert_members : ¬ ∀ (s : State) (xs : List ℕ) (h : ℕ), WellFormed s xs → 0 < h →
    h < 2 ^ 32 → h ∉ xs → (∀ x ∈ xs, HeadersApart h x) →
      ∃ t, s.insertToHolesList h = some t ∧ Relists (fun x => x = h ∨ x ∈ xs) s t := by
  intro hall
  have hw : WellFormed insideHeaders [16, 20] := by
    refine ⟨?_, rfl, rfl, by decide, by decide⟩
    exact ⟨by decide +kernel, by decide +kernel, by decide +kernel, by decide +kernel, trivial⟩
  have hout : ∀ x ∈ [16, 20], HeadersApart 64 x := by
    intro x hx
    simp only [List.mem_cons, List.not_mem_nil, or_false] at hx
    unfold HeadersApart
    omega
  obtain ⟨t, hinsert, ⟨ys, hlist, hmem⟩, -⟩ :=
    hall insideHeaders [16, 20] 64 hw (by decide) (by decide) (by decide) hout
  have hprev : ∀ t ∈ insideHeaders.insertToHolesList 64, t.prev t.holesListHead = 64 := by
    decide +kernel
  have hfirst := hprev t hinsert
  cases ys with
  | nil => exact absurd ((hmem 64).mpr (Or.inl rfl)) List.not_mem_nil
  | cons y ys =>
      have hhead : t.holesListHead = y := hlist.head
      obtain ⟨hnull, -⟩ := hlist.links
      rw [hhead, hnull] at hfirst
      exact absurd hfirst (by decide)

end AviKernel.Heap
