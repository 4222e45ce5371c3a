import AviKernel.Library.LinkedList
import AviKernel.Memory.Heap

/-!
# The holes list

A holes list is well formed when the list words of its headers link them in
address order and no two headers overlap.  Insertion and removal write list
words only, and turn one well-formed list into another.
-/

namespace AviKernel.Heap

variable {s s' : State} {h x w : ℕ} {xs l₁ l₂ : List ℕ}

namespace State

/-- Two headers coincide or do not overlap. -/
def Clear (h x : ℕ) : Prop := h = x ∨ h + 12 ≤ x ∨ x + 12 ≤ h

theorem Clear.symm (hc : Clear h x) : Clear x h := by
  unfold Clear at hc ⊢
  omega

@[simp] theorem size_setHead : (s.setHead h).size x = s.size x := rfl
@[simp] theorem next_setHead : (s.setHead h).next x = s.next x := rfl
@[simp] theorem prev_setHead : (s.setHead h).prev x = s.prev x := rfl
@[simp] theorem size_setTail : (s.setTail h).size x = s.size x := rfl
@[simp] theorem next_setTail : (s.setTail h).next x = s.next x := rfl
@[simp] theorem prev_setTail : (s.setTail h).prev x = s.prev x := rfl
@[simp] theorem head_setHead : (s.setHead h).holesListHead = h := rfl
@[simp] theorem tail_setHead : (s.setHead h).holesListTail = s.holesListTail := rfl
@[simp] theorem head_setTail : (s.setTail h).holesListHead = s.holesListHead := rfl
@[simp] theorem tail_setTail : (s.setTail h).holesListTail = h := rfl
@[simp] theorem head_setSize : (s.setSize h w).holesListHead = s.holesListHead := rfl
@[simp] theorem tail_setSize : (s.setSize h w).holesListTail = s.holesListTail := rfl
@[simp] theorem head_setNext : (s.setNext h w).holesListHead = s.holesListHead := rfl
@[simp] theorem tail_setNext : (s.setNext h w).holesListTail = s.holesListTail := rfl
@[simp] theorem head_setPrev : (s.setPrev h w).holesListHead = s.holesListHead := rfl
@[simp] theorem tail_setPrev : (s.setPrev h w).holesListTail = s.holesListTail := rfl

theorem size_setSize_self (hw : w < 2 ^ 32) : (s.setSize h w).size h = w :=
  Memory.load_store_self hw

@[simp] theorem next_setNext_self (hw : w < 2 ^ 32) : (s.setNext h w).next h = w :=
  Memory.load_store_self hw

@[simp] theorem prev_setPrev_self (hw : w < 2 ^ 32) : (s.setPrev h w).prev h = w :=
  Memory.load_store_self hw

theorem size_setSize_of_apart (hc : h + 4 ≤ x ∨ x + 4 ≤ h) :
    (s.setSize h w).size x = s.size x := Memory.load_store_of_disjoint hc

theorem next_setSize (hc : Clear h x) : (s.setSize h w).next x = s.next x :=
  Memory.load_store_of_disjoint (by unfold Clear at hc; omega)

theorem prev_setSize (hc : Clear h x) : (s.setSize h w).prev x = s.prev x :=
  Memory.load_store_of_disjoint (by unfold Clear at hc; omega)

theorem size_setNext (hc : Clear h x) : (s.setNext h w).size x = s.size x :=
  Memory.load_store_of_disjoint (by unfold Clear at hc; omega)

theorem prev_setNext (hc : Clear h x) : (s.setNext h w).prev x = s.prev x :=
  Memory.load_store_of_disjoint (by unfold Clear at hc; omega)

theorem size_setPrev (hc : Clear h x) : (s.setPrev h w).size x = s.size x :=
  Memory.load_store_of_disjoint (by unfold Clear at hc; omega)

theorem next_setPrev (hc : Clear h x) : (s.setPrev h w).next x = s.next x :=
  Memory.load_store_of_disjoint (by unfold Clear at hc; omega)

theorem next_setNext_of_ne (hc : Clear h x) (hne : h ≠ x) : (s.setNext h w).next x = s.next x :=
  Memory.load_store_of_disjoint (by unfold Clear at hc; omega)

theorem prev_setPrev_of_ne (hc : Clear h x) (hne : h ≠ x) : (s.setPrev h w).prev x = s.prev x :=
  Memory.load_store_of_disjoint (by unfold Clear at hc; omega)

theorem size_lt : s.size h < 2 ^ 32 := Memory.load_lt

end State

open State

/-- The headers `xs` form the list from `holes_list_head` to `holes_list_tail`. -/
structure HolesList (s : State) (xs : List ℕ) : Prop where
  links : Links s.next s.prev 0 xs 0
  head : s.holesListHead = xs.headD 0
  tail : s.holesListTail = xs.getLastD 0
  apart : xs.Pairwise fun a b => a + 12 ≤ b
  bounds : ∀ x ∈ xs, 0 < x ∧ x < 2 ^ 32

/-- The list words of the headers. -/
def listWords (xs : List ℕ) : Set ℕ := {a | ∃ x ∈ xs, x + 4 ≤ a ∧ a < x + 12}

/-- The second state differs from the first in list words of `xs` and in the
ends of the list only. -/
structure Relinked (xs : List ℕ) (s s' : State) : Prop where
  confined : Memory.Confined (listWords xs) s.memory s'.memory
  lastPage : s'.lastPage = s.lastPage
  frames : s'.frames = s.frames
  tables : s'.tables = s.tables
  mapped : s'.mapped = s.mapped

namespace Relinked

theorem refl (xs : List ℕ) (s : State) : Relinked xs s s :=
  ⟨Memory.Confined.refl _ _, rfl, rfl, rfl, rfl⟩

theorem setHead (hr : Relinked xs s s') : Relinked xs s (s'.setHead h) :=
  ⟨hr.confined, hr.lastPage, hr.frames, hr.tables, hr.mapped⟩

theorem setTail (hr : Relinked xs s s') : Relinked xs s (s'.setTail h) :=
  ⟨hr.confined, hr.lastPage, hr.frames, hr.tables, hr.mapped⟩

theorem setNext (hr : Relinked xs s s') (hx : h ∈ xs) : Relinked xs s (s'.setNext h w) :=
  ⟨hr.confined.trans (Memory.confined_store fun _ _ _ => ⟨h, hx, by omega, by omega⟩),
    hr.lastPage, hr.frames, hr.tables, hr.mapped⟩

theorem setPrev (hr : Relinked xs s s') (hx : h ∈ xs) : Relinked xs s (s'.setPrev h w) :=
  ⟨hr.confined.trans (Memory.confined_store fun _ _ _ => ⟨h, hx, by omega, by omega⟩),
    hr.lastPage, hr.frames, hr.tables, hr.mapped⟩

/-- A header that coincides with none of the relinked ones keeps its words. -/
theorem size_eq (hr : Relinked xs s s') (hc : ∀ y ∈ xs, Clear y x) : s'.size x = s.size x :=
  hr.confined.load_eq fun a h₁ h₂ => by
    rintro ⟨y, hy, h₃, h₄⟩
    have := hc y hy
    unfold Clear at this
    omega

theorem next_eq (hr : Relinked xs s s') (hc : ∀ y ∈ xs, y + 12 ≤ x ∨ x + 12 ≤ y) :
    s'.next x = s.next x :=
  hr.confined.load_eq fun a h₁ h₂ => by
    rintro ⟨y, hy, h₃, h₄⟩
    have := hc y hy
    omega

theorem prev_eq (hr : Relinked xs s s') (hc : ∀ y ∈ xs, y + 12 ≤ x ∨ x + 12 ≤ y) :
    s'.prev x = s.prev x :=
  hr.confined.load_eq fun a h₁ h₂ => by
    rintro ⟨y, hy, h₃, h₄⟩
    have := hc y hy
    omega

end Relinked

namespace HolesList

theorem nodup (hl : HolesList s xs) : xs.Nodup :=
  hl.apart.imp fun hab => by omega

theorem clear (hl : HolesList s xs) {a b : ℕ} (ha : a ∈ xs) (hb : b ∈ xs) : Clear a b :=
  List.Pairwise.forall_of_forall_of_flip (R := Clear) (fun _ _ => Or.inl rfl)
    (hl.apart.imp fun hab => Or.inr (Or.inl hab))
    (hl.apart.imp fun hab => Or.inr (Or.inr hab)) ha hb

theorem tail_ne_zero (hl : HolesList s xs) (hne : xs ≠ []) : s.holesListTail ≠ 0 := by
  have hmem : xs.getLastD 0 ∈ xs := by
    rw [List.getLastD_eq_getLast?, List.getLast?_eq_getLast_of_ne_nil hne]
    exact List.getLast_mem hne
  have := hl.bounds _ hmem
  rw [hl.tail]
  omega

theorem head_ne_zero (hl : HolesList s xs) (hne : xs ≠ []) : s.holesListHead ≠ 0 := by
  rw [hl.head]
  cases xs with
  | nil => exact absurd rfl hne
  | cons x xs =>
      have := hl.bounds x List.mem_cons_self
      simp only [List.headD_cons]
      omega

/-- The list is shorter than the number of steps a loop over it may take. -/
theorem length_lt (hl : HolesList s xs) : xs.length < stepLimit := by
  have hsub : xs.toFinset ⊆ Finset.Ico 1 (2 ^ 32) := by
    intro x hx
    have := hl.bounds x (List.mem_toFinset.mp hx)
    rw [Finset.mem_Ico]
    omega
  have hcard := Finset.card_le_card hsub
  rw [List.toFinset_card_of_nodup hl.nodup, Nat.card_Ico] at hcard
  unfold stepLimit
  omega

/-! ## Insertion -/

theorem findNodeAfter_eq {before steps : ℕ} (hl : Links s.next s.prev before (l₁ ++ l₂) 0)
    (hlow : ∀ x ∈ l₁, 0 < x ∧ x ≤ h) (hhigh : ∀ x, l₂.head? = some x → h < x)
    (hsteps : l₁.length < steps) :
    s.findNodeAfter h steps ((l₁ ++ l₂).headD 0) = some (l₂.headD 0) := by
  induction l₁ generalizing before steps with
  | nil =>
      obtain ⟨steps, rfl⟩ := Nat.exists_eq_succ_of_ne_zero (Nat.ne_of_gt hsteps)
      cases l₂ with
      | nil => simp [findNodeAfter]
      | cons y l₂ =>
          have hy : h < y := hhigh y rfl
          rw [List.nil_append, List.headD_cons, findNodeAfter, if_neg (by omega), if_pos hy]
  | cons x l₁ ih =>
      obtain ⟨steps, rfl⟩ := Nat.exists_eq_succ_of_ne_zero (Nat.ne_of_gt (Nat.zero_lt_of_lt hsteps))
      obtain ⟨-, hnext, hrest⟩ := hl
      have hx := hlow x List.mem_cons_self
      rw [List.cons_append, List.headD_cons, findNodeAfter, if_neg (by omega),
        if_neg (by omega), hnext]
      exact ih hrest (fun y hy => hlow y (List.mem_cons_of_mem x hy))
        (by simpa using hsteps)

/-- The loop of `insert_to_holes_list` ends at the first header above. -/
theorem findNode (hl : HolesList s (l₁ ++ l₂)) (hlow : ∀ x ∈ l₁, x ≤ h)
    (hhigh : ∀ x ∈ l₂, h < x) :
    s.findNodeAfter h stepLimit s.holesListHead = some (l₂.headD 0) := by
  have hlength := hl.length_lt
  rw [List.length_append] at hlength
  rw [hl.head]
  apply findNodeAfter_eq hl.links
  · exact fun x hx => ⟨(hl.bounds x (List.mem_append_left l₂ hx)).1, hlow x hx⟩
  · exact fun x hx => hhigh x (List.mem_of_head? hx)
  · omega

/-- The facts about the new links that make the longer list well formed. -/
theorem insert_of_links (hl : HolesList s (l₁ ++ l₂)) (hpos : 0 < h) (hlt : h < 2 ^ 32)
    (hlow : ∀ x ∈ l₁, x + 12 ≤ h) (hhigh : ∀ x ∈ l₂, h + 12 ≤ x)
    (hnext : s'.next h = l₂.headD 0) (hprev : s'.prev h = l₁.getLastD 0)
    (hlast : ∀ x, l₁.getLast? = some x → s'.next x = h)
    (hfirst : ∀ x, l₂.head? = some x → s'.prev x = h)
    (hnext' : ∀ x ∈ l₁ ++ l₂, l₁.getLast? ≠ some x → s'.next x = s.next x)
    (hprev' : ∀ x ∈ l₁ ++ l₂, l₂.head? ≠ some x → s'.prev x = s.prev x)
    (hhead : s'.holesListHead = l₁.headD h) (htail : s'.holesListTail = l₂.getLastD h) :
    HolesList s' (l₁ ++ h :: l₂) where
  links := hl.links.insert hl.nodup hnext hprev hlast hfirst hnext' hprev'
  head := by rw [hhead]; cases l₁ <;> simp
  tail := by rw [htail]; simp [List.getLastD_eq_getLast?, List.getLast?_append, List.getLast?_cons]
  apart := by
    obtain ⟨h₁, h₂, h₁₂⟩ := List.pairwise_append.mp hl.apart
    refine List.pairwise_append.mpr ⟨h₁, List.pairwise_cons.mpr ⟨hhigh, h₂⟩, ?_⟩
    intro a ha b hb
    rcases List.mem_cons.mp hb with rfl | hb
    · exact hlow a ha
    · exact h₁₂ a ha b hb
  bounds := by
    intro x hx
    rcases List.mem_append.mp hx with hx | hx
    · exact hl.bounds x (List.mem_append_left l₂ hx)
    · rcases List.mem_cons.mp hx with rfl | hx
      · exact ⟨hpos, hlt⟩
      · exact hl.bounds x (List.mem_append_right l₁ hx)

theorem fresh_of_bounds (hlow : ∀ x ∈ l₁, x + 12 ≤ h) (hhigh : ∀ x ∈ l₂, h + 12 ≤ x) :
    ∀ x ∈ l₁ ++ l₂, Clear h x ∧ h ≠ x := by
  intro x hx
  unfold Clear
  rcases List.mem_append.mp hx with hx | hx
  · have := hlow x hx
    omega
  · have := hhigh x hx
    omega

theorem insert_only (hl : HolesList s []) (hpos : 0 < h) (hlt : h < 2 ^ 32) :
    HolesList ((((s.setTail h).setHead h).setNext h 0).setPrev h 0) [h] := by
  have hself : Clear h h := Or.inl rfl
  have hzero : (0 : ℕ) < 2 ^ 32 := by decide
  have hempty : HolesList s ([] ++ []) := hl
  refine hempty.insert_of_links hpos hlt (by simp) (by simp) ?_ ?_ (by simp) (by simp) (by simp)
    (by simp) rfl rfl
  · simp (disch := assumption) only [next_setPrev, next_setNext_self, List.headD_nil]
  · simp

theorem insert_first {n : ℕ} {rest : List ℕ} (hl : HolesList s (n :: rest)) (hpos : 0 < h)
    (hlt : h < 2 ^ 32) (hhigh : ∀ x ∈ n :: rest, h + 12 ≤ x) :
    HolesList ((((s.setHead h).setPrev h 0).setNext h n).setPrev n h) (h :: n :: rest) := by
  have hself : Clear h h := Or.inl rfl
  have hzero : (0 : ℕ) < 2 ^ 32 := by decide
  have hbelow : ∀ x ∈ ([] : List ℕ), x + 12 ≤ h := by simp
  have hfresh := fresh_of_bounds hbelow hhigh
  have hnlt := (hl.bounds n (by simp)).2
  obtain ⟨hhn, hnh'⟩ := hfresh n (by simp)
  have hnh := hhn.symm
  have hne := hnh'.symm
  have hall : HolesList s ([] ++ n :: rest) := hl
  refine hall.insert_of_links hpos hlt hbelow hhigh ?_ ?_ (by simp) ?_ ?_ ?_ rfl ?_
  · simp (disch := assumption) only [next_setPrev, next_setNext_self, List.headD_cons]
  · simp (disch := assumption) only [prev_setPrev_of_ne, prev_setNext, prev_setPrev_self,
      List.getLastD_nil]
  · intro x hx
    obtain rfl : n = x := by simpa using hx
    exact prev_setPrev_self hlt
  · intro x hx _
    have hnx := hl.clear (a := n) (by simp) hx
    obtain ⟨hhx, hhx'⟩ := hfresh x hx
    simp (disch := assumption) only [next_setPrev, next_setNext_of_ne, next_setHead]
  · intro x hx hfirst
    have hnx := hl.clear (a := n) (by simp) hx
    obtain ⟨hhx, hhx'⟩ := hfresh x hx
    have hnx' : n ≠ x := by simpa using hfirst
    simp (disch := assumption) only [prev_setPrev_of_ne, prev_setNext, prev_setHead]
  · simpa [List.getLast?_cons] using hl.tail

theorem insert_last {p : ℕ} {front : List ℕ} (hl : HolesList s (front ++ [p])) (hpos : 0 < h)
    (hlt : h < 2 ^ 32) (hlow : ∀ x ∈ front ++ [p], x + 12 ≤ h) :
    HolesList ((((s.setNext p h).setPrev h p).setTail h).setNext h 0) (front ++ [p] ++ [h]) := by
  have hself : Clear h h := Or.inl rfl
  have hzero : (0 : ℕ) < 2 ^ 32 := by decide
  have hl' : HolesList s (front ++ [p] ++ []) := by simpa using hl
  have habove : ∀ x ∈ ([] : List ℕ), h + 12 ≤ x := by simp
  have hfresh := fresh_of_bounds hlow habove
  rw [List.append_nil] at hfresh
  have hplt := (hl.bounds p (by simp)).2
  obtain ⟨hhp, hne⟩ := hfresh p (by simp)
  have hph := hhp.symm
  have hne' := hne.symm
  refine insert_of_links hl' hpos hlt hlow (by simp) ?_ ?_ ?_ (by simp) ?_ ?_ ?_ rfl
  · simp (disch := assumption) only [next_setNext_self, List.headD_nil]
  · simp (disch := assumption) only [prev_setNext, prev_setTail, prev_setPrev_self,
      List.getLastD_concat]
  · intro x hx
    obtain rfl : p = x := by simpa using hx
    simp (disch := assumption) only [next_setNext_of_ne, next_setTail, next_setPrev,
      next_setNext_self]
  · intro x hx hlast
    rw [List.append_nil] at hx
    have hpx := hl.clear (a := p) (by simp) hx
    obtain ⟨hhx, hhx'⟩ := hfresh x hx
    have hpx' : p ≠ x := by simpa using hlast
    simp (disch := assumption) only [next_setNext_of_ne, next_setTail, next_setPrev]
  · intro x hx _
    rw [List.append_nil] at hx
    have hpx := hl.clear (a := p) (by simp) hx
    obtain ⟨hhx, hhx'⟩ := hfresh x hx
    simp (disch := assumption) only [prev_setNext, prev_setTail, prev_setPrev_of_ne]
  · have := hl.head
    cases front <;> simpa using this

theorem insert_middle {p n : ℕ} {front rest : List ℕ}
    (hl : HolesList s (front ++ [p] ++ n :: rest)) (hpos : 0 < h) (hlt : h < 2 ^ 32)
    (hlow : ∀ x ∈ front ++ [p], x + 12 ≤ h) (hhigh : ∀ x ∈ n :: rest, h + 12 ≤ x) :
    HolesList ((((s.setNext p h).setPrev h p).setPrev n h).setNext h n)
      (front ++ [p] ++ h :: n :: rest) := by
  have hself : Clear h h := Or.inl rfl
  have hfresh := fresh_of_bounds hlow hhigh
  have hplt := (hl.bounds p (by simp)).2
  have hnlt := (hl.bounds n (by simp)).2
  obtain ⟨hhp, hne⟩ := hfresh p (by simp)
  obtain ⟨hhn, hnne⟩ := hfresh n (by simp)
  have hph := hhp.symm
  have hnh := hhn.symm
  have hne' := hne.symm
  have hnne' := hnne.symm
  have hpn := hl.clear (a := p) (b := n) (by simp) (by simp)
  have hnp := hpn.symm
  refine insert_of_links hl hpos hlt hlow hhigh ?_ ?_ ?_ ?_ ?_ ?_ ?_ ?_
  · simp (disch := assumption) only [next_setNext_self, List.headD_cons]
  · simp (disch := assumption) only [prev_setNext, prev_setPrev_of_ne, prev_setPrev_self,
      List.getLastD_concat]
  · intro x hx
    obtain rfl : p = x := by simpa using hx
    simp (disch := assumption) only [next_setNext_of_ne, next_setPrev, next_setNext_self]
  · intro x hx
    obtain rfl : n = x := by simpa using hx
    simp (disch := assumption) only [prev_setNext, prev_setPrev_self]
  · intro x hx hlast
    have hpx := hl.clear (a := p) (by simp) hx
    have hnx := hl.clear (a := n) (by simp) hx
    obtain ⟨hhx, hhx'⟩ := hfresh x hx
    have hpx' : p ≠ x := by simpa using hlast
    simp (disch := assumption) only [next_setNext_of_ne, next_setPrev]
  · intro x hx hfirst
    have hpx := hl.clear (a := p) (by simp) hx
    have hnx := hl.clear (a := n) (by simp) hx
    obtain ⟨hhx, hhx'⟩ := hfresh x hx
    have hnx' : n ≠ x := by simpa using hfirst
    simp (disch := assumption) only [prev_setNext, prev_setPrev_of_ne]
  · have := hl.head
    cases front <;> simpa using this
  · simpa [List.getLast?_cons] using hl.tail

/-- `insert_to_holes_list` links a header that overlaps no listed one in at
its place. -/
theorem insert (hl : HolesList s (l₁ ++ l₂)) (hpos : 0 < h) (hlt : h < 2 ^ 32)
    (hlow : ∀ x ∈ l₁, x + 12 ≤ h) (hhigh : ∀ x ∈ l₂, h + 12 ≤ x) :
    ∃ s', s.insertToHolesList h = some s' ∧ HolesList s' (l₁ ++ h :: l₂) ∧
      Relinked (l₁ ++ h :: l₂) s s' := by
  have hfind := hl.findNode (h := h) (fun x hx => (Nat.le_add_right x 12).trans (hlow x hx))
    fun x hx => by
      have := hhigh x hx
      omega
  have hr := Relinked.refl (l₁ ++ h :: l₂) s
  rcases List.eq_nil_or_concat' l₁ with rfl | ⟨front, p, rfl⟩
  · cases l₂ with
    | nil =>
        have htail : s.holesListTail = 0 := by simpa using hl.tail
        refine ⟨_, ?_, insert_only hl hpos hlt, (hr.setTail.setHead.setNext (by simp)).setPrev (by simp)⟩
        rw [insertToHolesList, if_pos htail]
    | cons n rest =>
        have htail : s.holesListTail ≠ 0 := hl.tail_ne_zero (by simp)
        have hhead : n = s.holesListHead := by simpa using hl.head.symm
        refine ⟨_, ?_, insert_first hl hpos hlt hhigh,
          ((hr.setHead.setPrev (by simp)).setNext (by simp)).setPrev (by simp)⟩
        rw [insertToHolesList, if_neg htail, hfind]
        simp only [Option.bind_eq_bind, Option.bind_some, List.headD_cons, ← hhead, if_true]
  · have htail : s.holesListTail ≠ 0 := hl.tail_ne_zero (by simp)
    cases l₂ with
    | nil =>
        have hl' : HolesList s (front ++ [p]) := by simpa using hl
        have htail' : s.holesListTail = p := by simpa using hl.tail
        have hhead : (0 : ℕ) ≠ s.holesListHead := (hl.head_ne_zero (by simp)).symm
        refine ⟨_, ?_, insert_last hl' hpos hlt hlow,
          (((hr.setNext (by simp)).setPrev (by simp)).setTail).setNext (by simp)⟩
        rw [insertToHolesList, if_neg htail, hfind]
        simp only [Option.bind_eq_bind, Option.bind_some, List.headD_nil, if_neg hhead, if_true,
          tail_setNext, htail']
    | cons n rest =>
        have hprev : s.prev n = p := by
          have hnode := hl.links.at_node
          simpa using hnode.1
        have hhead : n ≠ s.holesListHead := by
          rw [hl.head]
          have hnodup := hl.nodup
          cases front with
          | nil =>
              rintro rfl
              simp at hnodup
          | cons f front =>
              rintro rfl
              simp at hnodup
        have hn := hl.bounds n (by simp)
        refine ⟨_, ?_, insert_middle hl hpos hlt hlow hhigh,
          (((hr.setNext (by simp)).setPrev (by simp)).setPrev (by simp)).setNext (by simp)⟩
        rw [insertToHolesList, if_neg htail, hfind]
        simp only [Option.bind_eq_bind, Option.bind_some, List.headD_cons, if_neg hhead,
          if_neg (Nat.ne_of_gt hn.1), hprev]

/-! ## Removal -/

theorem remove_of_links (hl : HolesList s (l₁ ++ h :: l₂))
    (hlast : ∀ x, l₁.getLast? = some x → s'.next x = l₂.headD 0)
    (hfirst : ∀ x, l₂.head? = some x → s'.prev x = l₁.getLastD 0)
    (hnext : ∀ x ∈ l₁ ++ l₂, l₁.getLast? ≠ some x → s'.next x = s.next x)
    (hprev : ∀ x ∈ l₁ ++ l₂, l₂.head? ≠ some x → s'.prev x = s.prev x)
    (hhead : s'.holesListHead = (l₁ ++ l₂).headD 0)
    (htail : s'.holesListTail = (l₁ ++ l₂).getLastD 0) : HolesList s' (l₁ ++ l₂) := by
  have hsub : (l₁ ++ l₂).Sublist (l₁ ++ h :: l₂) :=
    (List.sublist_cons_self h l₂).append_left l₁
  exact ⟨hl.links.remove (hl.nodup.sublist hsub) hlast hfirst hnext hprev, hhead, htail,
    hl.apart.sublist hsub, fun x hx => hl.bounds x (hsub.subset hx)⟩

theorem remove_first {n : ℕ} {rest : List ℕ} (hl : HolesList s (h :: n :: rest)) :
    HolesList ((s.setHead n).setPrev n 0) (n :: rest) := by
  have hall : HolesList s ([] ++ h :: n :: rest) := hl
  refine hall.remove_of_links (by simp) ?_ ?_ ?_ rfl ?_
  · intro x hx
    obtain rfl : n = x := by simpa using hx
    exact prev_setPrev_self (by decide)
  · intro x hx _
    exact next_setPrev (hl.clear (by simp) (List.mem_cons_of_mem h hx))
  · intro x hx hfirst
    exact prev_setPrev_of_ne (hl.clear (by simp) (List.mem_cons_of_mem h hx))
      (by simpa using hfirst)
  · simpa [List.getLast?_cons] using hl.tail

theorem remove_last {p : ℕ} {front : List ℕ} (hl : HolesList s (front ++ [p] ++ [h])) :
    HolesList ((s.setTail p).setNext p 0) (front ++ [p]) := by
  have hsub : ∀ x ∈ front ++ [p], x ∈ front ++ [p] ++ [h] := fun x hx =>
    List.mem_append_left [h] hx
  have hresult : HolesList ((s.setTail p).setNext p 0) (front ++ [p] ++ []) := by
    refine remove_of_links hl ?_ (by simp) ?_ ?_ ?_ (by simp)
    · intro x hx
      obtain rfl : p = x := by simpa using hx
      exact next_setNext_self (by decide)
    · intro x hx hlast
      rw [List.append_nil] at hx
      exact next_setNext_of_ne (hl.clear (by simp) (hsub x hx)) (by simpa using hlast)
    · intro x hx _
      rw [List.append_nil] at hx
      exact prev_setNext (hl.clear (by simp) (hsub x hx))
    · have := hl.head
      cases front <;> simpa using this
  simpa using hresult

theorem remove_middle {p n : ℕ} {front rest : List ℕ}
    (hl : HolesList s (front ++ [p] ++ h :: n :: rest)) :
    HolesList ((s.setNext p n).setPrev n p) (front ++ [p] ++ n :: rest) := by
  have hsub : ∀ x ∈ front ++ [p] ++ n :: rest, x ∈ front ++ [p] ++ h :: n :: rest := by
    intro x hx
    simp only [List.mem_append, List.mem_cons] at hx ⊢
    tauto
  have hplt := (hl.bounds p (by simp)).2
  have hnlt := (hl.bounds n (by simp)).2
  have hpn := hl.clear (a := p) (b := n) (by simp) (by simp)
  have hnp := hpn.symm
  refine remove_of_links hl ?_ ?_ ?_ ?_ ?_ ?_
  · intro x hx
    obtain rfl : p = x := by simpa using hx
    simp (disch := assumption) only [next_setPrev, next_setNext_self, List.headD_cons]
  · intro x hx
    obtain rfl : n = x := by simpa using hx
    simp (disch := assumption) only [prev_setPrev_self, List.getLastD_concat]
  · intro x hx hlast
    have hpx := hl.clear (a := p) (by simp) (hsub x hx)
    have hnx := hl.clear (a := n) (by simp) (hsub x hx)
    have hpx' : p ≠ x := by simpa using hlast
    simp (disch := assumption) only [next_setPrev, next_setNext_of_ne]
  · intro x hx hfirst
    have hpx := hl.clear (a := p) (by simp) (hsub x hx)
    have hnx := hl.clear (a := n) (by simp) (hsub x hx)
    have hnx' : n ≠ x := by simpa using hfirst
    simp (disch := assumption) only [prev_setPrev_of_ne, prev_setNext]
  · have := hl.head
    cases front <;> simpa using this
  · simpa [List.getLast?_cons] using hl.tail

/-- `remove_from_holes_list` unlinks a listed header. -/
theorem remove (hl : HolesList s (l₁ ++ h :: l₂)) :
    HolesList (s.removeFromHolesList h) (l₁ ++ l₂) ∧
      Relinked (l₁ ++ l₂) s (s.removeFromHolesList h) := by
  obtain ⟨hprev, hnext⟩ := hl.links.at_node
  have hr := Relinked.refl (l₁ ++ l₂) s
  rcases List.eq_nil_or_concat' l₁ with rfl | ⟨front, p, rfl⟩
  · cases l₂ with
    | nil =>
        have hrem : s.removeFromHolesList h = (s.setTail 0).setHead 0 := by
          rw [removeFromHolesList, if_pos ⟨by simpa using hprev, by simpa using hnext⟩]
        rw [hrem]
        exact ⟨⟨trivial, rfl, rfl, List.Pairwise.nil, by simp⟩, hr.setTail.setHead⟩
    | cons n rest =>
        rw [List.headD_cons] at hnext
        have hn := (hl.bounds n (by simp)).1
        have hhead : s.holesListHead = h := by simpa using hl.head
        have hrem : s.removeFromHolesList h = (s.setHead n).setPrev n 0 := by
          rw [removeFromHolesList, if_neg (by omega), if_pos hhead.symm]
          simp only [hhead, hnext, head_setHead]
        rw [hrem]
        exact ⟨remove_first hl, hr.setHead.setPrev (by simp)⟩
  · rw [List.getLastD_concat] at hprev
    have hp := (hl.bounds p (by simp)).1
    have hph : p + 12 ≤ h :=
      (List.pairwise_append.mp hl.apart).2.2 p (by simp) h (by simp)
    have hhead : h ≠ s.holesListHead := by
      rw [hl.head]
      have hnodup := hl.nodup
      cases front with
      | nil =>
          rintro rfl
          simp at hnodup
      | cons f front =>
          rintro rfl
          simp at hnodup
    cases l₂ with
    | nil =>
        have htail : s.holesListTail = h := by simpa using hl.tail
        have hrem : s.removeFromHolesList h = (s.setTail p).setNext p 0 := by
          rw [removeFromHolesList, if_neg (by omega), if_neg hhead, if_pos htail.symm]
          simp only [htail, hprev, tail_setTail]
        rw [hrem, List.append_nil]
        exact ⟨remove_last hl, (Relinked.refl _ s).setTail.setNext (by simp)⟩
    | cons n rest =>
        rw [List.headD_cons] at hnext
        have htail : h ≠ s.holesListTail := by
          have hmem : rest.getLastD n ∈ n :: rest := by
            rw [List.getLastD_eq_getLast?]
            cases hlast : rest.getLast? with
            | none => exact List.mem_cons_self
            | some x => exact List.mem_cons_of_mem n (List.mem_of_getLast? hlast)
          have hafter := (List.pairwise_cons.mp
            (List.pairwise_append.mp hl.apart).2.1).1 _ hmem
          have heq : s.holesListTail = rest.getLastD n := by
            rw [hl.tail]
            simp [List.getLastD_eq_getLast?, List.getLast?_cons]
          omega
        have hclear : Clear p h := Or.inr (Or.inl hph)
        have hne : p ≠ h := by omega
        have hrem : s.removeFromHolesList h = (s.setNext p n).setPrev n p := by
          rw [removeFromHolesList, if_neg (by omega), if_neg hhead, if_neg htail]
          simp (disch := assumption) only [hprev, hnext, next_setNext_of_ne, prev_setNext]
        rw [hrem]
        exact ⟨remove_middle hl, (hr.setNext (by simp)).setPrev (by simp)⟩

end HolesList

end AviKernel.Heap
