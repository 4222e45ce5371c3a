import Mathlib.Data.List.Basic
import Mathlib.Tactic

/-!
# Doubly linked lists in a store

The nodes of a list are linked by two functions `next` and `prev`.  A segment
is described by its nodes, the node before it and the node after it, so that
linking in and unlinking a node are statements about the two segments around
it and need no case distinction on their being empty.
-/

namespace AviKernel

variable {α : Type*} {next prev next' prev' : α → α} {before after target h : α} {xs ys l₁ l₂ : List α}

/-- The nodes `xs` are linked in order, after `before` and ahead of `after`. -/
def Links (next prev : α → α) : α → List α → α → Prop
  | _, [], _ => True
  | before, x :: xs, after =>
      prev x = before ∧ next x = xs.headD after ∧ Links next prev x xs after

@[simp] theorem links_nil : Links next prev before [] after := trivial

@[simp] theorem links_cons {x : α} : Links next prev before (x :: xs) after ↔
    prev x = before ∧ next x = xs.headD after ∧ Links next prev x xs after := Iff.rfl

theorem links_append : Links next prev before (xs ++ ys) after ↔
    Links next prev before xs (ys.headD after) ∧
      Links next prev (xs.getLastD before) ys after := by
  induction xs generalizing before with
  | nil => simp
  | cons x xs ih =>
      have hhead : (xs ++ ys).headD after = xs.headD (ys.headD after) := by
        cases xs <;> simp
      rw [List.cons_append, links_cons, links_cons, ih, hhead, List.getLastD_cons]
      tauto

theorem Links.congr (hl : Links next prev before xs after)
    (hnext : ∀ x ∈ xs, next' x = next x) (hprev : ∀ x ∈ xs, prev' x = prev x) :
    Links next' prev' before xs after := by
  induction xs generalizing before with
  | nil => trivial
  | cons x xs ih =>
      obtain ⟨hp, hn, hrest⟩ := hl
      refine ⟨?_, ?_, ih hrest (fun y hy => hnext y (List.mem_cons_of_mem x hy))
        fun y hy => hprev y (List.mem_cons_of_mem x hy)⟩
      · rw [hprev x List.mem_cons_self, hp]
      · rw [hnext x List.mem_cons_self, hn]

/-- Changing where the last node of a segment points. -/
theorem Links.retarget_last (hl : Links next prev before xs after) (hnodup : xs.Nodup)
    (hlast : ∀ x, xs.getLast? = some x → next' x = target)
    (hnext : ∀ x ∈ xs, xs.getLast? ≠ some x → next' x = next x)
    (hprev : ∀ x ∈ xs, prev' x = prev x) : Links next' prev' before xs target := by
  induction xs generalizing before with
  | nil => trivial
  | cons x xs ih =>
      obtain ⟨hp, hn, hrest⟩ := hl
      rw [List.nodup_cons] at hnodup
      cases xs with
      | nil => exact ⟨by rw [hprev x List.mem_cons_self, hp], hlast x rfl, trivial⟩
      | cons y ys =>
          rw [List.getLast?_cons_cons] at hlast hnext
          have hx : (y :: ys).getLast? ≠ some x := fun h => hnodup.1 (List.mem_of_getLast? h)
          refine ⟨?_, ?_, ih hrest hnodup.2 hlast
            (fun z hz => hnext z (List.mem_cons_of_mem x hz))
            fun z hz => hprev z (List.mem_cons_of_mem x hz)⟩
          · rw [hprev x List.mem_cons_self, hp]
          · rw [hnext x List.mem_cons_self hx, hn]
            rfl

/-- Changing what the first node of a segment points back to. -/
theorem Links.retarget_first (hl : Links next prev before xs after) (hnodup : xs.Nodup)
    (hfirst : ∀ x, xs.head? = some x → prev' x = target)
    (hprev : ∀ x ∈ xs, xs.head? ≠ some x → prev' x = prev x)
    (hnext : ∀ x ∈ xs, next' x = next x) : Links next' prev' target xs after := by
  cases xs with
  | nil => trivial
  | cons x xs =>
      obtain ⟨_, hn, hrest⟩ := hl
      rw [List.nodup_cons] at hnodup
      refine ⟨hfirst x rfl, ?_, hrest.congr (fun y hy => hnext y (List.mem_cons_of_mem x hy))
        fun y hy => hprev y (List.mem_cons_of_mem x hy) ?_⟩
      · rw [hnext x List.mem_cons_self, hn]
      · rintro heq
        exact hnodup.1 (Option.some.inj heq ▸ hy)

/-- Linking `h` in between two segments writes its own links, the forward link
of the node before it and the backward link of the node after it. -/
theorem Links.insert (hl : Links next prev before (l₁ ++ l₂) after) (hnodup : (l₁ ++ l₂).Nodup)
    (hh : next' h = l₂.headD after) (hh' : prev' h = l₁.getLastD before)
    (hlast : ∀ x, l₁.getLast? = some x → next' x = h)
    (hfirst : ∀ x, l₂.head? = some x → prev' x = h)
    (hnext : ∀ x ∈ l₁ ++ l₂, l₁.getLast? ≠ some x → next' x = next x)
    (hprev : ∀ x ∈ l₁ ++ l₂, l₂.head? ≠ some x → prev' x = prev x) :
    Links next' prev' before (l₁ ++ h :: l₂) after := by
  rw [links_append] at hl ⊢
  obtain ⟨hnodup₁, hnodup₂, hdisj⟩ := List.nodup_append.mp hnodup
  refine ⟨?_, hh', hh, ?_⟩
  · refine hl.1.retarget_last hnodup₁ hlast
      (fun x hx => hnext x (List.mem_append_left l₂ hx)) fun x hx => ?_
    exact hprev x (List.mem_append_left l₂ hx) fun hx₂ =>
      hdisj x hx x (List.mem_of_head? hx₂) rfl
  · refine hl.2.retarget_first hnodup₂ hfirst
      (fun x hx => hprev x (List.mem_append_right l₁ hx)) fun x hx => ?_
    exact hnext x (List.mem_append_right l₁ hx) fun hx₁ =>
      hdisj x (List.mem_of_getLast? hx₁) x hx rfl

/-- Unlinking `h` writes the forward link of the node before it and the
backward link of the node after it. -/
theorem Links.remove (hl : Links next prev before (l₁ ++ h :: l₂) after)
    (hnodup : (l₁ ++ l₂).Nodup)
    (hlast : ∀ x, l₁.getLast? = some x → next' x = l₂.headD after)
    (hfirst : ∀ x, l₂.head? = some x → prev' x = l₁.getLastD before)
    (hnext : ∀ x ∈ l₁ ++ l₂, l₁.getLast? ≠ some x → next' x = next x)
    (hprev : ∀ x ∈ l₁ ++ l₂, l₂.head? ≠ some x → prev' x = prev x) :
    Links next' prev' before (l₁ ++ l₂) after := by
  rw [links_append] at hl ⊢
  obtain ⟨hl₁, -, -, hl₂⟩ := hl
  obtain ⟨hnodup₁, hnodup₂, hdisj⟩ := List.nodup_append.mp hnodup
  refine ⟨?_, ?_⟩
  · refine hl₁.retarget_last hnodup₁ hlast
      (fun x hx => hnext x (List.mem_append_left l₂ hx)) fun x hx => ?_
    exact hprev x (List.mem_append_left l₂ hx) fun hx₂ =>
      hdisj x hx x (List.mem_of_head? hx₂) rfl
  · refine hl₂.retarget_first hnodup₂ hfirst
      (fun x hx => hprev x (List.mem_append_right l₁ hx)) fun x hx => ?_
    exact hnext x (List.mem_append_right l₁ hx) fun hx₁ =>
      hdisj x (List.mem_of_getLast? hx₁) x hx rfl

/-- The links of a node inside a segment. -/
theorem Links.at_node (hl : Links next prev before (l₁ ++ h :: l₂) after) :
    prev h = l₁.getLastD before ∧ next h = l₂.headD after := by
  rw [links_append] at hl
  exact ⟨hl.2.1, hl.2.2.1⟩

end AviKernel
