import Mathlib.Algebra.BigOperators.Group.Finset.Basic
import Mathlib.Algebra.BigOperators.Group.List.Basic
import Mathlib.Order.Interval.Finset.Nat
import Mathlib.Tactic

/-!
# Extents and exact covers

An extent is a half-open interval of addresses.  The number of extents of a
list that contain a given address is additive over lists, so a layout is
changed by adding and subtracting indicator functions; "every byte belongs
to exactly one block" is the statement that this number is one.
-/

namespace AviKernel

/-- The addresses `start, …, start + size - 1`. -/
structure Extent where
  start : ℕ
  size : ℕ
deriving DecidableEq, Repr

namespace Extent

instance : Membership ℕ Extent where
  mem e a := e.start ≤ a ∧ a < e.start + e.size

theorem mem_def {e : Extent} {a : ℕ} : a ∈ e ↔ e.start ≤ a ∧ a < e.start + e.size := Iff.rfl

instance (e : Extent) (a : ℕ) : Decidable (a ∈ e) :=
  inferInstanceAs (Decidable (e.start ≤ a ∧ a < e.start + e.size))

@[simp] theorem mem_mk {s n a : ℕ} : a ∈ (⟨s, n⟩ : Extent) ↔ s ≤ a ∧ a < s + n := Iff.rfl

/-- No address lies in both extents. -/
def Disjoint (e f : Extent) : Prop := e.start + e.size ≤ f.start ∨ f.start + f.size ≤ e.start

theorem Disjoint.symm {e f : Extent} (h : e.Disjoint f) : f.Disjoint e := Or.symm h

theorem disjoint_of_no_common {e f : Extent} (he : 0 < e.size) (hf : 0 < f.size)
    (h : ∀ a, a ∈ e → a ∉ f) : e.Disjoint f := by
  by_contra hn
  simp only [Disjoint, not_or, not_le] at hn
  rcases Nat.le_total e.start f.start with hle | hle
  · exact h f.start ⟨hle, hn.1⟩ ⟨le_rfl, by omega⟩
  · exact h e.start ⟨le_rfl, by omega⟩ ⟨hle, hn.2⟩

end Extent

/-- How many extents of the list contain the address. -/
def cover (es : List Extent) (a : ℕ) : ℕ := es.countP (fun e => decide (a ∈ e))

/-- The sum of the sizes. -/
def totalSize (es : List Extent) : ℕ := (es.map Extent.size).sum

@[simp] theorem cover_nil (a : ℕ) : cover [] a = 0 := rfl

@[simp] theorem cover_cons (e : Extent) (es : List Extent) (a : ℕ) :
    cover (e :: es) a = cover es a + if a ∈ e then 1 else 0 := by
  simp [cover, List.countP_cons]

@[simp] theorem cover_append (es fs : List Extent) (a : ℕ) :
    cover (es ++ fs) a = cover es a + cover fs a := List.countP_append

theorem cover_pos_iff {es : List Extent} {a : ℕ} : 0 < cover es a ↔ ∃ e ∈ es, a ∈ e := by
  simp [cover, List.countP_pos_iff]

theorem cover_pos_of_mem {es : List Extent} {e : Extent} {a : ℕ} (he : e ∈ es) (ha : a ∈ e) :
    0 < cover es a := cover_pos_iff.mpr ⟨e, he, ha⟩

/-- Cutting an extent in two does not change what it covers. -/
theorem indicator_split (s m n a : ℕ) :
    (if a ∈ (⟨s, m + n⟩ : Extent) then 1 else 0) =
      (if a ∈ (⟨s, m⟩ : Extent) then 1 else 0) + if a ∈ (⟨s + m, n⟩ : Extent) then 1 else 0 := by
  simp only [Extent.mem_mk]
  split_ifs <;> omega

theorem indicator_coalesce {e f : Extent} (h : e.start + e.size = f.start) (a : ℕ) :
    (if a ∈ (⟨e.start, e.size + f.size⟩ : Extent) then 1 else 0) =
      (if a ∈ e then 1 else 0) + if a ∈ f then 1 else 0 := by
  have hsplit := indicator_split e.start e.size f.size a
  rw [h] at hsplit
  exact hsplit

/-- Two extents of a list that covers nothing twice have no common address. -/
theorem pairwise_disjoint_of_cover_le_one {es : List Extent} (hpos : ∀ e ∈ es, 0 < e.size)
    (h : ∀ a, cover es a ≤ 1) : es.Pairwise Extent.Disjoint := by
  induction es with
  | nil => exact List.Pairwise.nil
  | cons e es ih =>
      refine List.Pairwise.cons ?_ (ih (fun f hf => hpos f (List.mem_cons_of_mem e hf)) ?_)
      · intro f hf
        refine Extent.disjoint_of_no_common (hpos e List.mem_cons_self)
          (hpos f (List.mem_cons_of_mem e hf)) fun a hae haf => ?_
        have htwo := h a
        rw [cover_cons, if_pos hae] at htwo
        have := cover_pos_of_mem hf haf
        omega
      · intro a
        have := h a
        rw [cover_cons] at this
        omega

/-- Extents that are disjoint cover nothing twice. -/
theorem cover_le_one {es : List Extent} (h : es.Pairwise Extent.Disjoint) (a : ℕ) :
    cover es a ≤ 1 := by
  induction es with
  | nil => exact Nat.zero_le 1
  | cons e es ih =>
      obtain ⟨hhead, hrest⟩ := List.pairwise_cons.mp h
      have htail := ih hrest
      rw [cover_cons]
      split_ifs with he
      · have hnone : cover es a = 0 := by
          by_contra hne
          obtain ⟨f, hf, haf⟩ := cover_pos_iff.mp (Nat.pos_of_ne_zero hne)
          have hdisj := hhead f hf
          rw [Extent.mem_def] at he haf
          simp only [Extent.Disjoint] at hdisj
          omega
        omega
      · omega

/-- Any set of addresses below a bound is covered by extents of one byte. -/
theorem exists_cover (P : ℕ → Prop) [DecidablePred P] (bound : ℕ) :
    ∃ es : List Extent, ∀ a, cover es a = if a < bound ∧ P a then 1 else 0 := by
  induction bound with
  | zero => exact ⟨[], fun a => by simp⟩
  | succ n ih =>
      obtain ⟨es, hes⟩ := ih
      by_cases hn : P n
      · refine ⟨⟨n, 1⟩ :: es, fun a => ?_⟩
        rw [cover_cons, hes]
        by_cases ha : a = n
        · subst ha
          simp [hn]
        · have hlt : a < n ↔ a < n + 1 := by omega
          have hout : a ∉ (⟨n, 1⟩ : Extent) := by
            rw [Extent.mem_mk]
            omega
          rw [if_neg hout, Nat.add_zero]
          exact if_congr (and_congr_left fun _ => hlt) rfl rfl
      · refine ⟨es, fun a => ?_⟩
        rw [hes]
        by_cases ha : a = n
        · subst ha
          simp [hn]
        · have hlt : a < n ↔ a < n + 1 := by omega
          exact if_congr (and_congr_left fun _ => hlt) rfl rfl

@[simp] theorem totalSize_nil : totalSize [] = 0 := rfl

@[simp] theorem totalSize_cons (e : Extent) (es : List Extent) :
    totalSize (e :: es) = e.size + totalSize es := by simp [totalSize]

@[simp] theorem totalSize_append (es fs : List Extent) :
    totalSize (es ++ fs) = totalSize es + totalSize fs := by simp [totalSize]

theorem sum_indicator {bound : ℕ} {e : Extent} (h : e.start + e.size ≤ bound) :
    ∑ a ∈ Finset.range bound, (if a ∈ e then 1 else 0) = e.size := by
  have hfilter : (Finset.range bound).filter (· ∈ e) = Finset.Ico e.start (e.start + e.size) := by
    ext a
    simp only [Finset.mem_filter, Finset.mem_range, Finset.mem_Ico, Extent.mem_def]
    omega
  rw [← Finset.card_filter, hfilter, Nat.card_Ico]
  omega

/-- Counting how often each address below a bound is covered counts the bytes. -/
theorem sum_cover_eq_totalSize {bound : ℕ} {es : List Extent}
    (h : ∀ e ∈ es, e.start + e.size ≤ bound) :
    ∑ a ∈ Finset.range bound, cover es a = totalSize es := by
  induction es with
  | nil => simp
  | cons e es ih =>
      have hrest := ih fun f hf => h f (List.mem_cons_of_mem e hf)
      simp only [cover_cons, Finset.sum_add_distrib, totalSize_cons,
        sum_indicator (h e List.mem_cons_self), hrest]
      omega

/-- Lists that cover the same addresses equally often have the same size. -/
theorem totalSize_eq_of_cover_eq {es fs : List Extent} (h : ∀ a, cover es a = cover fs a) :
    totalSize es = totalSize fs := by
  let ends := fun gs : List Extent => (gs.map fun e => e.start + e.size).sum
  have hle : ∀ gs : List Extent, ∀ e ∈ gs, e.start + e.size ≤ ends gs := fun gs e he =>
    List.single_le_sum (by simp) _ (List.mem_map_of_mem he)
  have hes := sum_cover_eq_totalSize fun e he => (hle es e he).trans (Nat.le_add_right _ (ends fs))
  have hfs := sum_cover_eq_totalSize fun e he => (hle fs e he).trans (Nat.le_add_left _ (ends es))
  rw [← hes, ← hfs]
  exact Finset.sum_congr rfl fun a _ => h a

/-! ## Extents in order -/

/-- Nonempty extents in address order. -/
structure InOrder (es : List Extent) : Prop where
  pos : ∀ e ∈ es, 0 < e.size
  apart : es.Pairwise fun e f => e.start + e.size ≤ f.start

namespace InOrder

variable {e f : Extent} {es fs : List Extent} {a : ℕ}

theorem tail (h : InOrder (e :: es)) : InOrder es :=
  ⟨fun f hf => h.pos f (List.mem_cons_of_mem e hf), (List.pairwise_cons.mp h.apart).2⟩

theorem above (h : InOrder (e :: es)) (hf : f ∈ es) : e.start + e.size ≤ f.start :=
  (List.pairwise_cons.mp h.apart).1 f hf

theorem head_le (h : InOrder (e :: es)) (hf : f ∈ e :: es) : e.start ≤ f.start := by
  rcases List.mem_cons.mp hf with rfl | hf
  · exact le_rfl
  · have := h.above hf
    omega

/-- The first of two extents does not reach further than the other, when the
same addresses are covered and the same ones are starts. -/
theorem head_size_le (he : InOrder (e :: es)) (hf : InOrder (f :: fs)) (hstart : e.start = f.start)
    (hmem : ∀ a, (∃ g ∈ f :: fs, a ∈ g) → ∃ g ∈ e :: es, a ∈ g)
    (hstarts : ∀ a, (∃ g ∈ e :: es, g.start = a) → ∃ g ∈ f :: fs, g.start = a) :
    f.size ≤ e.size := by
  by_contra hlt
  have hfirst := he.pos e List.mem_cons_self
  obtain ⟨g, hg, hin⟩ := hmem (e.start + e.size) ⟨f, List.mem_cons_self, by omega, by omega⟩
  rw [Extent.mem_def] at hin
  have hg' : g ∈ es := by
    rcases List.mem_cons.mp hg with rfl | hg
    · omega
    · exact hg
  have habove := he.above hg'
  obtain ⟨k, hk, hkstart⟩ := hstarts g.start ⟨g, hg, rfl⟩
  rcases List.mem_cons.mp hk with rfl | hk
  · omega
  · have := hf.above hk
    omega

/-- Extents in order are known by the addresses they cover and by their starts. -/
theorem ext (he : InOrder es) (hf : InOrder fs)
    (hmem : ∀ a, (∃ e ∈ es, a ∈ e) ↔ ∃ f ∈ fs, a ∈ f)
    (hstarts : ∀ a, (∃ e ∈ es, e.start = a) ↔ ∃ f ∈ fs, f.start = a) : es = fs := by
  induction es generalizing fs with
  | nil =>
      cases fs with
      | nil => rfl
      | cons f fs =>
          obtain ⟨e, hmem, -⟩ := (hstarts f.start).mpr ⟨f, List.mem_cons_self, rfl⟩
          exact absurd hmem List.not_mem_nil
  | cons e es ih =>
      cases fs with
      | nil =>
          obtain ⟨f, hmem, -⟩ := (hstarts e.start).mp ⟨e, List.mem_cons_self, rfl⟩
          exact absurd hmem List.not_mem_nil
      | cons f fs =>
          have hstart : e.start = f.start := by
            obtain ⟨g, hg, hgstart⟩ := (hstarts e.start).mp ⟨e, List.mem_cons_self, rfl⟩
            obtain ⟨k, hk, hkstart⟩ := (hstarts f.start).mpr ⟨f, List.mem_cons_self, rfl⟩
            have hge := hf.head_le hg
            have hle := he.head_le hk
            omega
          have hsize : e.size = f.size := by
            apply le_antisymm
            · exact hf.head_size_le he hstart.symm (fun a => (hmem a).mp) fun a => (hstarts a).mpr
            · exact he.head_size_le hf hstart (fun a => (hmem a).mpr) fun a => (hstarts a).mp
          have hpos := he.pos e List.mem_cons_self
          obtain rfl : e = f := by
            cases e
            cases f
            cases hstart
            cases hsize
            rfl
          have hrest : es = fs := by
            apply ih he.tail hf.tail
            · intro a
              by_cases ha : a ∈ e
              · rw [Extent.mem_def] at ha
                have hnone : ∀ {gs : List Extent}, InOrder (e :: gs) → ¬ ∃ g ∈ gs, a ∈ g := by
                  rintro gs hgs ⟨g, hg, hag⟩
                  have habove := hgs.above hg
                  rw [Extent.mem_def] at hag
                  omega
                exact iff_of_false (hnone he) (hnone hf)
              · have h := hmem a
                simpa [ha] using h
            · intro a
              by_cases ha : e.start = a
              · have hnone : ∀ {gs : List Extent}, InOrder (e :: gs) →
                    ¬ ∃ g ∈ gs, g.start = a := by
                  rintro gs hgs ⟨g, hg, hga⟩
                  have habove := hgs.above hg
                  omega
                exact iff_of_false (hnone he) (hnone hf)
              · have h := hstarts a
                simpa [ha] using h
          rw [hrest]

end InOrder

end AviKernel
