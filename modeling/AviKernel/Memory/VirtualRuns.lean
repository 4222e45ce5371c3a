import AviKernel.Library.Runs
import AviKernel.Memory.VirtualTables

/-!
# Runs of mappings

The pages are a map from page numbers to frames, to which every mapping adds
one page.  What the processor finds through the tables is this map, and in the
window the tables themselves.
-/

namespace AviKernel.VirtualMgr

open Paging

variable {image : Image} {s s₀ t u : State} {i j k n v p : ℕ} {b : Bool}
 

/-! ## The pages -/

/-- Where a page goes. -/
structure Mapping where
  frame : Fin (2 ^ 20)
  requiresSupervisor : Bool
  deriving DecidableEq

/-- The entry of a page table. -/
def Mapping.entry (m : Mapping) : ℕ :=
  PageTableEntry.create true true m.requiresSupervisor (pageSize * m.frame)

/-- One page that is mapped. -/
structure Single where
  vAddr : UInt32
  pAddr : UInt32
  requiresSupervisor : Bool
  deriving DecidableEq

namespace Single

def page (c : Single) : ℕ := c.vAddr.toNat / pageSize

def mapping (c : Single) : Mapping where
  frame := ⟨c.pAddr.toNat / pageSize, by
    have hlt := c.pAddr.toNat_lt
    unfold pageSize
    omega⟩
  requiresSupervisor := c.requiresSupervisor

def index (c : Single) : ℕ := getPageDirectoryIndex c.vAddr.toNat

def Aligned (c : Single) : Prop :=
  c.vAddr.toNat % pageSize = 0 ∧ c.pAddr.toNat % pageSize = 0

instance (c : Single) : Decidable c.Aligned := inferInstanceAs (Decidable (_ ∧ _))

end Single

abbrev Pages := ℕ → Option Mapping

def Pages.put (pages : Pages) (c : Single) : Pages :=
  Function.update pages c.page (some c.mapping)

/-! ## Calls -/

inductive Call
  | map (vAddr pAddr : UInt32) (requiresSupervisor : Bool)
  | mapRange (vAddr pAddr : UInt32) (count : UInt32) (requiresSupervisor : Bool)
  deriving DecidableEq

def range (v p : UInt32) (b : Bool) : ℕ → List Single
  | 0 => []
  | n + 1 => ⟨v, p, b⟩ :: range (v + 4096) (p + 4096) b n

namespace Call

def singles : Call → List Single
  | map v p b => [⟨v, p, b⟩]
  | mapRange v p count b => range v p b count.toNat

def step (image : Image) (s : State) : Call → Option State
  | map v p b => VirtualMgr.map image s v.toNat p.toNat b
  | mapRange v p count b => VirtualMgr.mapRange image s v.toNat p.toNat count.toNat b

end Call

def mapSingle (image : Image) (s : State) (c : Single) : Option State :=
  map image s c.vAddr.toNat c.pAddr.toNat c.requiresSupervisor

theorem mapRange_eq_run (s : State) (v p : UInt32) (b : Bool) (n : ℕ) :
    mapRange image s v.toNat p.toNat n b = run (mapSingle image) s (range v p b n) := by
  induction n generalizing s v p with
  | zero => rfl
  | succ n ih =>
      have hv : add32 v.toNat pageSize = (v + 4096).toNat := (UInt32.toNat_add v 4096).symm
      have hp : add32 p.toNat pageSize = (p + 4096).toNat := (UInt32.toNat_add p 4096).symm
      rw [mapRange, hv, hp, range, run_cons]
      exact congrArg _ (funext fun t => ih t _ _)

theorem step_eq_run (s : State) (c : Call) :
    c.step image s = run (mapSingle image) s c.singles := by
  cases c with
  | map v p b =>
      rw [Call.singles, run_cons]
      cases hmap : mapSingle image s ⟨v, p, b⟩ with
      | none => exact hmap
      | some t => exact hmap
  | mapRange v p count b => exact mapRange_eq_run s v p b count.toNat

/-- A run of calls is the run of its pages. -/
theorem run_calls (s : State) (calls : List Call) :
    run (fun s c => c.step image s) s calls =
      run (mapSingle image) s (calls.flatMap Call.singles) := by
  induction calls generalizing s with
  | nil => rfl
  | cons c calls ih =>
      rw [run_cons, List.flatMap_cons, run_append, step_eq_run]
      exact congrArg _ (funext fun t => ih t)

/-! ## One page -/

variable {c : Single} {pages : Pages}

theorem index_eq (c : Single) : c.index = c.page / 1024 := by
  have hlt := c.vAddr.toNat_lt
  unfold Single.index Single.page pageSize
  rw [getPageDirectoryIndex_eq]
  omega

theorem tableIndex_eq (c : Single) : getPageTableIndex c.vAddr.toNat = c.page % 1024 := by
  rw [getPageTableIndex_eq]
  rfl

theorem entry_mapping (h : c.Aligned) :
    PageTableEntry.create true true c.requiresSupervisor c.pAddr.toNat = c.mapping.entry := by
  have haligned := h.2
  have hframe : pageSize * (c.pAddr.toNat / pageSize) = c.pAddr.toNat :=
    Nat.mul_div_cancel' (Nat.dvd_of_mod_eq_zero haligned)
  rw [Mapping.entry, Single.mapping, hframe]

theorem frameOf_entry (m : Mapping) : frameOf m.entry = m.frame := by
  have hlt := m.frame.isLt
  have hframe : frameOf m.entry = pageSize * m.frame / 4096 :=
    PagingEntry.frameOf_create (by unfold pageSize; omega)
  rw [hframe]
  unfold pageSize
  omega

/-- The tables give the pages. -/
structure Refines (image : Image) (s : State) (pages : Pages) : Prop where
  tables : Tables image s
  reach : Reach image s
  lookup : ∀ i < 1023, ∀ j < 1024,
    VirtualMgr.lookup image s.memory i j = (pages (1024 * i + j)).map Mapping.entry

/-- A block is there if a table is needed. -/
def Answered (image : Image) (s : State) (c : Single) : Prop :=
  HasTable image s.memory c.index ∨ s.blocks 0 ≠ 0

/-- The pages of the arrays stay where they are. -/
def KeepsArrays (image : Image) (c : Single) : Prop :=
  c.page = 1024 * 768 + image.directoryFrame ∨ c.page = 1024 * 768 + image.etableFrame →
    1024 * 768 + c.mapping.frame = c.page

theorem refines_step (h : Refines image s pages) (haligned : c.Aligned) (hindex : c.index < 1023)
    (hanswered : Answered image s c) (hkeeps : s.root = image.bootFrame ∨ KeepsArrays image c) :
    ∃ t, mapSingle image s c = some t ∧ Refines image t (pages.put c) ∧
      MapSpec image s t c.index (c.page % 1024) c.mapping.entry := by
  obtain ⟨t, ht, hspec⟩ := map_spec h.reach h.tables haligned.1 haligned.2 hindex hanswered
    c.requiresSupervisor
  rw [entry_mapping haligned] at hspec
  have hpage : c.page = 1024 * c.index + getPageTableIndex c.vAddr.toNat := by
    rw [index_eq, tableIndex_eq, Nat.div_add_mod]
  have hspec' : MapSpec image s t c.index (c.page % 1024) c.mapping.entry := by
    rw [← tableIndex_eq]
    exact hspec
  refine ⟨t, ht, ⟨hspec.tables, hspec.reach (hkeeps.imp_right fun hkeep => ?_), ?_⟩, hspec'⟩
  · rw [frameOf_entry]
    by_contra hmoved
    push Not at hmoved
    obtain ⟨hi, hj, hne⟩ := hmoved
    have hindex768 : c.index = 768 := hi
    apply hne
    have harray : 1024 * 768 + c.mapping.frame = c.page := by
      apply hkeep
      simp only [List.mem_cons, List.not_mem_nil, or_false] at hj
      rw [hpage, hindex768]
      exact hj.imp (congrArg _) (congrArg _)
    rw [hpage, hindex768] at harray
    omega
  · intro i hi j hj
    rw [hspec.lookup i hi j hj, Pages.put, Function.update_apply, hpage]
    have hlt : getPageTableIndex c.vAddr.toNat < 1024 := getPageTableIndex_lt _
    by_cases hsame : i = getPageDirectoryIndex c.vAddr.toNat ∧ j = getPageTableIndex c.vAddr.toNat
    · have heq : 1024 * i + j = 1024 * c.index + getPageTableIndex c.vAddr.toNat := by
        rw [hsame.1, hsame.2]
        rfl
      rw [if_pos hsame, if_pos heq]
      rfl
    · have hne : 1024 * i + j ≠ 1024 * c.index + getPageTableIndex c.vAddr.toNat := by
        intro heq
        apply hsame
        unfold Single.index at heq
        omega
      rw [if_neg hsame, if_neg hne]
      exact h.lookup i hi j hj

/-- All pages of a run. -/
theorem refines_run (singles : List Single) (h : Refines image s pages)
    (haligned : ∀ c ∈ singles, c.Aligned) (hindex : ∀ c ∈ singles, c.index < 1023)
    (hkeeps : s.root = image.bootFrame ∨ ∀ c ∈ singles, KeepsArrays image c)
    (hanswered : RunAll (mapSingle image) (Answered image) s singles) :
    ∃ t, run (mapSingle image) s singles = some t ∧
      Refines image t (singles.foldl Pages.put pages) ∧ t.root = s.root := by
  induction singles generalizing s pages with
  | nil => exact ⟨s, rfl, h, rfl⟩
  | cons c singles ih =>
      obtain ⟨hfirst, hrest⟩ := hanswered
      obtain ⟨u, hu, hrefines, hspec⟩ := refines_step h (haligned c (by simp)) (hindex c (by simp))
        hfirst (hkeeps.imp_right fun hkeep => hkeep c (by simp))
      have hkeeps' : u.root = image.bootFrame ∨ ∀ c ∈ singles, KeepsArrays image c := by
        rw [hspec.root]
        exact hkeeps.imp_right fun hkeep d hd => hkeep d (List.mem_cons_of_mem c hd)
      obtain ⟨t, ht, hafter, hrootafter⟩ := ih hrefines
        (fun d hd => haligned d (List.mem_cons_of_mem c hd))
        (fun d hd => hindex d (List.mem_cons_of_mem c hd)) hkeeps' (hrest u hu)
      refine ⟨t, ?_, hafter, hrootafter.trans hspec.root⟩
      rw [run_cons, hu, Option.bind_some, ht]

/-- A block for each page is enough. -/
theorem answered_of_blocks (singles : List Single) (h : Refines image s pages)
    (haligned : ∀ c ∈ singles, c.Aligned) (hindex : ∀ c ∈ singles, c.index < 1023)
    (hkeeps : s.root = image.bootFrame ∨ ∀ c ∈ singles, KeepsArrays image c)
    (hblocks : ∀ k < singles.length, s.blocks k ≠ 0) :
    RunAll (mapSingle image) (Answered image) s singles := by
  induction singles generalizing s pages with
  | nil => trivial
  | cons c singles ih =>
      have hanswered : Answered image s c := Or.inr (hblocks 0 (by simp))
      obtain ⟨u, hu, hrefines, hspec⟩ := refines_step h (haligned c (by simp)) (hindex c (by simp))
        hanswered (hkeeps.imp_right fun hkeep => hkeep c (by simp))
      refine ⟨hanswered, fun t ht => ?_⟩
      rw [← Option.some.inj (hu.symm.trans ht)]
      apply ih hrefines (fun d hd => haligned d (List.mem_cons_of_mem c hd))
        (fun d hd => hindex d (List.mem_cons_of_mem c hd))
      · rw [hspec.root]
        exact hkeeps.imp_right fun hkeep d hd => hkeep d (List.mem_cons_of_mem c hd)
      · intro k hk
        have hlength : (c :: singles).length = singles.length + 1 := rfl
        by_cases htable : HasTable image s.memory c.index
        · rw [hspec.blocksKept htable]
          exact hblocks k (by omega)
        · rw [hspec.blocksTaken htable]
          exact hblocks (k + 1) (by omega)

/-! ## Ranges of one table -/

/-- Pages whose table is there take no block. -/
theorem refines_sameTable (singles : List Single) (h : Refines image s pages)
    (haligned : ∀ c ∈ singles, c.Aligned) (hi : i < 1023) (hindex : ∀ c ∈ singles, c.index = i)
    (hboot : s.root = image.bootFrame) (htable : HasTable image s.memory i) :
    ∃ t, run (mapSingle image) s singles = some t ∧
      Refines image t (singles.foldl Pages.put pages) ∧ t.root = s.root ∧
      t.blocks = s.blocks ∧ Extends image s t ∧
      ∀ k, HasTable image t.memory k → HasTable image s.memory k := by
  induction singles generalizing s pages with
  | nil => exact ⟨s, rfl, h, rfl, rfl, Extends.refl image s, fun _ hk => hk⟩
  | cons c singles ih =>
      have hc : c.index = i := hindex c (by simp)
      have hct : HasTable image s.memory c.index := by rwa [hc]
      obtain ⟨u, hu, hrefines, hspec⟩ := refines_step h (haligned c (by simp)) (by omega)
        (Or.inl hct) (Or.inl hboot)
      obtain ⟨t, ht, hafter, hroot, hblocks, hkeeps, htables⟩ := ih hrefines
        (fun d hd => haligned d (List.mem_cons_of_mem c hd))
        (fun d hd => hindex d (List.mem_cons_of_mem c hd)) (hspec.root.trans hboot)
        ((hspec.hasTable i).mpr (Or.inr htable))
      refine ⟨t, ?_, hafter, hroot.trans hspec.root, hblocks.trans (hspec.blocksKept hct),
        hspec.keeps.trans hkeeps, fun k hk => ?_⟩
      · rw [run_cons, hu, Option.bind_some, ht]
      · rcases (hspec.hasTable k).mp (htables k hk) with rfl | hkept
        · exact hct
        · exact hkept

/-- Pages of a new table take one block. -/
theorem refines_newTable (singles : List Single) (hne : singles ≠ []) (h : Refines image s pages)
    (haligned : ∀ c ∈ singles, c.Aligned) (hi : i < 1023) (hindex : ∀ c ∈ singles, c.index = i)
    (hboot : s.root = image.bootFrame) (hfree : ¬HasTable image s.memory i)
    (hblock : s.blocks 0 ≠ 0) :
    ∃ t, run (mapSingle image) s singles = some t ∧
      Refines image t (singles.foldl Pages.put pages) ∧ t.root = s.root ∧
      (t.blocks = fun k => s.blocks (k + 1)) ∧ Extends image s t ∧
      ∀ k, HasTable image t.memory k → k = i ∨ HasTable image s.memory k := by
  cases singles with
  | nil => exact absurd rfl hne
  | cons c singles =>
      have hc : c.index = i := hindex c (by simp)
      obtain ⟨u, hu, hrefines, hspec⟩ := refines_step h (haligned c (by simp)) (by omega)
        (Or.inr hblock) (Or.inl hboot)
      obtain ⟨t, ht, hafter, hroot, hblocks, hkeeps, htables⟩ := refines_sameTable singles hrefines
        (fun d hd => haligned d (List.mem_cons_of_mem c hd)) hi
        (fun d hd => hindex d (List.mem_cons_of_mem c hd)) (hspec.root.trans hboot)
        ((hspec.hasTable i).mpr (Or.inl hc.symm))
      refine ⟨t, ?_, hafter, hroot.trans hspec.root,
        hblocks.trans (hspec.blocksTaken (by rwa [hc])), hspec.keeps.trans hkeeps,
        fun k hk => ?_⟩
      · rw [run_cons, hu, Option.bind_some, ht]
      · exact ((hspec.hasTable k).mp (htables k hk)).imp_left fun hki => hki.trans hc

theorem toNat_nextPage {a : UInt32} (h : a.toNat + pageSize < 2 ^ 32) :
    (a + 4096).toNat = a.toNat + pageSize := by
  have hadd : (a + 4096).toNat = (a.toNat + 4096) % 2 ^ 32 := UInt32.toNat_add a 4096
  unfold pageSize at h ⊢
  omega

theorem range_ne_nil {v p : UInt32} (hn : 0 < n) : range v p b n ≠ [] := by
  cases n with
  | zero => exact absurd hn (lt_irrefl 0)
  | succ n => exact List.cons_ne_nil _ _

theorem pages_le {a : ℕ} (h : a + pageSize * (n + 1 + 1) ≤ 2 ^ 32) :
    a + pageSize + pageSize * (n + 1) ≤ 2 ^ 32 := by linarith

theorem page_lt {a : ℕ} (h : a + pageSize * (n + 1 + 1) ≤ 2 ^ 32) : a + pageSize < 2 ^ 32 := by
  unfold pageSize at *
  linarith

/-- The frames start again from zero at the end of the addresses. -/
theorem toNat_nextFrame {p : UInt32} (hp : p.toNat % pageSize = 0) :
    (p + 4096).toNat % pageSize = 0 ∧
      (p + 4096).toNat / pageSize = (p.toNat / pageSize + 1) % 2 ^ 20 := by
  have hadd : (p + 4096).toNat = (p.toNat + 4096) % 2 ^ 32 := UInt32.toNat_add p 4096
  have hlt := p.toNat_lt
  rw [hadd]
  unfold pageSize at hp ⊢
  omega

/-- The pages of a range that does not pass the end of the addresses. -/
theorem mem_range {v p : UInt32} {c : Single} (hv : v.toNat % pageSize = 0)
    (hp : p.toNat % pageSize = 0) (hvn : v.toNat + pageSize * n ≤ 2 ^ 32) (hc : c ∈ range v p b n) :
    c.Aligned ∧ v.toNat / pageSize ≤ c.page ∧ c.page < v.toNat / pageSize + n := by
  induction n generalizing v p with
  | zero => exact absurd hc List.not_mem_nil
  | succ n ih =>
      rw [range, List.mem_cons] at hc
      rcases hc with rfl | hc
      · refine ⟨⟨hv, hp⟩, le_rfl, ?_⟩
        exact Nat.lt_add_of_pos_right (Nat.succ_pos n)
      · cases n with
        | zero => exact absurd hc List.not_mem_nil
        | succ n =>
            have hv' : (v + 4096).toNat = v.toNat + pageSize := toNat_nextPage (page_lt hvn)
            have hvnext : (v.toNat + pageSize) / pageSize = v.toNat / pageSize + 1 :=
              Nat.add_div_right _ (by decide)
            have hrest := ih (v := v + 4096) (p := p + 4096)
              (by rw [hv', Nat.add_mod_right, hv]) (toNat_nextFrame hp).1
              (by rw [hv']; exact pages_le hvn) hc
            rw [hv', hvnext] at hrest
            refine ⟨hrest.1, ?_⟩
            omega

theorem exists_mem_range {v p : UInt32} (hv : v.toNat % pageSize = 0)
    (hvn : v.toNat + pageSize * n ≤ 2 ^ 32) (hk : k < n) :
    ∃ c ∈ range v p b n, c.page = v.toNat / pageSize + k := by
  induction n generalizing v p k with
  | zero => exact absurd hk (Nat.not_lt_zero k)
  | succ n ih =>
      cases k with
      | zero => exact ⟨⟨v, p, b⟩, by simp [range], rfl⟩
      | succ k =>
          cases n with
          | zero => omega
          | succ n =>
              have hv' : (v + 4096).toNat = v.toNat + pageSize := toNat_nextPage (page_lt hvn)
              have hvnext : (v.toNat + pageSize) / pageSize = v.toNat / pageSize + 1 :=
                Nat.add_div_right _ (by decide)
              obtain ⟨c, hc, hpage⟩ := ih (v := v + 4096) (p := p + 4096) (k := k)
                (by rw [hv', Nat.add_mod_right, hv]) (by rw [hv']; exact pages_le hvn) (by omega)
              rw [hv', hvnext] at hpage
              exact ⟨c, List.mem_cons_of_mem _ hc, by omega⟩

theorem foldl_range (pages : Pages) {v p : UInt32} (hv : v.toNat % pageSize = 0)
    (hp : p.toNat % pageSize = 0) (hvn : v.toNat + pageSize * n ≤ 2 ^ 32) (k : ℕ) :
    (range v p b n).foldl Pages.put pages k =
      if v.toNat / pageSize ≤ k ∧ k < v.toNat / pageSize + n then
        some ⟨Fin.ofNat (2 ^ 20) (p.toNat / pageSize + (k - v.toNat / pageSize)), b⟩
      else pages k := by
  induction n generalizing v p pages with
  | zero =>
      have hnone : ¬(v.toNat / pageSize ≤ k ∧ k < v.toNat / pageSize + 0) := by omega
      rw [if_neg hnone]
      rfl
  | succ n ih =>
      have hfirst : pages.put ⟨v, p, b⟩ k =
          if k = v.toNat / pageSize then some ⟨Fin.ofNat (2 ^ 20) (p.toNat / pageSize), b⟩
          else pages k := by
        have hlt := p.toNat_lt
        have hframe : (Single.mapping ⟨v, p, b⟩).frame = Fin.ofNat (2 ^ 20) (p.toNat / pageSize) := by
          apply Fin.ext
          have hmod : p.toNat / pageSize % 2 ^ 20 = p.toNat / pageSize := by
            unfold pageSize
            omega
          exact hmod.symm
        rw [Pages.put, Function.update_apply, ← hframe]
        rfl
      rw [range, List.foldl_cons]
      cases n with
      | zero =>
          rw [range, List.foldl_nil, hfirst]
          by_cases hk : k = v.toNat / pageSize
          · have hin : v.toNat / pageSize ≤ k ∧ k < v.toNat / pageSize + (0 + 1) := by omega
            rw [if_pos hk, if_pos hin, hk, Nat.sub_self, Nat.add_zero]
          · have hout : ¬(v.toNat / pageSize ≤ k ∧ k < v.toNat / pageSize + (0 + 1)) := by omega
            rw [if_neg hk, if_neg hout]
      | succ n =>
          have hv' : (v + 4096).toNat = v.toNat + pageSize := toNat_nextPage (page_lt hvn)
          have hvnext : (v.toNat + pageSize) / pageSize = v.toNat / pageSize + 1 :=
            Nat.add_div_right _ (by decide)
          obtain ⟨hpaligned, hpnext⟩ := toNat_nextFrame hp
          rw [ih _ (by rw [hv', Nat.add_mod_right, hv]) hpaligned (by rw [hv']; exact pages_le hvn),
            hv', hvnext, hpnext, hfirst]
          by_cases hk : k = v.toNat / pageSize
          · have hout : ¬(v.toNat / pageSize + 1 ≤ k ∧ k < v.toNat / pageSize + 1 + (n + 1)) := by
              omega
            have hin : v.toNat / pageSize ≤ k ∧ k < v.toNat / pageSize + (n + 1 + 1) := by omega
            rw [if_neg hout, if_pos hk, if_pos hin, hk, Nat.sub_self, Nat.add_zero]
          · rw [if_neg hk]
            by_cases hin : v.toNat / pageSize ≤ k ∧ k < v.toNat / pageSize + (n + 1 + 1)
            · have hrest : v.toNat / pageSize + 1 ≤ k ∧
                  k < v.toNat / pageSize + 1 + (n + 1) := by omega
              have hframe : Fin.ofNat (2 ^ 20) ((p.toNat / pageSize + 1) % 2 ^ 20 +
                  (k - (v.toNat / pageSize + 1))) =
                    Fin.ofNat (2 ^ 20) (p.toNat / pageSize + (k - v.toNat / pageSize)) := by
                apply Fin.ext
                simp only [Fin.val_ofNat]
                omega
              rw [if_pos hin, if_pos hrest, hframe]
            · have hrest : ¬(v.toNat / pageSize + 1 ≤ k ∧
                  k < v.toNat / pageSize + 1 + (n + 1)) := by omega
              rw [if_neg hin, if_neg hrest]

end AviKernel.VirtualMgr
