import AviKernel.Fs.Path
import AviKernel.Library.Separated
import AviKernel.Libc.StringReads
import AviKernel.Libc.StringRuns

/-!
# Paths over the String class

The paths of the source, with the buffers and lengths of their strings.  Fresh memory
is numbered by the allocations that get it.
-/

namespace AviKernel.PathStrings

open Libc

/-- What each allocation finds in its memory. -/
abbrev Garbage := ℕ → ℕ → UInt8

/-- What is left of it after that many allocations. -/
def Garbage.after (fresh : Garbage) (n : ℕ) : Garbage := fun i => fresh (n + i)

def slash : UInt8 := 47

structure Path where
  folder : Bool
  parts : List Libc.String

namespace Path

/-! ## Construction -/

/-- `parts.append(s)`: a copy is passed, and copied to the new node. -/
def append (fresh : Garbage) (parts : List Libc.String) (s : Libc.String) :
    Option (List Libc.String) := do
  let data ← String.ofString (fresh 0) s
  let _ ← String.ofNothing (fresh 1)
  let node ← String.initializeFromCString (fresh 2) data.cStr
  some (parts ++ [node])

/-- The loop of `fill_vector` and what follows it; `str` is the rest of the buffer. -/
def fillVector (fresh : Garbage) (parts : List Libc.String) (s : Libc.String) :
    List UInt8 → Option (List Libc.String)
  | [] => none
  | c :: str =>
      if c = 0 then if s.size ≠ 0 then append fresh parts s else some parts
      else if c = slash then do
        let parts ← append fresh parts s
        let s ← String.clear (fresh 3)
        fillVector (fresh.after 4) parts s str
      else do
        let s ← String.appendChar (fresh 0) s c
        fillVector (fresh.after 1) parts s str

/-- An empty path points to the root. -/
def pointToRoot (fresh : Garbage) (s : Libc.String) : Option Libc.String := do
  let blank ← s.emptyOrWhitespaces
  if blank then String.appendChar (fresh 0) s slash else some s

/-- A relative path is made absolute. -/
def makeAbsolute (fresh : Garbage) (s : Libc.String) : Option Libc.String := do
  let first ← s.getAt 0
  if first ≠ slash then do
    let sum ← String.charAdd fresh slash s
    String.initializeFromCString (fresh 3) sum.cStr
  else some s

def ofString (fresh : Garbage) (s : Libc.String) : Option Path := do
  let s ← pointToRoot fresh s
  let s ← makeAbsolute (fresh.after 1) s
  let copy ← String.ofString (fresh 5) s
  let part ← String.ofNothing (fresh 6)
  let parts ← fillVector (fresh.after 7) [] part (copy.cStr.drop 1)
  let last ← s.back
  some ⟨last = slash, parts⟩

/-! ## Methods -/

variable (p : Path)

def isFolder : Bool := p.folder

def getDepth : ℤ := if p.isFolder then p.parts.length else p.parts.length - 1

def isRoot : Bool := p.getDepth = 0 && p.isFolder

def getPart (fresh : ℕ → UInt8) (i : ℤ) : Option Libc.String :=
  (Vector.get p.parts i).bind (String.ofString fresh)

/-- The loop of `to_string`, with the parts still to do. -/
def toStringFrom (fresh : Garbage) (s : Libc.String) : ℕ → Option Libc.String
  | 0 => some s
  | todo + 1 => do
      let i : ℤ := p.parts.length - (todo + 1)
      let part ← p.getPart (fresh 0) i
      let s ← String.appendCString (fresh 1) s part.cStr
      let s ← if p.isFolder ∨ i < p.parts.length - 1 then String.appendChar (fresh 2) s slash
        else some s
      toStringFrom (fresh.after 3) s todo

def toString (fresh : Garbage) : Option Libc.String := do
  let s ← String.initializeFromCString (fresh 0) [slash, 0]
  p.toStringFrom (fresh.after 1) s p.parts.length

/-- The operator `==`. -/
def equals (fresh fresh' : Garbage) (other : Path) : Option Bool := do
  let lhs ← other.toString fresh
  let rhs ← p.toString fresh'
  lhs.equals rhs

/-! ## The text of a path -/

/-- The path is that of the text: `l` is what comes after the first slash. -/
structure Refines (p : Path) (l : List UInt8) : Prop where
  folder : p.folder = ended slash l
  parts : List.Forall₂ String.Refines p.parts (cut slash [] l)

variable {p : Path} {s : Libc.String} {parts : List Libc.String}
  {texts : List (List UInt8)} {l r str rest : List UInt8} {todo : ℕ}

theorem append_refines (fresh : Garbage) (hparts : List.Forall₂ String.Refines parts texts)
    (hs : s.Refines l) (hfit : l.length + 1 < 2 ^ 32) :
    ∃ ps, append fresh parts s = some ps ∧ List.Forall₂ String.Refines ps (texts ++ [l]) := by
  obtain ⟨data, hdata, hrefdata⟩ := String.ofString_refines (fresh 0) hs hfit
  obtain ⟨start, hstart, -⟩ := String.initializeFromChar_zero (fresh 1)
  obtain ⟨node, hnode, hrefnode⟩ :=
    String.initializeFromCString_refines (fresh 2) hrefdata.spells hfit
  refine ⟨parts ++ [node], ?_, List.rel_append hparts (.cons hrefnode .nil)⟩
  simp only [append, hdata, String.ofNothing, hstart, hnode, Option.bind_eq_bind, Option.bind_some]

/-- The loop cuts the rest of the text. -/
theorem fillVector_refines (fresh : Garbage)
    (hparts : List.Forall₂ String.Refines parts texts) (hs : s.Refines r)
    (hstr : Spells 0 str rest) (hfit : r.length + rest.length + 3 < 2 ^ 32) :
    ∃ ps, fillVector fresh parts s str = some ps ∧
      List.Forall₂ String.Refines ps (texts ++ cut slash r rest) := by
  obtain ⟨t, rfl⟩ := hstr.eq
  have hnot := hstr.notMem
  clear hstr
  induction rest generalizing fresh parts texts s r with
  | nil =>
      rw [List.nil_append, fillVector, if_pos rfl, hs.size_eq, cut]
      by_cases hempty : r = []
      · subst hempty
        rw [if_neg (by simp), if_pos rfl, List.append_nil]
        exact ⟨parts, rfl, hparts⟩
      · have hlen : r.length ≠ 0 := fun h => hempty (List.eq_nil_of_length_eq_zero h)
        rw [if_pos hlen, if_neg hempty]
        exact append_refines fresh hparts hs (by omega)
  | cons c rest ih =>
      have hc : c ≠ 0 := (List.ne_of_not_mem_cons hnot).symm
      have hrest := List.not_mem_of_not_mem_cons hnot
      rw [List.length_cons] at hfit
      rw [List.cons_append, fillVector, if_neg hc]
      by_cases hslash : c = slash
      · subst hslash
        obtain ⟨ps, hps, hrefps⟩ := append_refines fresh hparts hs (by omega)
        obtain ⟨u, hu, hrefu⟩ := String.initializeFromChar_zero (fresh 3)
        obtain ⟨qs, hqs, hrefqs⟩ := ih (fresh.after 4) hrefps hrefu
          (by rw [List.length_nil]; omega) hrest
        refine ⟨qs, ?_, ?_⟩
        · simp only [if_true, hps, String.clear, hu, Option.bind_eq_bind, Option.bind_some, hqs]
        · rw [cut_cons_self]
          rwa [List.append_assoc] at hrefqs
      · obtain ⟨u, hu, hrefu⟩ := String.appendChar_refines (fresh 0) hs hc (by omega)
        obtain ⟨qs, hqs, hrefqs⟩ := ih (fresh.after 1) hparts hrefu
          (by rw [List.length_append, List.length_singleton]; omega) hrest
        refine ⟨qs, ?_, ?_⟩
        · simp only [if_neg hslash, hu, Option.bind_eq_bind, Option.bind_some, hqs]
        · rwa [cut_cons_ne hslash]

def rootText (l : List UInt8) : List UInt8 := if l.all isspace then l ++ [slash] else l

def absoluteText (l : List UInt8) : List UInt8 := if l.head? = some slash then l else slash :: l

/-- What comes after the first slash, once the constructor has added what is missing. -/
def pathText (l : List UInt8) : List UInt8 := (absoluteText (rootText l)).tail

theorem slash_ne_zero : slash ≠ 0 := by decide

theorem rootText_ne_nil (l : List UInt8) : rootText l ≠ [] := by
  unfold rootText
  cases l with
  | nil => simp
  | cons c l => split <;> simp

theorem length_rootText_le (l : List UInt8) : (rootText l).length ≤ l.length + 1 := by
  unfold rootText
  split <;> simp

theorem absoluteText_eq (l : List UInt8) : absoluteText l = slash :: (absoluteText l).tail := by
  unfold absoluteText
  split
  · next h =>
      obtain ⟨rest, rfl⟩ := List.head?_eq_some_iff.mp h
      rfl
  · rfl

theorem length_absoluteText_le (l : List UInt8) : (absoluteText l).length ≤ l.length + 1 := by
  unfold absoluteText
  split <;> simp

theorem pointToRoot_refines (fresh : Garbage) (hs : s.Refines l) (hfit : l.length + 3 < 2 ^ 32) :
    ∃ t, pointToRoot fresh s = some t ∧ t.Refines (rootText l) := by
  rw [pointToRoot, String.emptyOrWhitespaces_refines hs (by omega), Option.bind_eq_bind,
    Option.bind_some, rootText]
  split
  · exact String.appendChar_refines (fresh 0) hs slash_ne_zero hfit
  · exact ⟨s, rfl, hs⟩

/-- The length that `'/' + s` gets is forgotten in the assignment. -/
theorem makeAbsolute_refines (fresh : Garbage) (hs : s.Refines l) (hne : l ≠ [])
    (hfit : l.length + 3 < 2 ^ 32) :
    ∃ t, makeAbsolute fresh s = some t ∧ t.Refines (absoluteText l) := by
  obtain ⟨c, rest, rfl⟩ := List.exists_cons_of_ne_nil hne
  have hfirst : s.getAt 0 = some c := String.getAt_refines hs (by omega) (Nat.succ_pos _)
  rw [makeAbsolute, hfirst, Option.bind_eq_bind, Option.bind_some, absoluteText]
  by_cases hc : c = slash
  · subst hc
    rw [if_neg (not_not.mpr rfl), if_pos (List.head?_cons)]
    exact ⟨s, rfl, hs⟩
  · obtain ⟨u, hu, hspells, -⟩ := String.charAdd_spells fresh slash hs hfit
    rw [text_singleton, if_neg slash_ne_zero] at hspells
    have hne : (c :: rest).head? ≠ some slash := fun h => hc (Option.some.inj h)
    rw [if_pos hc, if_neg hne, hu, Option.bind_eq_bind, Option.bind_some]
    exact String.initializeFromCString_refines (fresh 3) hspells
      (by rw [List.length_cons]; omega)

/-- The constructor makes the path of the text. -/
theorem ofString_refines (fresh : Garbage) (hs : s.Refines l) (hfit : l.length + 4 < 2 ^ 32) :
    ∃ p, ofString fresh s = some p ∧ p.Refines (pathText l) := by
  have hroot := length_rootText_le l
  have habsolute := length_absoluteText_le (rootText l)
  obtain ⟨u, hu, hrefu⟩ := pointToRoot_refines fresh hs (by omega)
  obtain ⟨t, ht, hreft⟩ := makeAbsolute_refines (fresh.after 1) hrefu
    (rootText_ne_nil l) (by omega)
  rw [absoluteText_eq] at hreft habsolute
  rw [pathText]
  generalize (absoluteText (rootText l)).tail = rest at *
  rw [List.length_cons] at habsolute
  obtain ⟨copy, hcopy, hrefcopy⟩ := String.ofString_refines (fresh 5) hreft
    (by rw [List.length_cons]; omega)
  obtain ⟨part, hpart, hrefpart⟩ := String.initializeFromChar_zero (fresh 6)
  have hspells : Spells 0 (copy.cStr.drop 1) ((slash :: rest).drop 1) :=
    hrefcopy.spells.drop (Nat.succ_le_succ (Nat.zero_le _))
  rw [List.drop_succ_cons, List.drop_zero] at hspells
  obtain ⟨ps, hps, hrefps⟩ := fillVector_refines (fresh.after 7) List.Forall₂.nil hrefpart
    hspells (by rw [List.length_nil]; omega)
  have hback : t.back = (slash :: rest).getLast? :=
    String.back_refines hreft (by rw [List.length_cons]; omega) (List.cons_ne_nil _ _)
  obtain ⟨last, hlast⟩ : ∃ last, (slash :: rest).getLast? = some last :=
    ⟨_, List.getLast?_eq_some_getLast (List.cons_ne_nil _ _)⟩
  have hfolder : ended slash rest = decide (last = slash) := by
    simp only [ended, hlast, Option.some.injEq]
  refine ⟨⟨decide (last = slash), ps⟩, ?_, hfolder.symm, hrefps⟩
  have hempty : String.ofNothing (fresh 6) = some part := hpart
  rw [ofString, hu, Option.bind_eq_bind, Option.bind_some, ht, Option.bind_eq_bind,
    Option.bind_some, hcopy, Option.bind_eq_bind, Option.bind_some, hempty, Option.bind_some, hps,
    Option.bind_some, hback, hlast, Option.bind_some]

theorem getPart_refines {i : ℕ} (garbage : ℕ → UInt8)
    (hparts : List.Forall₂ String.Refines p.parts texts) (hi : i < texts.length)
    (hfit : texts[i].length + 1 < 2 ^ 32) :
    ∃ t, p.getPart garbage i = some t ∧ t.Refines texts[i] := by
  have hlt : i < p.parts.length := by
    rw [hparts.length_eq]
    exact hi
  have href : p.parts[i].Refines texts[i] := hparts.get hlt hi
  rw [getPart, Vector.get_natCast, List.getElem?_eq_getElem hlt, Option.bind_some]
  exact String.ofString_refines garbage href hfit

/-- The loop pastes the parts that are still to do. -/
theorem toStringFrom_refines (fresh : Garbage)
    (hparts : List.Forall₂ String.Refines p.parts texts) (hs : s.Refines r)
    (htodo : todo ≤ texts.length)
    (hfit : (r ++ paste slash p.folder (texts.drop (texts.length - todo))).length + 2 < 2 ^ 32) :
    ∃ t, p.toStringFrom fresh s todo = some t ∧
      t.Refines (r ++ paste slash p.folder (texts.drop (texts.length - todo))) := by
  induction todo generalizing fresh s r with
  | zero =>
      rw [Nat.sub_zero, List.drop_length, paste, List.append_nil]
      exact ⟨s, rfl, hs⟩
  | succ todo ih =>
      have hlen : p.parts.length = texts.length := hparts.length_eq
      have hi : texts.length - (todo + 1) < texts.length := by omega
      have hindex : (p.parts.length : ℤ) - (todo + 1) = (texts.length - (todo + 1) : ℕ) := by omega
      have hnext : texts.length - (todo + 1) + 1 = texts.length - todo := by omega
      have hrest : ((texts.length - (todo + 1) : ℕ) : ℤ) < p.parts.length - 1 ↔
          texts.drop (texts.length - todo) ≠ [] := by
        rw [ne_eq, List.drop_eq_nil_iff]
        omega
      have hsep : (p.isFolder = true ∨
          ((texts.length - (todo + 1) : ℕ) : ℤ) < p.parts.length - 1) ↔
            (p.folder = true ∨ texts.drop (texts.length - todo) ≠ []) := or_congr_right hrest
      have hpart := getPart_refines (fresh 0) hparts hi
      rw [List.drop_eq_getElem_cons hi, hnext] at hfit ⊢
      rw [toStringFrom]
      simp only [hindex, hsep]
      generalize texts[texts.length - (todo + 1)] = part at *
      generalize texts.drop (texts.length - todo) = rest at *
      by_cases hcut : p.folder = true ∨ rest ≠ []
      · rw [paste_cons_of_sep hcut, ← List.append_assoc, ← List.append_assoc] at hfit ⊢
        have hroom :
            r.length + part.length + 1 + (paste slash p.folder rest).length + 2 < 2 ^ 32 := by
          simpa only [List.length_append, List.length_singleton] using hfit
        obtain ⟨u, hu, hrefu⟩ := hpart (by omega)
        obtain ⟨v, hv, hrefv⟩ : ∃ v, String.appendCString (fresh 1) s u.cStr = some v ∧
            v.Refines (r ++ part) := String.appendCString_refines hs hrefu.spells (by omega)
        obtain ⟨w, hw, hrefw⟩ := String.appendChar_refines (fresh 2) hrefv slash_ne_zero
          (by rw [List.length_append]; omega)
        obtain ⟨t, ht, hreft⟩ := ih (fresh.after 3) hrefw (by omega) hfit
        refine ⟨t, ?_, hreft⟩
        rw [hu, Option.bind_eq_bind, Option.bind_some, hv, Option.bind_some, if_pos hcut, hw,
          Option.bind_some, ht]
      · rw [paste_cons_of_not_sep hcut, ← List.append_assoc] at hfit ⊢
        have hroom : r.length + part.length + (paste slash p.folder rest).length + 2 < 2 ^ 32 := by
          simpa only [List.length_append] using hfit
        obtain ⟨u, hu, hrefu⟩ := hpart (by omega)
        obtain ⟨v, hv, hrefv⟩ : ∃ v, String.appendCString (fresh 1) s u.cStr = some v ∧
            v.Refines (r ++ part) := String.appendCString_refines hs hrefu.spells (by omega)
        obtain ⟨t, ht, hreft⟩ := ih (fresh.after 3) hrefv (by omega) hfit
        refine ⟨t, ?_, hreft⟩
        rw [hu, Option.bind_eq_bind, Option.bind_some, hv, Option.bind_some, if_neg hcut,
          Option.bind_some, ht]

/-- `to_string` gives the text of the path. -/
theorem toString_refines (fresh : Garbage) (hp : p.Refines l) (hfit : l.length + 3 < 2 ^ 32) :
    ∃ t, p.toString fresh = some t ∧ t.Refines (slash :: l) := by
  have htext : paste slash p.folder (cut slash [] l) = l := by
    rw [hp.folder]
    exact paste_cut List.not_mem_nil
  have hnot : (0 : UInt8) ∉ [slash] := by decide
  have hone : Spells 0 [slash, 0] [slash] := spells_append hnot
  obtain ⟨u, hu, hrefu⟩ := String.initializeFromCString_refines (fresh 0) hone (by decide)
  have hloop := toStringFrom_refines (fresh.after 1) 
    hp.parts hrefu le_rfl
  rw [Nat.sub_self, List.drop_zero, htext, List.length_append, List.length_singleton] at hloop
  obtain ⟨t, ht, hreft⟩ := hloop (by omega)
  refine ⟨t, ?_, hreft⟩
  rw [toString, hu, Option.bind_eq_bind, Option.bind_some, hp.parts.length_eq, ht]

/-- Paths compare by their texts. -/
theorem equals_refines {q : Path} (fresh fresh' : Garbage) (hp : p.Refines l) (hq : q.Refines r)
    (hl : l.length + 3 < 2 ^ 32) (hr : r.length + 3 < 2 ^ 32) :
    p.equals fresh fresh' q = some (decide (l = r)) := by
  obtain ⟨u, hu, hrefu⟩ := toString_refines fresh hq hr
  obtain ⟨t, ht, hreft⟩ := toString_refines fresh' hp hl
  have hcons : slash :: r = slash :: l ↔ l = r := by
    rw [List.cons.injEq, eq_self_iff_true, true_and, eq_comm]
  rw [equals, hu, Option.bind_eq_bind, Option.bind_some, ht, Option.bind_some,
    String.equals_refines hrefu hreft]
  simp only [hcons]

theorem getDepth_refines (hp : p.Refines l) : p.getDepth = l.count slash := by
  have hlen := length_cut (z := slash) (r := l) List.not_mem_nil
  rw [List.nil_append, ← hp.folder] at hlen
  rw [getDepth, isFolder, hp.parts.length_eq, hlen]
  cases p.folder with
  | true => simp
  | false => simp

end Path

end AviKernel.PathStrings
