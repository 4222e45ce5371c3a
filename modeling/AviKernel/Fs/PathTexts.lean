import AviKernel.Fs.PathStrings

/-!
# What paths mean

An absolute path is read back as it was written.  A relative one means the same as with
a slash in front; a blank one means the root only if it is empty.
-/

namespace AviKernel.PathStrings.Path

open Libc

variable {p : Path} {s : Libc.String} {l : List UInt8}

/-! ## Characters -/

def charOf (c : UInt8) : Char := Char.ofNat c.toNat

theorem charOf_toNat (c : UInt8) : (charOf c).toNat = c.toNat := by
  have hlt := c.toNat_lt
  have hvalid : c.toNat.isValidChar := Or.inl (by omega)
  rw [charOf, Char.ofNat, dif_pos hvalid]
  rfl

theorem charOf_eq_iff {c d : UInt8} : charOf c = charOf d ↔ c = d := by
  refine ⟨fun h => UInt8.toNat_inj.mp ?_, congrArg charOf⟩
  rw [← charOf_toNat, ← charOf_toNat, h]

/-- The text as characters. -/
def chars (l : List UInt8) : List Char := l.map charOf

theorem fillVector_eq_cut {s l : List Char} : AviKernel.Path.fillVector s l = cut '/' s l := by
  induction l generalizing s with
  | nil => rfl
  | cons c l ih => rw [AviKernel.Path.fillVector, cut, ih, ih]

theorem joinParts_eq_paste {folder : Bool} {parts : List (List Char)} :
    AviKernel.Path.joinParts folder parts = paste '/' folder parts := by
  induction parts with
  | nil => rfl
  | cons part parts ih =>
      cases parts with
      | nil => rfl
      | cons next parts => exact congrArg (fun l => part ++ '/' :: l) ih

theorem isspace_charOf (c : UInt8) : AviKernel.Path.isspace (charOf c) = isspace c := by
  have hspace : ' ' = charOf 32 := by decide
  have hnewline : '\n' = charOf 10 := by decide
  have htab : '\t' = charOf 9 := by decide
  have hvertical : '\x0b' = charOf 11 := by decide
  have hfeed : '\x0c' = charOf 12 := by decide
  have hreturn : '\r' = charOf 13 := by decide
  simp only [AviKernel.Path.isspace, isspace, hspace, hnewline, htab, hvertical, hfeed, hreturn,
    charOf_eq_iff]

theorem slash_charOf : '/' = charOf slash := by decide

theorem chars_head? : (chars l).head? = some '/' ↔ l.head? = some slash := by
  cases l with
  | nil => simp [chars]
  | cons c l =>
      rw [chars, List.map_cons, List.head?_cons, List.head?_cons, Option.some.injEq,
        Option.some.injEq, slash_charOf, charOf_eq_iff]

theorem chars_getLast? : (chars l).getLast? = some '/' ↔ l.getLast? = some slash := by
  rw [chars, List.getLast?_map]
  cases l.getLast? with
  | none => simp
  | some c =>
      rw [Option.map_some, Option.some.injEq, Option.some.injEq, slash_charOf, charOf_eq_iff]

theorem absolute_chars (l : List UInt8) :
    AviKernel.Path.absolute (chars l) = chars (slash :: pathText l) := by
  have hblank : AviKernel.Path.emptyOrWhitespaces (chars l) = l.all isspace := by
    rw [AviKernel.Path.emptyOrWhitespaces, chars, List.all_map]
    congr 1
    funext c
    exact isspace_charOf c
  have hroot : (if l.all isspace = true then chars l ++ ['/'] else chars l) =
      chars (rootText l) := by
    rw [rootText]
    split
    · rw [chars, chars, List.map_append, slash_charOf]
      rfl
    · rfl
  simp only [AviKernel.Path.absolute, hblank, hroot]
  rw [pathText, ← absoluteText_eq, absoluteText]
  by_cases h : (rootText l).head? = some slash
  · rw [if_neg (not_not.mpr (chars_head?.mpr h)), if_pos h]
  · rw [if_pos (mt chars_head?.mp h), if_neg h, slash_charOf]
    rfl

/-- The path of the characters has the same parts. -/
theorem ofString_chars (l : List UInt8) : AviKernel.Path.ofString (chars l) =
    ⟨ended slash (pathText l), (cut slash [] (pathText l)).map chars⟩ := by
  have hcut := map_cut (z := slash) (s := []) (r := pathText l) (f := charOf)
    fun c => charOf_eq_iff
  have hlast : decide ((chars (slash :: pathText l)).getLast? = some '/') =
      ended slash (pathText l) := by
    rw [ended]
    exact decide_eq_decide.mpr chars_getLast?
  rw [AviKernel.Path.ofString, absolute_chars, hlast, fillVector_eq_cut, slash_charOf]
  exact congrArg _ hcut.symm

/-- The path of the source is the path of the characters, part by part. -/
theorem ofString_simulates (fresh : Garbage) (hs : s.Refines l) (hfit : l.length + 4 < 2 ^ 32) :
    ∃ p, ofString fresh s = some p ∧
      p.folder = (AviKernel.Path.ofString (chars l)).folder ∧
        List.Forall₂ (fun s part => ∃ m, String.Refines s m ∧ chars m = part) p.parts
          (AviKernel.Path.ofString (chars l)).parts := by
  obtain ⟨p, hp, hrefp⟩ := ofString_refines fresh hs hfit
  rw [ofString_chars]
  refine ⟨p, hp, hrefp.folder, ?_⟩
  rw [List.forall₂_map_right_iff]
  exact hrefp.parts.imp fun s m hm => ⟨m, hm, rfl⟩

/-- So is its text. -/
theorem toString_chars (l : List UInt8) :
    (AviKernel.Path.ofString (chars l)).toString = chars (slash :: pathText l) := by
  have hmap := map_cut (z := slash) (s := []) (r := pathText l) (f := charOf)
    fun c => charOf_eq_iff
  have hpaste := paste_cut (z := '/') (s := []) (r := chars (pathText l)) List.not_mem_nil
  have hended : ended '/' (chars (pathText l)) = ended slash (pathText l) := by
    rw [ended, ended, slash_charOf]
    exact decide_eq_decide.mpr (chars_getLast? (l := slash :: pathText l))
  rw [List.nil_append, hended] at hpaste
  rw [ofString_chars, AviKernel.Path.toString, joinParts_eq_paste, AviKernel.Path.isFolder]
  show '/' :: paste '/' _ ((cut slash [] (pathText l)).map (List.map charOf)) = _
  have hfirst : chars (slash :: pathText l) = '/' :: chars (pathText l) := by
    rw [slash_charOf]
    rfl
  rw [hfirst, hmap, ← slash_charOf]
  exact congrArg (fun l => '/' :: l) hpaste

/-! ## Absolute paths -/

/-- The pieces of a text between its slashes, without the empty piece before the first
slash and that after the last. -/
def pieces (l : List UInt8) : List (List UInt8) :=
  if l.getLast? = some slash then (l.splitOn slash).tail.dropLast else (l.splitOn slash).tail

/-- The path says what the text says. -/
structure Reads (p : Path) (l : List UInt8) : Prop where
  toString : ∀ fresh, ∃ t, p.toString fresh = some t ∧ t.Refines l
  parts : List.Forall₂ String.Refines p.parts (pieces l)
  isFolder : p.isFolder = true ↔ l.getLast? = some slash
  getDepth : p.getDepth = l.count slash - 1

theorem pathText_of_absolute (h : l.head? = some slash) : slash :: pathText l = l := by
  obtain ⟨rest, rfl⟩ := List.head?_eq_some_iff.mp h
  have hspace : isspace slash = false := by decide
  have hroot : rootText (slash :: rest) = slash :: rest := by
    rw [rootText, List.all_cons, hspace, Bool.false_and, if_neg Bool.false_ne_true]
  rw [pathText, hroot, absoluteText, if_pos h, List.tail_cons]

theorem Refines.reads (hp : p.Refines l) (hfit : l.length + 3 < 2 ^ 32) :
    p.Reads (slash :: l) where
  toString fresh := toString_refines fresh hp hfit
  parts := by
    have hcut := cut_eq_splitOn (z := slash) (r := l) List.not_mem_nil
    have hsplit : ((slash :: l).splitOn slash).tail = l.splitOn slash := by
      have happend := List.splitOn_append_cons_self (a := slash) [] l
      rw [List.nil_append, List.splitOn_nil, List.singleton_append] at happend
      rw [happend, List.tail_cons]
    rw [pieces, hsplit]
    rw [List.nil_append] at hcut
    have hparts := hp.parts
    rw [hcut] at hparts
    simpa only [ended, decide_eq_true_eq] using hparts
  isFolder := by
    rw [Path.isFolder, hp.folder, ended, decide_eq_true_eq]
  getDepth := by
    rw [getDepth_refines hp, List.count_cons_self]
    omega

/-- Absolute paths are read back as they were written, and compare by value. -/
theorem absolute_roundTrip {t : Libc.String} {m : List UInt8} (fresh fresh' : Garbage)
    (hs : s.Refines l) (ht : t.Refines m) (hl : l.head? = some slash)
    (hm : m.head? = some slash) (hfl : Fits l) (hfm : Fits m) :
    ∃ p q, ofString fresh s = some p ∧ ofString fresh' t = some q ∧ p.Reads l ∧ q.Reads m ∧
      ∀ garbage garbage', ∃ b, p.equals garbage garbage' q = some b ∧ (b = true ↔ l = m) := by
  have hl' := pathText_of_absolute hl
  have hm' := pathText_of_absolute hm
  unfold Fits at hfl hfm
  obtain ⟨p, hp, hrefp⟩ := ofString_refines fresh hs (by omega)
  obtain ⟨q, hq, hrefq⟩ := ofString_refines fresh' ht (by omega)
  have hlenl := congrArg List.length hl'
  have hlenm := congrArg List.length hm'
  rw [List.length_cons] at hlenl hlenm
  have hreadp := hrefp.reads (by omega)
  have hreadq := hrefq.reads (by omega)
  rw [hl'] at hreadp
  rw [hm'] at hreadq
  refine ⟨p, q, hp, hq, hreadp, hreadq, fun garbage garbage' => ⟨_, equals_refines garbage garbage'
    hrefp hrefq (by omega) (by omega), ?_⟩⟩
  rw [decide_eq_true_eq]
  constructor
  · intro h
    rw [← hl', h, hm']
  · intro h
    rw [h]

/-- The texts `/a/` and `/b`. -/
theorem absolute_roundTrip_two : ∃ p q,
    ofString (fun _ _ => 0) ⟨[47, 97, 47, 0], 3⟩ = some p ∧
      ofString (fun _ _ => 0) ⟨[47, 98, 0], 2⟩ = some q ∧ p.Reads [47, 97, 47] ∧ q.Reads [47, 98] ∧
        ∀ garbage garbage', ∃ b, p.equals garbage garbage' q = some b ∧
          (b = true ↔ ([47, 97, 47] : List UInt8) = [47, 98]) :=
  absolute_roundTrip _ _ ⟨by decide, by decide, by decide⟩ ⟨by decide, by decide, by decide⟩
    (by decide) (by decide) (by decide) (by decide)

/-! ## Relative and blank paths -/

structure SamePath (p q : Path) : Prop where
  parts : ∃ texts, List.Forall₂ String.Refines p.parts texts ∧
    List.Forall₂ String.Refines q.parts texts
  isFolder : p.isFolder = q.isFolder
  getDepth : p.getDepth = q.getDepth

/-- A relative path is taken for the absolute one, and a blank one for the root. -/
structure Completes (l : List UInt8) : Prop where
  relative : l.head? ≠ some slash → l.all isspace = false →
    ∀ fresh fresh' s t, String.Refines s l → String.Refines t (slash :: l) →
      ∃ p q, ofString fresh s = some p ∧ ofString fresh' t = some q ∧ p.SamePath q
  blank : l.all isspace = true → ∀ fresh s, String.Refines s l →
    ∃ p, ofString fresh s = some p ∧ p.parts = [] ∧ p.isFolder = true ∧ p.isRoot = true

theorem Refines.samePath {q : Path} (hp : p.Refines l) (hq : q.Refines l) : p.SamePath q where
  parts := ⟨_, hp.parts, hq.parts⟩
  isFolder := hp.folder.trans hq.folder.symm
  getDepth := (getDepth_refines hp).trans (getDepth_refines hq).symm

theorem pathText_of_relative (hl : l.head? ≠ some slash) (hspace : l.all isspace = false) :
    pathText l = l := by
  have hroot : rootText l = l := by
    rw [rootText, hspace, if_neg Bool.false_ne_true]
  rw [pathText, hroot, absoluteText, if_neg hl, List.tail_cons]

/-- Of a blank text that is not empty, all becomes a part. -/
theorem pathText_of_blank (hne : l ≠ []) (hspace : l.all isspace = true) :
    pathText l = l ++ [slash] := by
  obtain ⟨c, rest, rfl⟩ := List.exists_cons_of_ne_nil hne
  have hc : isspace c = true := List.all_eq_true.mp hspace c List.mem_cons_self
  have hslash : isspace slash = false := by decide
  have hhead : (c :: rest ++ [slash]).head? ≠ some slash := by
    intro h
    rw [List.cons_append, List.head?_cons, Option.some.injEq] at h
    rw [h, hslash] at hc
    cases hc
  rw [pathText, rootText, if_pos hspace, absoluteText, if_neg hhead, List.tail_cons]

/-- A text with nothing behind its first slash is the root. -/
theorem Refines.root (hp : p.Refines []) :
    p.parts = [] ∧ p.isFolder = true ∧ p.isRoot = true := by
  have hparts : p.parts = [] := List.forall₂_nil_right_iff.mp hp.parts
  have hfolder : p.isFolder = true := hp.folder
  refine ⟨hparts, hfolder, ?_⟩
  rw [isRoot, getDepth, hfolder, hparts]
  rfl

theorem completes_iff (hnul : 0 ∉ l) (hfit : Fits (slash :: l)) :
    Completes l ↔ (l.all isspace = true → l = []) := by
  unfold Fits at hfit
  rw [List.length_cons] at hfit
  constructor
  · intro h hspace
    by_contra hne
    have hs : String.Refines ⟨l ++ [0], l.length⟩ l := (String.refines_closed rfl).mpr ⟨rfl, hnul⟩
    obtain ⟨p, hp, hrefp⟩ := ofString_refines (fun _ _ => 0) hs (by omega)
    obtain ⟨p', hp', hparts, -⟩ := h.blank hspace (fun _ _ => 0) _ hs
    obtain rfl : p = p' := Option.some.inj (hp.symm.trans hp')
    rw [pathText_of_blank hne hspace] at hrefp
    have hcut := hrefp.parts
    rw [hparts, List.forall₂_nil_left_iff, cut_eq_nil_iff] at hcut
    exact List.append_ne_nil_of_right_ne_nil l (List.cons_ne_nil slash []) hcut.2
  · intro h
    refine ⟨fun hhead hspace fresh fresh' s t hs ht => ?_, fun hspace fresh s hs => ?_⟩
    · obtain ⟨p, hp, hrefp⟩ := ofString_refines fresh hs (by omega)
      obtain ⟨q, hq, hrefq⟩ := ofString_refines fresh' ht (by rw [List.length_cons]; omega)
      have hq' := pathText_of_absolute (l := slash :: l) rfl
      rw [List.cons.injEq, eq_self_iff_true, true_and] at hq'
      rw [pathText_of_relative hhead hspace] at hrefp
      rw [hq'] at hrefq
      exact ⟨p, q, hp, hq, hrefp.samePath hrefq⟩
    · obtain rfl := h hspace
      obtain ⟨p, hp, hrefp⟩ := ofString_refines fresh hs (by omega)
      exact ⟨p, hp, hrefp.root⟩

theorem completes_iff_relative : Completes [97, 47, 98] :=
  (completes_iff (by decide) (by decide)).mpr (by decide)

/-- Two blanks become the name of a folder. -/
theorem not_completes : ¬ ∀ l, 0 ∉ l → Fits (slash :: l) → Completes l := by
  intro h
  obtain ⟨p, hp, hparts, -⟩ := (h [32, 32] (by decide) (by decide)).blank (by decide)
    (fun _ _ => 0) ⟨[32, 32, 0], 2⟩ ⟨by decide, by decide, by decide⟩
  have hone : (ofString (fun _ _ => 0) ⟨[32, 32, 0], 2⟩).map (fun p => p.parts.length) =
      some 1 := by
    decide
  rw [hp, Option.map_some, hparts] at hone
  cases hone

end AviKernel.PathStrings.Path
