import AviKernel.Libc.String

/-!
# Strings as lists of characters

A program makes strings from one another and changes them in place.  Its purpose
is told by the lists that they spell.  Three functions take a character for
another number than it is; without them the strings spell what they should.
-/

namespace AviKernel.Libc

/-! ## Programs -/

/-- How a string is made.  The strings that are read are numbered. -/
inductive Expr
  | ofNothing
  | ofString (y : ℕ)
  | ofCString (s : List UInt8)
  | ofPointer (s : List UInt8) (n : ℕ)
  | ofCount (n : ℕ) (c : UInt8)
  | add (y z : ℕ)
  | addCString (y : ℕ) (s : List UInt8)
  | cStringAdd (s : List UInt8) (z : ℕ)
  | addChar (y : ℕ) (c : UInt8)
  | charAdd (c : UInt8) (z : ℕ)
  | substr (y pos len : ℕ)

/-- How a string is changed. -/
inductive Mutation
  | assign (y : ℕ)
  | assignCString (s : List UInt8)
  | assignChar (c : UInt8)
  | append (y : ℕ)
  | appendCString (s : List UInt8)
  | appendChar (c : UInt8)
  | clear
  | setAt (pos : ℕ) (c : UInt8)

/-- What is done to one string, and what the memory holds that it is given. -/
inductive Action
  | construct (x : ℕ) (e : Expr) (fresh : ℕ → ℕ → UInt8)
  | mutate (x : ℕ) (m : Mutation) (fresh : ℕ → ℕ → UInt8)

abbrev Strings := ℕ → Option String

abbrev Texts := ℕ → Option (List UInt8)

def Expr.eval (env : Strings) (fresh : ℕ → ℕ → UInt8) : Expr → Option String
  | .ofNothing => String.ofNothing (fresh 0)
  | .ofString y => (env y).bind fun s => String.ofString (fresh 0) s
  | .ofCString s => String.initializeFromCString (fresh 0) s
  | .ofPointer s n => String.ofPointer (fresh 0) s n
  | .ofCount n c => String.ofCount (fresh 0) n c
  | .add y z => (env y).bind fun s => (env z).bind fun t => String.add fresh s t
  | .addCString y s => (env y).bind fun t => String.addCString fresh t s
  | .cStringAdd s z => (env z).bind fun t => String.cStringAdd fresh s t
  | .addChar y c => (env y).bind fun s => String.addChar fresh s c
  | .charAdd c z => (env z).bind fun s => String.charAdd fresh c s
  | .substr y pos len => (env y).bind fun s => String.substr (fresh 0) s pos len

def Mutation.eval (env : Strings) (fresh : ℕ → ℕ → UInt8) (s : String) : Mutation → Option String
  | .assign y => (env y).bind fun t => String.initializeFromCString (fresh 0) t.cStr
  | .assignCString str => String.initializeFromCString (fresh 0) str
  | .assignChar c => String.initializeFromChar (fresh 0) c
  | .append y => (env y).bind fun t => String.appendCString (fresh 0) s t.cStr
  | .appendCString str => String.appendCString (fresh 0) s str
  | .appendChar c => String.appendChar (fresh 0) s c
  | .clear => String.clear (fresh 0)
  | .setAt pos c => String.setAt s pos c

def step (env : Strings) : Action → Option Strings
  | .construct x e fresh => (e.eval env fresh).map fun s => Function.update env x (some s)
  | .mutate x m fresh =>
      ((env x).bind fun s => m.eval env fresh s).map fun s => Function.update env x (some s)

/-! ## Their purpose -/

def Expr.value (texts : Texts) : Expr → Option (List UInt8)
  | .ofNothing => some []
  | .ofString y => texts y
  | .ofCString s => some (text 0 s)
  | .ofPointer s n => some (s.take n)
  | .ofCount n c => some (text 0 (List.replicate n c))
  | .add y z => (texts y).bind fun l => (texts z).map fun r => l ++ r
  | .addCString y s => (texts y).map fun l => l ++ text 0 s
  | .cStringAdd s z => (texts z).map fun r => text 0 s ++ r
  | .addChar y c => (texts y).map fun l => l ++ text 0 [c]
  | .charAdd c z => (texts z).map fun r => text 0 [c] ++ r
  | .substr y pos len => (texts y).map fun l => (l.drop pos).take len

def Mutation.value (texts : Texts) (l : List UInt8) : Mutation → Option (List UInt8)
  | .assign y => texts y
  | .assignCString s => some (text 0 s)
  | .assignChar c => some (text 0 [c])
  | .append y => (texts y).map fun r => l ++ r
  | .appendCString s => some (l ++ text 0 s)
  | .appendChar c => some (l ++ text 0 [c])
  | .clear => some []
  | .setAt pos c => some (l.set pos c)

def specStep (texts : Texts) : Action → Option Texts
  | .construct x e _ => (e.value texts).map fun l => Function.update texts x (some l)
  | .mutate x m _ =>
      ((texts x).bind fun l => m.value texts l).map fun l => Function.update texts x (some l)

/-- The text of a buffer that was allocated; a chunk of the heap has four bytes of
its own. -/
def Fits (l : List UInt8) : Prop := l.length + 5 ≤ 2 ^ 32

def Expr.Allowed (texts : Texts) : Expr → Prop
  | .ofCString s => 0 ∈ s
  | .ofPointer s n => n ≤ s.length ∧ 0 ∉ s.take n
  | .ofCount n _ => n + 5 ≤ 2 ^ 32
  | .addCString _ s => 0 ∈ s
  | .cStringAdd s _ => 0 ∈ s
  | .substr y pos len => ∀ l ∈ texts y, pos ≤ l.length ∧ (len = npos ∨ pos + len < 2 ^ 32)
  | _ => True

/-- An argument is not the string that is changed. -/
def Mutation.Allowed (x : ℕ) (l : List UInt8) : Mutation → Prop
  | .assign y => y ≠ x
  | .assignCString s => 0 ∈ s
  | .append y => y ≠ x
  | .appendCString s => 0 ∈ s
  | .setAt pos c => pos < l.length ∧ c ≠ 0
  | _ => True

/-- The strings exist, the arguments are such as the functions ask for, and the
allocations succeed. -/
def Allowed (texts : Texts) : Action → Prop
  | .construct _ e _ => e.Allowed texts ∧ ∃ l ∈ e.value texts, Fits l
  | .mutate x m _ => ∃ l ∈ texts x, m.Allowed x l ∧ ∃ r ∈ m.value texts l, Fits r

instance (l : List UInt8) : Decidable (Fits l) := inferInstanceAs (Decidable (_ ≤ _))

instance (texts : Texts) : ∀ e : Expr, Decidable (e.Allowed texts)
  | .ofCString s => inferInstanceAs (Decidable (0 ∈ s))
  | .ofPointer s n => inferInstanceAs (Decidable (n ≤ s.length ∧ 0 ∉ s.take n))
  | .ofCount n _ => inferInstanceAs (Decidable (n + 5 ≤ 2 ^ 32))
  | .addCString _ s => inferInstanceAs (Decidable (0 ∈ s))
  | .cStringAdd s _ => inferInstanceAs (Decidable (0 ∈ s))
  | .substr y pos len => inferInstanceAs
      (Decidable (∀ l ∈ texts y, pos ≤ l.length ∧ (len = npos ∨ pos + len < 2 ^ 32)))
  | .ofNothing | .ofString _ | .add _ _ | .addChar _ _ | .charAdd _ _ => isTrue trivial

instance (x : ℕ) (l : List UInt8) : ∀ m : Mutation, Decidable (m.Allowed x l)
  | .assign y => inferInstanceAs (Decidable (y ≠ x))
  | .assignCString s => inferInstanceAs (Decidable (0 ∈ s))
  | .append y => inferInstanceAs (Decidable (y ≠ x))
  | .appendCString s => inferInstanceAs (Decidable (0 ∈ s))
  | .setAt pos c => inferInstanceAs (Decidable (pos < l.length ∧ c ≠ 0))
  | .assignChar _ | .appendChar _ | .clear => isTrue trivial

instance (texts : Texts) : ∀ a : Action, Decidable (Allowed texts a)
  | .construct _ e _ => inferInstanceAs
      (Decidable (e.Allowed texts ∧ ∃ l ∈ e.value texts, Fits l))
  | .mutate x m _ => inferInstanceAs
      (Decidable (∃ l ∈ texts x, m.Allowed x l ∧ ∃ r ∈ m.value texts l, Fits r))

/-- Each string spells its text. -/
def Spelled (env : Strings) (texts : Texts) : Prop :=
  ∀ x, Option.Rel String.Refines (env x) (texts x)

/-! ## Where they part -/

/-- The constructor with a count is given a character whose code is the count or
one more, or finds the rest of the characters in the memory. -/
def Expr.Good (fresh : ℕ → ℕ → UInt8) : Expr → Prop
  | .ofCount n c =>
      c.toInt8.toInt ≤ n + 1 ∧ ∀ i < n, c ≠ 0 ∧ (i < c.toInt8.toInt ∨ fresh 0 i = c)
  | .addChar _ c => c ≠ 0
  | .charAdd c _ => c = 0
  | _ => True

def Mutation.Good : Mutation → Prop
  | .assignChar c => c = 0
  | .appendChar c => c ≠ 0
  | _ => True

def Action.Good : Action → Prop
  | .construct _ e fresh => e.Good fresh
  | .mutate _ m _ => m.Good

variable {env : Strings} {texts : Texts} {fresh : ℕ → ℕ → UInt8} {e : Expr} {m : Mutation}
  {s : String} {l r : List UInt8} {x : ℕ}

theorem Spelled.get (h : Spelled env texts) (hx : texts x = some l) :
    ∃ s, env x = some s ∧ s.Refines l := by
  have hrel := h x
  rw [hx] at hrel
  cases hs : env x with
  | none =>
      rw [hs] at hrel
      cases hrel
  | some s =>
      rw [hs] at hrel
      exact ⟨s, rfl, Option.rel_some_some.mp hrel⟩

/-- The string that an operator reads. -/
theorem Spelled.operand {f : List UInt8 → List UInt8} (h : Spelled env texts)
    (hvalue : (texts x).map f = some l) :
    ∃ r s, texts x = some r ∧ env x = some s ∧ s.Refines r ∧ f r = l := by
  obtain ⟨r, hx, hr⟩ := Option.map_eq_some_iff.mp hvalue
  obtain ⟨s, hs, href⟩ := h.get hx
  exact ⟨r, s, hx, hs, href, hr⟩

theorem Spelled.update_iff (h : Spelled env texts) :
    Spelled (Function.update env x (some s)) (Function.update texts x (some l)) ↔
      s.Refines l := by
  constructor
  · intro hupdate
    have hx := hupdate x
    rw [Function.update_self, Function.update_self] at hx
    exact Option.rel_some_some.mp hx
  · intro href y
    by_cases hy : y = x
    · subst hy
      rw [Function.update_self, Function.update_self]
      exact Option.rel_some_some.mpr href
    · rw [Function.update_of_ne hy, Function.update_of_ne hy]
      exact h y

/-- A string that is made spells its text exactly if it is made well. -/
theorem Expr.eval_refines_iff (h : Spelled env texts) (hfits : ∀ y, ∀ l ∈ texts y, Fits l)
    (hallowed : e.Allowed texts) (hvalue : e.value texts = some l) (hl : Fits l) :
    (∃ s, e.eval env fresh = some s ∧ s.Refines l) ↔ e.Good fresh := by
  unfold Fits at hl
  cases e with
  | ofNothing =>
      obtain rfl := Option.some.inj hvalue
      exact iff_of_true (String.initializeFromChar_zero _) trivial
  | ofString y =>
      obtain ⟨s, hs, href⟩ := h.get hvalue
      simp only [Expr.eval, hs, Option.bind_some]
      exact iff_of_true (String.ofString_refines _ href (by omega)) trivial
  | ofCString s =>
      obtain rfl := Option.some.inj hvalue
      exact iff_of_true
        (String.initializeFromCString_refines _ (spells_text hallowed) (by omega)) trivial
  | ofPointer s n =>
      obtain rfl := Option.some.inj hvalue
      obtain ⟨hn, hnot⟩ := hallowed
      rw [List.length_take_of_le hn] at hl
      exact iff_of_true (String.ofPointer_refines hn hnot (by omega)) trivial
  | ofCount n c =>
      obtain rfl := Option.some.inj hvalue
      have hn : n + 5 ≤ 2 ^ 32 := hallowed
      exact String.ofCount_refines_iff (by omega)
  | add y z =>
      obtain ⟨l₁, hy, hvalue⟩ := Option.bind_eq_some_iff.mp hvalue
      obtain ⟨l₂, hz, rfl⟩ := Option.map_eq_some_iff.mp hvalue
      obtain ⟨s, hs, hrefs⟩ := h.get hy
      obtain ⟨t, ht, hreft⟩ := h.get hz
      rw [List.length_append] at hl
      simp only [Expr.eval, hs, ht, Option.bind_some]
      exact iff_of_true (String.addCString_refines hrefs hreft.spells (by omega)) trivial
  | addCString y str =>
      obtain ⟨l₁, s, -, hs, hrefs, rfl⟩ := h.operand hvalue
      rw [List.length_append] at hl
      simp only [Expr.eval, hs, Option.bind_some]
      exact iff_of_true (String.addCString_refines hrefs (spells_text hallowed) (by omega)) trivial
  | cStringAdd str z =>
      obtain ⟨l₁, s, -, hs, hrefs, rfl⟩ := h.operand hvalue
      rw [List.length_append] at hl
      simp only [Expr.eval, hs, Option.bind_some]
      exact iff_of_true (String.cStringAdd_refines (spells_text hallowed) hrefs (by omega)) trivial
  | addChar y c =>
      obtain ⟨l₁, s, -, hs, hrefs, rfl⟩ := h.operand hvalue
      rw [List.length_append] at hl
      simp only [Expr.eval, hs, Option.bind_some]
      exact String.addChar_refines_iff hrefs (by omega)
  | charAdd c z =>
      obtain ⟨l₁, s, -, hs, hrefs, rfl⟩ := h.operand hvalue
      rw [List.length_append] at hl
      simp only [Expr.eval, hs, Option.bind_some]
      exact String.charAdd_refines_iff hrefs (by omega)
  | substr y pos len =>
      obtain ⟨l₁, s, hy, hs, hrefs, rfl⟩ := h.operand hvalue
      obtain ⟨hpos, hlen⟩ := hallowed l₁ hy
      have hroom : Fits l₁ := hfits y l₁ hy
      unfold Fits at hroom
      simp only [Expr.eval, hs, Option.bind_some]
      exact iff_of_true (String.substr_refines hrefs (by omega) hpos hlen) trivial

theorem Mutation.eval_refines_iff (h : Spelled env texts) (hs : s.Refines l)
    (hallowed : m.Allowed x l) (hvalue : m.value texts l = some r) (hr : Fits r) :
    (∃ t, m.eval env fresh s = some t ∧ t.Refines r) ↔ m.Good := by
  unfold Fits at hr
  cases m with
  | assign y =>
      obtain ⟨t, ht, href⟩ := h.get hvalue
      simp only [Mutation.eval, ht, Option.bind_some]
      exact iff_of_true (String.initializeFromCString_refines _ href.spells (by omega)) trivial
  | assignCString str =>
      obtain rfl := Option.some.inj hvalue
      exact iff_of_true
        (String.initializeFromCString_refines _ (spells_text hallowed) (by omega)) trivial
  | assignChar c =>
      obtain rfl := Option.some.inj hvalue
      exact String.initializeFromChar_refines_iff
  | append y =>
      obtain ⟨l₁, t, -, ht, href, rfl⟩ := h.operand hvalue
      rw [List.length_append] at hr
      simp only [Mutation.eval, ht, Option.bind_some]
      exact iff_of_true (String.appendCString_refines hs href.spells (by omega)) trivial
  | appendCString str =>
      obtain rfl := Option.some.inj hvalue
      rw [List.length_append] at hr
      exact iff_of_true
        (String.appendCString_refines hs (spells_text hallowed) (by omega)) trivial
  | appendChar c =>
      obtain rfl := Option.some.inj hvalue
      rw [List.length_append] at hr
      exact String.appendChar_refines_iff hs (by omega)
  | clear =>
      obtain rfl := Option.some.inj hvalue
      exact iff_of_true (String.initializeFromChar_zero _) trivial
  | setAt pos c =>
      obtain rfl := Option.some.inj hvalue
      obtain ⟨hpos, hc⟩ := hallowed
      rw [List.length_set] at hr
      exact iff_of_true (String.setAt_refines hs (by omega) hpos hc) trivial

/-! ## Whole programs -/

/-- A string that is put in its place. -/
theorem Spelled.map_iff {made : Option String} {v : Texts} (h : Spelled env texts)
    (hv : v = Function.update texts x (some l)) :
    (∃ t w, (made.map fun s => Function.update env x (some s)) = some t ∧ some v = some w ∧
      Spelled t w) ↔ ∃ s, made = some s ∧ s.Refines l := by
  subst hv
  constructor
  · rintro ⟨t, w, ht, hw, hspelled⟩
    obtain ⟨s, hs, rfl⟩ := Option.map_eq_some_iff.mp ht
    obtain rfl := Option.some.inj hw
    exact ⟨s, hs, h.update_iff.mp hspelled⟩
  · rintro ⟨s, rfl, href⟩
    exact ⟨_, _, rfl, rfl, h.update_iff.mpr href⟩

theorem step_spelled_iff {a : Action} (h : Spelled env texts)
    (hfits : ∀ y, ∀ l ∈ texts y, Fits l) (ha : Allowed texts a) :
    (∃ t v, step env a = some t ∧ specStep texts a = some v ∧ Spelled t v) ↔ a.Good := by
  cases a with
  | construct x e fresh =>
      obtain ⟨hallowed, l, hvalue, hl⟩ := ha
      have hspec : specStep texts (.construct x e fresh) =
          some (Function.update texts x (some l)) := by
        rw [specStep, hvalue, Option.map_some]
      rw [hspec]
      exact (h.map_iff rfl).trans (Expr.eval_refines_iff h hfits hallowed hvalue hl)
  | mutate x m fresh =>
      obtain ⟨l, hx, hallowed, r, hvalue, hr⟩ := ha
      obtain ⟨s, hs, href⟩ := h.get hx
      have hspec : specStep texts (.mutate x m fresh) =
          some (Function.update texts x (some r)) := by
        rw [specStep, hx, Option.bind_some, hvalue, Option.map_some]
      rw [hspec, step, hs, Option.bind_some]
      exact (h.map_iff rfl).trans (Mutation.eval_refines_iff h href hallowed hvalue hr)

theorem specStep_fits {a : Action} {v : Texts} (hfits : ∀ y, ∀ l ∈ texts y, Fits l)
    (ha : Allowed texts a) (hv : specStep texts a = some v) : ∀ y, ∀ l ∈ v y, Fits l := by
  have hupdate : ∀ x l, Fits l → ∀ y, ∀ r ∈ Function.update texts x (some l) y, Fits r := by
    intro x l hl y r hr
    by_cases hy : y = x
    · subst hy
      rw [Function.update_self] at hr
      exact Option.some.inj hr ▸ hl
    · rw [Function.update_of_ne hy] at hr
      exact hfits y r hr
  cases a with
  | construct x e fresh =>
      obtain ⟨-, l, hvalue, hl⟩ := ha
      rw [specStep, hvalue] at hv
      cases hv
      exact hupdate x l hl
  | mutate x m fresh =>
      obtain ⟨l, hx, -, r, hvalue, hr⟩ := ha
      rw [specStep, hx, Option.bind_some, hvalue] at hv
      cases hv
      exact hupdate x r hr

/-- The strings of a program spell their texts all the way exactly if each of its
actions is good. -/
theorem program_refines_iff {as : List Action}
    (hallowed : RunAll specStep Allowed (fun _ => none) as) :
    Simulates step specStep Spelled (fun _ => none) (fun _ => none) as ↔ ∀ a ∈ as, a.Good :=
  simulates_iff (fun _ _ _ => step_spelled_iff) (fun _ _ _ => specStep_fits)
    (fun _ => Option.rel_none_none) (fun _ _ hl => nomatch hl) hallowed

/-- The text `ab`, lengthened and taken apart. -/
def shortProgram : List Action :=
  [.construct 0 (.ofCString [97, 98, 0]) fun _ _ => 0, .mutate 0 (.appendChar 99) fun _ _ => 0,
    .construct 1 (.substr 0 1 npos) fun _ _ => 0, .mutate 1 (.append 0) fun _ _ => 0]

theorem program_refines_iff_shortProgram :
    Simulates step specStep Spelled (fun _ => none) (fun _ => none) shortProgram ↔
      ∀ a ∈ shortProgram, a.Good :=
  program_refines_iff (by decide +kernel)

/-- Three times the letter `a` are written ninety-seven times. -/
theorem not_program_refines : ¬ ∀ as, RunAll specStep Allowed (fun _ => none) as →
    Simulates step specStep Spelled (fun _ => none) (fun _ => none) as := by
  intro h
  have hallowed : RunAll specStep Allowed (fun _ => none)
      [.construct 0 (.ofCount 3 97) fun _ _ => 0] := by decide +kernel
  obtain ⟨t, v, ht, -⟩ := h _ hallowed _ List.prefix_rfl
  cases ht

end AviKernel.Libc
