import AviKernel.Library.Extents

/-!
# Byte memory with a record of what was written

A memory gives every address a byte and remembers the extents stored to,
newest first.  Words are four bytes, least significant first.  `Confined A`
is the frame rule: only addresses of `A` were stored to, and every other
address kept its byte.
-/

namespace AviKernel

structure Memory where
  byte : ℕ → UInt8
  /-- The extents stored to so far, newest first. -/
  written : List Extent

namespace Memory

variable {m m₁ m₂ m₃ : Memory} {A B : Set ℕ} {a b w n : ℕ}

/-- The 32-bit word at an address. -/
def load (m : Memory) (a : ℕ) : ℕ :=
  (m.byte a).toNat + 256 * (m.byte (a + 1)).toNat + 65536 * (m.byte (a + 2)).toNat +
    16777216 * (m.byte (a + 3)).toNat

/-- Store a 32-bit word at an address. -/
def store (m : Memory) (a w : ℕ) : Memory where
  byte x :=
    if x = a then UInt8.ofNat w
    else if x = a + 1 then UInt8.ofNat (w / 256)
    else if x = a + 2 then UInt8.ofNat (w / 65536)
    else if x = a + 3 then UInt8.ofNat (w / 16777216)
    else m.byte x
  written := ⟨a, 4⟩ :: m.written

/-- Store one byte. -/
def storeByte (m : Memory) (a : ℕ) (b : UInt8) : Memory where
  byte x := if x = a then b else m.byte x
  written := ⟨a, 1⟩ :: m.written

/-- Zeros from an address on. -/
def clear (m : Memory) (a n : ℕ) : Memory where
  byte x := if a ≤ x ∧ x < a + n then 0 else m.byte x
  written := ⟨a, n⟩ :: m.written

/-- Copy bytes one at a time, in ascending order. -/
def copy (m : Memory) (dst src : ℕ) : ℕ → Memory
  | 0 => m
  | n + 1 => (m.copy dst src n).storeByte (dst + n) ((m.copy dst src n).byte (src + n))

theorem load_lt : m.load a < 2 ^ 32 := by
  have h₀ := (m.byte a).toNat_lt
  have h₁ := (m.byte (a + 1)).toNat_lt
  have h₂ := (m.byte (a + 2)).toNat_lt
  have h₃ := (m.byte (a + 3)).toNat_lt
  simp only [load]
  omega

theorem load_congr (h : ∀ x, a ≤ x → x < a + 4 → m₂.byte x = m₁.byte x) :
    m₂.load a = m₁.load a := by
  simp only [load, h a le_rfl (by omega), h (a + 1) (by omega) (by omega),
    h (a + 2) (by omega) (by omega), h (a + 3) (by omega) (by omega)]

theorem byte_store_of_not_mem {x : ℕ} (h : x < a ∨ a + 4 ≤ x) :
    (m.store a w).byte x = m.byte x := by
  simp only [store]
  rw [if_neg (by omega), if_neg (by omega), if_neg (by omega), if_neg (by omega)]

theorem load_store_self (hw : w < 2 ^ 32) : (m.store a w).load a = w := by
  simp only [load, store]
  simp only [show a + 1 ≠ a by omega, show a + 2 ≠ a by omega, show a + 3 ≠ a by omega,
    show a + 2 ≠ a + 1 by omega, show a + 3 ≠ a + 1 by omega, show a + 3 ≠ a + 2 by omega,
    if_true, if_false, UInt8.toNat_ofNat']
  omega

theorem load_store_of_disjoint (h : a + 4 ≤ b ∨ b + 4 ≤ a) :
    (m.store a w).load b = m.load b :=
  load_congr fun x _ _ => byte_store_of_not_mem (by omega)

theorem byte_storeByte_of_ne {x : ℕ} {v : UInt8} (h : x ≠ a) :
    (m.storeByte a v).byte x = m.byte x := if_neg h

@[simp] theorem byte_storeByte_self {v : UInt8} : (m.storeByte a v).byte a = v := if_pos rfl

theorem byte_copy_of_not_mem {dst src x : ℕ} (h : x < dst ∨ dst + n ≤ x) :
    (m.copy dst src n).byte x = m.byte x := by
  induction n with
  | zero => rfl
  | succ n ih =>
      rw [copy, byte_storeByte_of_ne (by omega)]
      exact ih (by omega)

/-- A byte is moved unless the copy has overwritten it before, which a copy to a lower
address never does. -/
theorem byte_copy_ascending {dst src i : ℕ} (h : dst ≤ src ∨ src + i < dst) (hi : i < n) :
    (m.copy dst src n).byte (dst + i) = m.byte (src + i) := by
  induction n with
  | zero => omega
  | succ n ih =>
      rcases Nat.lt_succ_iff_lt_or_eq.mp hi with hlt | rfl
      · rw [copy, byte_storeByte_of_ne (by omega)]
        exact ih hlt
      · rw [copy, byte_storeByte_self]
        exact byte_copy_of_not_mem (by omega)

/-- A copy between extents without a common address moves the source bytes. -/
theorem byte_copy {dst src i : ℕ} (hd : Extent.Disjoint ⟨dst, n⟩ ⟨src, n⟩) (hi : i < n) :
    (m.copy dst src n).byte (dst + i) = m.byte (src + i) := by
  simp only [Extent.Disjoint] at hd
  exact byte_copy_ascending (by omega) hi

/-! ## The bytes of words -/

/-- Byte `i` of a word, from the least significant on. -/
def wordByte (w i : ℕ) : UInt8 := UInt8.ofNat (w / 256 ^ i)

theorem byte_eq_wordByte {i : ℕ} (hi : i < 4) : m.byte (a + i) = wordByte (m.load a) i := by
  have h₀ := (m.byte a).toNat_lt
  have h₁ := (m.byte (a + 1)).toNat_lt
  have h₂ := (m.byte (a + 2)).toNat_lt
  have h₃ := (m.byte (a + 3)).toNat_lt
  apply UInt8.toNat_inj.mp
  rw [wordByte, UInt8.toNat_ofNat', load]
  interval_cases i
  · rw [Nat.add_zero]
    omega
  · omega
  · omega
  · omega

/-! ## Words whose addresses wrap -/

/-- The word at an address of a machine with `2 ^ 32` addresses. -/
def load32 (m : Memory) (a : ℕ) : ℕ :=
  (m.byte (a % 2 ^ 32)).toNat + 256 * (m.byte ((a + 1) % 2 ^ 32)).toNat +
    65536 * (m.byte ((a + 2) % 2 ^ 32)).toNat + 16777216 * (m.byte ((a + 3) % 2 ^ 32)).toNat

/-- Store a word at an address of a machine with `2 ^ 32` addresses. -/
def store32 (m : Memory) (a w : ℕ) : Memory where
  byte x :=
    if x = a % 2 ^ 32 then UInt8.ofNat w
    else if x = (a + 1) % 2 ^ 32 then UInt8.ofNat (w / 256)
    else if x = (a + 2) % 2 ^ 32 then UInt8.ofNat (w / 65536)
    else if x = (a + 3) % 2 ^ 32 then UInt8.ofNat (w / 16777216)
    else m.byte x
  written := ⟨a, 4⟩ :: m.written

theorem load32_lt : m.load32 a < 2 ^ 32 := by
  have h₀ := (m.byte (a % 2 ^ 32)).toNat_lt
  have h₁ := (m.byte ((a + 1) % 2 ^ 32)).toNat_lt
  have h₂ := (m.byte ((a + 2) % 2 ^ 32)).toNat_lt
  have h₃ := (m.byte ((a + 3) % 2 ^ 32)).toNat_lt
  simp only [load32]
  omega

theorem load32_congr (h : ∀ k < 4, m₂.byte ((a + k) % 2 ^ 32) = m₁.byte ((a + k) % 2 ^ 32)) :
    m₂.load32 a = m₁.load32 a := by
  have h₀ := h 0 (by decide)
  rw [Nat.add_zero] at h₀
  simp only [load32, h₀, h 1 (by decide), h 2 (by decide), h 3 (by decide)]

theorem load32_eq_zero (h : ∀ k < 4, m.byte ((a + k) % 2 ^ 32) = 0) : m.load32 a = 0 := by
  have h₀ := h 0 (by decide)
  rw [Nat.add_zero] at h₀
  simp only [load32, h₀, h 1 (by decide), h 2 (by decide), h 3 (by decide), UInt8.toNat_zero]

theorem load32_mod : m.load32 (a % 2 ^ 32) = m.load32 a := by
  simp only [load32, Nat.mod_mod, Nat.mod_add_mod]

theorem load32_store32_self (hw : w < 2 ^ 32) : (m.store32 a w).load32 a = w := by
  have h₁ : (a + 1) % 2 ^ 32 ≠ a % 2 ^ 32 := by omega
  have h₂ : (a + 2) % 2 ^ 32 ≠ a % 2 ^ 32 := by omega
  have h₃ : (a + 3) % 2 ^ 32 ≠ a % 2 ^ 32 := by omega
  have h₁₂ : (a + 2) % 2 ^ 32 ≠ (a + 1) % 2 ^ 32 := by omega
  have h₁₃ : (a + 3) % 2 ^ 32 ≠ (a + 1) % 2 ^ 32 := by omega
  have h₂₃ : (a + 3) % 2 ^ 32 ≠ (a + 2) % 2 ^ 32 := by omega
  simp only [load32, store32, h₁, h₂, h₃, h₁₂, h₁₃, h₂₃, if_true, if_false, UInt8.toNat_ofNat']
  omega

theorem byte_store32_of_ne {x : ℕ} (h : ∀ k < 4, x ≠ (a + k) % 2 ^ 32) :
    (m.store32 a w).byte x = m.byte x := by
  have h₀ := h 0 (by decide)
  rw [Nat.add_zero] at h₀
  simp only [store32, if_neg h₀, if_neg (h 1 (by decide)), if_neg (h 2 (by decide)),
    if_neg (h 3 (by decide))]

theorem load32_store32_of_ne
    (h : ∀ i < 4, ∀ k < 4, (b + k) % 2 ^ 32 ≠ (a + i) % 2 ^ 32) :
    (m.store32 a w).load32 b = m.load32 b := by
  refine load32_congr fun k hk => ?_
  exact byte_store32_of_ne fun i hi => h i hi k hk

theorem byte_store32_congr {x : ℕ} (h : m₂.byte x = m₁.byte x) :
    (m₂.store32 a w).byte x = (m₁.store32 a w).byte x := by
  simp only [store32, h]

/-- The word that is there is stored. -/
theorem byte_store32_load32 (m : Memory) (a x : ℕ) : (m.store32 a (m.load32 a)).byte x = m.byte x := by
  have h₀ := (m.byte (a % 2 ^ 32)).toNat_lt
  have h₁ := (m.byte ((a + 1) % 2 ^ 32)).toNat_lt
  have h₂ := (m.byte ((a + 2) % 2 ^ 32)).toNat_lt
  have h₃ := (m.byte ((a + 3) % 2 ^ 32)).toNat_lt
  apply UInt8.toNat_inj.mp
  simp only [store32, load32]
  split_ifs with hx hx hx hx
  · rw [hx, UInt8.toNat_ofNat']
    omega
  · rw [hx, UInt8.toNat_ofNat']
    omega
  · rw [hx, UInt8.toNat_ofNat']
    omega
  · rw [hx, UInt8.toNat_ofNat']
    omega
  · rfl

theorem byte_store32_store32 (m : Memory) (a v w x : ℕ) :
    ((m.store32 a v).store32 a w).byte x = (m.store32 a w).byte x := by
  simp only [store32]
  split_ifs <;> rfl

/-- Words without a common byte are stored in any order. -/
theorem byte_store32_comm (h : ∀ i < 4, ∀ k < 4, (b + k) % 2 ^ 32 ≠ (a + i) % 2 ^ 32)
    (m : Memory) (v w x : ℕ) :
    ((m.store32 a v).store32 b w).byte x = ((m.store32 b w).store32 a v).byte x := by
  by_cases hx : ∀ k < 4, x ≠ (b + k) % 2 ^ 32
  · rw [byte_store32_of_ne hx]
    exact byte_store32_congr (byte_store32_of_ne hx).symm
  · push Not at hx
    obtain ⟨k, hk, rfl⟩ := hx
    have hout : ∀ i < 4, (b + k) % 2 ^ 32 ≠ (a + i) % 2 ^ 32 := fun i hi => h i hi k hk
    rw [byte_store32_of_ne hout]
    exact byte_store32_congr (byte_store32_of_ne hout)

/-! ## Frames -/

/-- Everything stored between the two memories lies in `A`, and nothing else changed. -/
def Confined (A : Set ℕ) (m₁ m₂ : Memory) : Prop :=
  (∃ es, m₂.written = es ++ m₁.written ∧ ∀ e ∈ es, ∀ x, x ∈ e → x ∈ A) ∧
    ∀ x, x ∉ A → m₂.byte x = m₁.byte x

theorem Confined.refl (A : Set ℕ) (m : Memory) : Confined A m m :=
  ⟨⟨[], rfl, by simp⟩, fun _ _ => rfl⟩

theorem Confined.mono (h : Confined A m₁ m₂) (hAB : A ⊆ B) : Confined B m₁ m₂ := by
  obtain ⟨⟨es, hes, hin⟩, hout⟩ := h
  exact ⟨⟨es, hes, fun e he x hx => hAB (hin e he x hx)⟩, fun x hx => hout x fun hA => hx (hAB hA)⟩

theorem Confined.trans (h₁ : Confined A m₁ m₂) (h₂ : Confined A m₂ m₃) : Confined A m₁ m₃ := by
  obtain ⟨⟨es, hes, hin₁⟩, hout₁⟩ := h₁
  obtain ⟨⟨fs, hfs, hin₂⟩, hout₂⟩ := h₂
  refine ⟨⟨fs ++ es, by rw [hfs, hes, List.append_assoc], ?_⟩, fun x hx => ?_⟩
  · intro e he
    rcases List.mem_append.mp he with he | he
    · exact hin₂ e he
    · exact hin₁ e he
  · rw [hout₂ x hx, hout₁ x hx]

theorem confined_store (h : ∀ x, a ≤ x → x < a + 4 → x ∈ A) : Confined A m (m.store a w) := by
  refine ⟨⟨[⟨a, 4⟩], rfl, ?_⟩, fun x hx => byte_store_of_not_mem ?_⟩
  · intro e he x hx
    rw [List.mem_singleton] at he
    subst he
    exact h x hx.1 hx.2
  · by_contra hn
    exact hx (h x (by omega) (by omega))

theorem confined_storeByte {v : UInt8} (h : a ∈ A) : Confined A m (m.storeByte a v) := by
  refine ⟨⟨[⟨a, 1⟩], rfl, ?_⟩, fun x hx => byte_storeByte_of_ne fun hxa => hx (hxa ▸ h)⟩
  intro e he x hx
  rw [List.mem_singleton] at he
  subst he
  rw [Extent.mem_mk] at hx
  rwa [show x = a by omega]

theorem confined_copy {dst src : ℕ} (h : ∀ x, dst ≤ x → x < dst + n → x ∈ A) :
    Confined A m (m.copy dst src n) := by
  induction n with
  | zero => exact Confined.refl A m
  | succ n ih =>
      exact (ih fun x h₁ h₂ => h x h₁ (by omega)).trans
        (confined_storeByte (h _ (by omega) (by omega)))

theorem Confined.byte_eq (h : Confined A m₁ m₂) {x : ℕ} (hx : x ∉ A) :
    m₂.byte x = m₁.byte x := h.2 x hx

theorem Confined.load_eq (h : Confined A m₁ m₂) (hA : ∀ x, a ≤ x → x < a + 4 → x ∉ A) :
    m₂.load a = m₁.load a := load_congr fun x h₁ h₂ => h.2 x (hA x h₁ h₂)

end Memory

end AviKernel
