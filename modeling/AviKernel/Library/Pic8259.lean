import AviKernel.Library.Words

/-!
# A pair of 8259 interrupt controllers

Each controller has a request, a service and a mask bit for eight lines, and the line with the
lowest number comes first.  A slave drives the third line of the master.  Lines are triggered
by edges; the rotation of priorities is left out.
-/

namespace AviKernel.Pic8259

/-- What the next write to the data port is. -/
inductive Phase
  | ready
  | icw2 (single needsIcw4 : Bool)
  | icw3 (needsIcw4 : Bool)
  | icw4
deriving DecidableEq

structure Chip where
  requested : Finset (Fin 8)
  inService : Finset (Fin 8)
  masked : Finset (Fin 8)
  base : UInt8
  /-- The lines with a slave, or the line of the master that the slave drives. -/
  cascade : UInt8
  autoEoi : Bool
  phase : Phase
deriving DecidableEq

/-- The line that comes first. -/
def first (s : Finset (Fin 8)) : Option (Fin 8) := (List.finRange 8).find? fun i => i ∈ s

/-- The lines whose bits are set in a byte. -/
def lines (v : UInt8) : Finset (Fin 8) := Finset.univ.filter fun i => v.toNat.testBit i

variable {s : Finset (Fin 8)} {i j : Fin 8} {v : UInt8}

theorem first_eq_some_iff : first s = some i ↔ i ∈ s ∧ ∀ j ∈ s, i ≤ j := by
  rw [first, List.find?_eq_some_iff_getElem, decide_eq_true_iff]
  refine and_congr_right fun hi => ⟨?_, fun h => ?_⟩
  · rintro ⟨n, hn, rfl, hbefore⟩ j hj
    rw [List.getElem_finRange, Fin.le_def]
    by_contra hlt
    have hnot := hbefore j (not_le.mp hlt)
    rw [List.getElem_finRange] at hnot
    simp [hj] at hnot
  · refine ⟨i, by simp, by simp, fun n hn => ?_⟩
    rw [List.getElem_finRange]
    simp only [Bool.not_eq_eq_eq_not, Bool.not_true, decide_eq_false_iff_not]
    intro hmem
    exact absurd (h _ hmem) (not_le.mpr hn)

theorem first_eq_none_iff : first s = none ↔ s = ∅ := by
  simp [first, Finset.eq_empty_iff_forall_notMem]

@[simp] theorem first_empty : first ∅ = none := first_eq_none_iff.mpr rfl

@[simp] theorem first_singleton : first {i} = some i := by
  simp [first_eq_some_iff]

@[simp] theorem lines_zero : lines 0 = ∅ := by simp [lines]

namespace Chip

variable (p : Chip)

/-- The line that asks for the processor. -/
def request : Option (Fin 8) :=
  if p.phase = .ready then
    (first (p.requested \ p.masked)).filter fun i => ∀ j ∈ p.inService, i < j
  else none

/-- The request of a line becomes its service. -/
def serve (i : Fin 8) : Chip :=
  { p with
    requested := p.requested.erase i
    inService := if p.autoEoi then p.inService else insert i p.inService }

def raise (i : Fin 8) : Chip := { p with requested := insert i p.requested }

def endOfInterrupt : Chip :=
  { p with inService := ((first p.inService).map p.inService.erase).getD p.inService }

/-- A write to the command port. -/
def command (v : UInt8) : Chip :=
  if v &&& 0x10 ≠ 0 then
    { p with
      requested := ∅
      masked := ∅
      autoEoi := p.autoEoi && v &&& 1 ≠ 0
      phase := .icw2 (v &&& 2 ≠ 0) (v &&& 1 ≠ 0) }
  else if v &&& 0x18 = 0 ∧ v &&& 0xE0 = 0x20 then p.endOfInterrupt
  else if v &&& 0x18 = 0 ∧ v &&& 0xE0 = 0x60 then
    { p with inService := p.inService \ lines (1 <<< (v &&& 7)) }
  else p

/-- A write to the data port. -/
def data (v : UInt8) : Chip :=
  match p.phase with
  | .ready => { p with masked := lines v }
  | .icw2 single needsIcw4 =>
      { p with
        base := v &&& 0xF8
        phase := if single then (if needsIcw4 then .icw4 else .ready) else .icw3 needsIcw4 }
  | .icw3 needsIcw4 => { p with cascade := v, phase := if needsIcw4 then .icw4 else .ready }
  | .icw4 => { p with autoEoi := v &&& 2 ≠ 0, phase := .ready }

end Chip

/-! ## The two controllers of a PC -/

structure Pair where
  master : Chip
  slave : Chip
deriving DecidableEq

def masterCommand : UInt16 := 0x20

def masterData : UInt16 := 0x21

def slaveCommand : UInt16 := 0xA0

def slaveData : UInt16 := 0xA1

/-- The line of the master that the slave drives. -/
def slaveLine : Fin 8 := 2

namespace Pair

variable (p : Pair)

/-- The master sees what the slave asks for. -/
def driven : Chip :=
  { p.master with
    requested := if p.slave.request.isSome then insert slaveLine p.master.requested
      else p.master.requested.erase slaveLine }

/-- The processor takes an interrupt and is given a vector.  There is none where the master
leaves the vector to a slave that is not there. -/
def acknowledge : Option (UInt8 × Pair) :=
  p.driven.request.bind fun i =>
    if p.master.cascade.toNat.testBit i then
      if i = slaveLine ∧ p.slave.cascade &&& 7 = 2 then
        p.slave.request.map fun j =>
          (p.slave.base + UInt8.ofNat j.val, ⟨p.driven.serve i, p.slave.serve j⟩)
      else none
    else some (p.master.base + UInt8.ofNat i.val, { p with master := p.driven.serve i })

def outb (port : UInt16) (value : UInt8) : Pair :=
  if port = masterCommand then { p with master := p.master.command value }
  else if port = masterData then { p with master := p.master.data value }
  else if port = slaveCommand then { p with slave := p.slave.command value }
  else if port = slaveData then { p with slave := p.slave.data value }
  else p

@[simp] theorem outb_masterCommand (v : UInt8) :
    p.outb masterCommand v = { p with master := p.master.command v } := rfl

@[simp] theorem outb_masterData (v : UInt8) :
    p.outb masterData v = { p with master := p.master.data v } := rfl

@[simp] theorem outb_slaveCommand (v : UInt8) :
    p.outb slaveCommand v = { p with slave := p.slave.command v } := rfl

@[simp] theorem outb_slaveData (v : UInt8) :
    p.outb slaveData v = { p with slave := p.slave.data v } := rfl

end Pair

/-! ## Lines -/

/-- The lines of the devices. -/
abbrev Line := {n : Fin 16 // n ≠ 2}

namespace Line

variable (n : Line)

/-- The place of a line in the order of priorities. -/
def rank : ℕ := if n.1.val < 2 then n.1.val else if 8 ≤ n.1.val then n.1.val - 6 else n.1.val + 7

/-- The number of a line at its controller. -/
def index : Fin 8 := Fin.ofNat 8 n.1.val

/-- The number at the master. -/
def masterIndex : Fin 8 := if 8 ≤ n.1.val then slaveLine else n.index

/-- The vector of a line, with the first vectors of the two controllers. -/
def vector (m s : UInt8) : UInt8 :=
  if 8 ≤ n.1.val then s + UInt8.ofNat n.index.val else m + UInt8.ofNat n.index.val

def ofMaster (i : Fin 8) (h : i ≠ slaveLine) : Line :=
  ⟨Fin.castLE (by decide) i, by revert i; decide⟩

def ofSlave (j : Fin 8) : Line := ⟨Fin.natAdd 8 j, by revert j; decide⟩

end Line

namespace Pair

variable (p : Pair) (n : Line)

def raise : Pair :=
  if 8 ≤ n.1.val then { p with slave := p.slave.raise n.index }
  else { p with master := p.master.raise n.index }

/-- The device has raised the line, and the processor has not taken the interrupt. -/
def Pending : Prop :=
  if 8 ≤ n.1.val then n.index ∈ p.slave.requested else n.index ∈ p.master.requested

instance : Decidable (p.Pending n) :=
  inferInstanceAs (Decidable (if 8 ≤ n.1.val then n.index ∈ p.slave.requested
    else n.index ∈ p.master.requested))

/-- The pending line that comes first. -/
def IsNext : Prop := p.Pending n ∧ ∀ m : Line, p.Pending m → n.rank ≤ m.rank

/-- Nothing is in service. -/
def Idle : Prop := p.master.inService = ∅ ∧ p.slave.inService = ∅

/-- One line is in service. -/
def Serves : Prop :=
  p.master.inService = {n.masterIndex} ∧
    p.slave.inService = if 8 ≤ n.1.val then {n.index} else ∅

end Pair

/-- The chip is ready, nothing is masked, and it waits for the end of an interrupt. -/
structure Chip.SetUp (p : Chip) (base cascade : UInt8) : Prop where
  ready : p.phase = .ready
  base_eq : p.base = base
  cascade_eq : p.cascade = cascade
  masked_eq : p.masked = ∅
  autoEoi_eq : p.autoEoi = false

/-- Both controllers are set up with these first vectors. -/
def Pair.SetUp (p : Pair) (m s : UInt8) : Prop := p.master.SetUp m 4 ∧ p.slave.SetUp s 2

section Lines

variable (i j : Fin 8) (h : i ≠ slaveLine) (n : Line)

@[simp] theorem index_ofSlave : (Line.ofSlave j).index = j := by
  revert j
  decide

@[simp] theorem le_ofSlave : 8 ≤ (Line.ofSlave j).1.val := Nat.le_add_right 8 j

theorem rank_ofSlave : (Line.ofSlave j).rank = j + 2 := by
  revert j
  decide

@[simp] theorem index_ofMaster : (Line.ofMaster i h).index = i := by
  revert i
  decide

@[simp] theorem not_le_ofMaster : ¬ 8 ≤ (Line.ofMaster i h).1.val := not_le.mpr i.isLt

theorem rank_ofMaster : (Line.ofMaster i h).rank = if i < 2 then i.val else i.val + 7 := by
  revert i
  decide

theorem index_ne (hn : ¬ 8 ≤ n.1.val) : n.index ≠ slaveLine := by
  revert n
  decide

theorem eq_ofSlave (hn : 8 ≤ n.1.val) : n = Line.ofSlave n.index := by
  revert n
  decide

theorem eq_ofMaster (hn : ¬ 8 ≤ n.1.val) : n = Line.ofMaster n.index (index_ne n hn) := by
  revert n
  decide

theorem exists_eq_line : (∃ i h, n = .ofMaster i h) ∨ ∃ j, n = .ofSlave j := by
  by_cases hn : 8 ≤ n.1.val
  · exact Or.inr ⟨_, eq_ofSlave n hn⟩
  · exact Or.inl ⟨_, index_ne n hn, eq_ofMaster n hn⟩

theorem ofSlave_inj {k : Fin 8} : Line.ofSlave j = .ofSlave k ↔ j = k := by
  refine ⟨fun heq => ?_, congrArg _⟩
  simpa using congrArg Line.index heq

theorem ofMaster_inj {k : Fin 8} {hk : k ≠ slaveLine} :
    Line.ofMaster i h = .ofMaster k hk ↔ i = k := by
  refine ⟨fun heq => ?_, fun heq => ?_⟩
  · simpa using congrArg Line.index heq
  · subst heq
    rfl

theorem ofSlave_ne_ofMaster : Line.ofSlave j ≠ .ofMaster i h := by
  intro heq
  exact not_le_ofMaster i h (heq ▸ le_ofSlave j)

theorem rank_injective : Function.Injective Line.rank := by
  intro m n
  revert m n
  decide

end Lines

namespace Pair

variable {p q : Pair} {m s : UInt8} {n k : Line}

@[simp] theorem pending_ofSlave : p.Pending (.ofSlave j) ↔ j ∈ p.slave.requested := by
  rw [Pending, if_pos (le_ofSlave j), index_ofSlave]

@[simp] theorem pending_ofMaster {h : i ≠ slaveLine} :
    p.Pending (.ofMaster i h) ↔ i ∈ p.master.requested := by
  rw [Pending, if_neg (not_le_ofMaster i h), index_ofMaster]

/-- Some pending line comes first. -/
theorem exists_isNext (h : p.Pending k) : ∃ n, p.IsNext n := by
  obtain ⟨n, hn, hmin⟩ := Finset.exists_min_image (Finset.univ.filter p.Pending) Line.rank
    ⟨k, Finset.mem_filter.mpr ⟨Finset.mem_univ k, h⟩⟩
  exact ⟨n, (Finset.mem_filter.mp hn).2, fun m hm =>
    hmin m (Finset.mem_filter.mpr ⟨Finset.mem_univ m, hm⟩)⟩

end Pair

theorem Chip.SetUp.request_eq {p : Chip} {base cascade : UInt8} (h : p.SetUp base cascade)
    (hidle : p.inService = ∅) : p.request = first p.requested := by
  rw [Chip.request, if_pos h.ready, h.masked_eq, hidle, Finset.sdiff_empty]
  cases first p.requested with
  | none => rfl
  | some i => simp

/-! ## Taking an interrupt -/

/-- The interrupt of a line is taken. -/
def Pair.take (p : Pair) (n : Line) : Pair :=
  if 8 ≤ n.1.val then ⟨p.driven.serve slaveLine, p.slave.serve n.index⟩
  else { p with master := p.driven.serve n.index }

section Taking

variable {p : Pair} {m s v : UInt8} {n k : Line}

theorem mem_driven_slaveLine (h : p.SetUp m s) (hidle : p.Idle) :
    slaveLine ∈ p.driven.requested ↔ ∃ j, p.Pending (.ofSlave j) := by
  have hrequest : p.slave.request.isSome ↔ ∃ j, j ∈ p.slave.requested := by
    rw [h.2.request_eq hidle.2, ← Option.ne_none_iff_isSome, Ne, first_eq_none_iff,
      ← Ne, ← Finset.nonempty_iff_ne_empty]
    rfl
  simp only [Pair.pending_ofSlave, ← hrequest, Pair.driven]
  split_ifs with hslave <;> simp [hslave]

theorem mem_driven_of_ne (hi : i ≠ slaveLine) :
    i ∈ p.driven.requested ↔ p.Pending (.ofMaster i hi) := by
  rw [Pair.pending_ofMaster, Pair.driven]
  split_ifs <;> simp [hi]

theorem driven_request (h : p.SetUp m s) (hidle : p.Idle) :
    p.driven.request = first p.driven.requested := by
  have hup : p.driven.SetUp m 4 := ⟨h.1.ready, h.1.base_eq, h.1.cascade_eq, h.1.masked_eq,
    h.1.autoEoi_eq⟩
  exact hup.request_eq hidle.1

theorem driven_request_of_slave (h : p.SetUp m s) (hidle : p.Idle)
    (hn : p.IsNext (.ofSlave j)) : p.driven.request = some slaveLine := by
  rw [driven_request h hidle, first_eq_some_iff, mem_driven_slaveLine h hidle]
  refine ⟨⟨j, hn.1⟩, fun i hi => ?_⟩
  by_contra hlt
  have hne : i ≠ slaveLine := fun heq => hlt heq.ge
  have hrank := hn.2 _ ((mem_driven_of_ne hne).mp hi)
  have htwo : i < 2 := not_le.mp hlt
  rw [rank_ofSlave, rank_ofMaster, if_pos htwo] at hrank
  rw [Fin.lt_def] at htwo
  have hval : (2 : Fin 8).val = 2 := rfl
  omega

theorem slave_request_of_slave (h : p.SetUp m s) (hidle : p.Idle)
    (hn : p.IsNext (.ofSlave j)) : p.slave.request = some j := by
  rw [h.2.request_eq hidle.2, first_eq_some_iff]
  refine ⟨Pair.pending_ofSlave.mp hn.1, fun k hk => ?_⟩
  have hrank := hn.2 _ (Pair.pending_ofSlave.mpr hk)
  rw [rank_ofSlave, rank_ofSlave] at hrank
  exact Nat.le_of_add_le_add_right hrank

theorem driven_request_of_master (h : p.SetUp m s) (hidle : p.Idle) (hi : i ≠ slaveLine)
    (hn : p.IsNext (.ofMaster i hi)) : p.driven.request = some i := by
  rw [driven_request h hidle, first_eq_some_iff, mem_driven_of_ne hi]
  refine ⟨hn.1, fun k hk => ?_⟩
  have hival : i.val ≠ 2 := fun heq => hi (Fin.ext heq)
  have hval : (2 : Fin 8).val = 2 := rfl
  rw [Fin.le_def]
  by_cases hne : k = slaveLine
  · subst hne
    obtain ⟨j, hj⟩ := (mem_driven_slaveLine h hidle).mp hk
    have hrank := hn.2 _ hj
    have hslave : slaveLine.val = 2 := rfl
    rw [rank_ofSlave, rank_ofMaster] at hrank
    split_ifs at hrank with hlt
    · rw [Fin.lt_def] at hlt
      omega
    · omega
  · have hrank := hn.2 _ ((mem_driven_of_ne hne).mp hk)
    rw [rank_ofMaster, rank_ofMaster] at hrank
    split_ifs at hrank with hlt hlt' hlt'
    · exact hrank
    · rw [Fin.lt_def] at hlt hlt'
      omega
    · omega
    · omega

/-- The pending line that comes first is taken. -/
theorem acknowledge_of_isNext (h : p.SetUp m s) (hidle : p.Idle) (hn : p.IsNext n) :
    p.acknowledge = some (n.vector m s, p.take n) := by
  by_cases hslave : 8 ≤ n.1.val
  · rw [Line.vector, Pair.take, if_pos hslave, if_pos hslave]
    rw [eq_ofSlave n hslave] at hn
    have hbit : p.master.cascade.toNat.testBit slaveLine.val = true := by
      rw [h.1.cascade_eq]
      rfl
    have hid : p.slave.cascade &&& 7 = 2 := by
      rw [h.2.cascade_eq]
      rfl
    rw [Pair.acknowledge, driven_request_of_slave h hidle hn, Option.bind_some, if_pos hbit,
      if_pos ⟨rfl, hid⟩, slave_request_of_slave h hidle hn, Option.map_some, h.2.base_eq]
  · rw [Line.vector, Pair.take, if_neg hslave, if_neg hslave]
    rw [eq_ofMaster n hslave] at hn
    have hbit : ∀ i : Fin 8, i ≠ slaveLine → (4 : UInt8).toNat.testBit i.val = false := by decide
    have hnot : ¬ p.master.cascade.toNat.testBit n.index.val = true := by
      rw [h.1.cascade_eq, hbit _ (index_ne n hslave)]
      exact Bool.false_ne_true
    rw [Pair.acknowledge, driven_request_of_master h hidle (index_ne n hslave) hn,
      Option.bind_some, if_neg hnot, h.1.base_eq]

theorem acknowledge_eq_none (h : p.SetUp m s) (hidle : p.Idle) (hnone : ∀ n, ¬ p.Pending n) :
    p.acknowledge = none := by
  have hrequest : p.driven.request = none := by
    rw [driven_request h hidle, first_eq_none_iff, Finset.eq_empty_iff_forall_notMem]
    intro i hi
    by_cases hne : i = slaveLine
    · subst hne
      obtain ⟨j, hj⟩ := (mem_driven_slaveLine h hidle).mp hi
      exact hnone _ hj
    · exact hnone _ ((mem_driven_of_ne hne).mp hi)
  rw [Pair.acknowledge, hrequest, Option.bind_none]

theorem setUp_take (h : p.SetUp m s) : (p.take n).SetUp m s := by
  have hserve (i : Fin 8) : (p.driven.serve i).SetUp m 4 :=
    ⟨h.1.ready, h.1.base_eq, h.1.cascade_eq, h.1.masked_eq, h.1.autoEoi_eq⟩
  rw [Pair.take]
  split_ifs
  · exact ⟨hserve _, h.2.ready, h.2.base_eq, h.2.cascade_eq, h.2.masked_eq, h.2.autoEoi_eq⟩
  · exact ⟨hserve _, h.2⟩

theorem serves_take (h : p.SetUp m s) (hidle : p.Idle) : (p.take n).Serves n := by
  have hmaster (i : Fin 8) : (p.driven.serve i).inService = {i} := by
    simp [Chip.serve, Pair.driven, h.1.autoEoi_eq, hidle.1]
  have hslave (j : Fin 8) : (p.slave.serve j).inService = {j} := by
    simp [Chip.serve, h.2.autoEoi_eq, hidle.2]
  rw [Pair.take, Pair.Serves, Line.masterIndex]
  split_ifs
  · exact ⟨hmaster _, hslave _⟩
  · exact ⟨hmaster _, hidle.2⟩

@[simp] theorem take_ofSlave :
    p.take (.ofSlave j) = ⟨p.driven.serve slaveLine, p.slave.serve j⟩ := by
  rw [Pair.take, if_pos (le_ofSlave j), index_ofSlave]

@[simp] theorem take_ofMaster (hi : i ≠ slaveLine) :
    p.take (.ofMaster i hi) = { p with master := p.driven.serve i } := by
  rw [Pair.take, if_neg (not_le_ofMaster i hi), index_ofMaster]

/-- The line that is taken is not pending any more, and the others are as they were. -/
theorem pending_take : (p.take n).Pending k ↔ p.Pending k ∧ k ≠ n := by
  have hdriven {l : Fin 8} (hl : l ≠ slaveLine) (i : Fin 8) :
      l ∈ (p.driven.serve i).requested ↔ l ∈ p.master.requested ∧ l ≠ i := by
    have hmem := (mem_driven_of_ne (p := p) hl).trans Pair.pending_ofMaster
    rw [← hmem, and_comm]
    exact Finset.mem_erase
  rcases exists_eq_line n with ⟨i, hi, rfl⟩ | ⟨j, rfl⟩ <;>
    rcases exists_eq_line k with ⟨l, hl, rfl⟩ | ⟨l, rfl⟩
  · rw [take_ofMaster, Pair.pending_ofMaster, Pair.pending_ofMaster, hdriven hl, Ne, Ne,
      ofMaster_inj]
  · simp [ofSlave_ne_ofMaster]
  · rw [take_ofSlave, Pair.pending_ofMaster, Pair.pending_ofMaster, hdriven hl]
    simp [hl, (ofSlave_ne_ofMaster _ _ hl).symm]
  · rw [take_ofSlave, Pair.pending_ofSlave, Pair.pending_ofSlave, Ne, ofSlave_inj, and_comm]
    exact Finset.mem_erase

/-! ## Raising a line, and the end of an interrupt -/

theorem pending_raise : (p.raise n).Pending k ↔ p.Pending k ∨ k = n := by
  rcases exists_eq_line n with ⟨i, hi, rfl⟩ | ⟨j, rfl⟩ <;>
    rcases exists_eq_line k with ⟨l, hl, rfl⟩ | ⟨l, rfl⟩
  · simp [Pair.raise, Chip.raise, ofMaster_inj, or_comm]
  · simp [Pair.raise, ofSlave_ne_ofMaster]
  · simp [Pair.raise, (ofSlave_ne_ofMaster _ _ hl).symm]
  · simp [Pair.raise, Chip.raise, ofSlave_inj, or_comm]

theorem setUp_raise (h : p.SetUp m s) : (p.raise n).SetUp m s := by
  have hraise {p : Chip} {base cascade : UInt8} (h : p.SetUp base cascade) (i : Fin 8) :
      (p.raise i).SetUp base cascade :=
    ⟨h.ready, h.base_eq, h.cascade_eq, h.masked_eq, h.autoEoi_eq⟩
  rw [Pair.raise]
  split_ifs
  · exact ⟨h.1, hraise h.2 _⟩
  · exact ⟨hraise h.1 _, h.2⟩

@[simp] theorem inService_raise : (p.raise n).master.inService = p.master.inService ∧
    (p.raise n).slave.inService = p.slave.inService := by
  rw [Pair.raise]
  split_ifs <;> exact ⟨rfl, rfl⟩

end Taking

/-- The command that ends the interrupt that comes first. -/
def eoi : UInt8 := 0x20

section Ending

variable {p : Pair} {m s : UInt8} {n k : Line} {port : UInt16}

theorem Chip.SetUp.endOfInterrupt {c : Chip} {base cascade : UInt8} (h : c.SetUp base cascade) :
    c.endOfInterrupt.SetUp base cascade :=
  ⟨h.ready, h.base_eq, h.cascade_eq, h.masked_eq, h.autoEoi_eq⟩

theorem Chip.inService_endOfInterrupt {c : Chip} (h : c.inService = {i}) :
    c.endOfInterrupt.inService = ∅ := by
  rw [Chip.endOfInterrupt, h, first_singleton, Option.map_some, Option.getD_some,
    Finset.erase_singleton]

/-- The port is one of those for commands. -/
def IsCommand (port : UInt16) : Prop := port = masterCommand ∨ port = slaveCommand

theorem outb_raise (hport : IsCommand port) :
    (p.raise n).outb port eoi = (p.outb port eoi).raise n := by
  rcases hport with rfl | rfl
  · rw [Pair.outb_masterCommand, Pair.outb_masterCommand, Pair.raise, Pair.raise]
    split_ifs <;> rfl
  · rw [Pair.outb_slaveCommand, Pair.outb_slaveCommand, Pair.raise, Pair.raise]
    split_ifs <;> rfl

theorem pending_outb (hport : IsCommand port) :
    (p.outb port eoi).Pending k ↔ p.Pending k := by
  rcases hport with rfl | rfl <;> rfl

theorem setUp_outb (hport : IsCommand port) (h : p.SetUp m s) :
    (p.outb port eoi).SetUp m s := by
  rcases hport with rfl | rfl
  · exact ⟨h.1.endOfInterrupt, h.2⟩
  · exact ⟨h.1, h.2.endOfInterrupt⟩

/-- The ends of an interrupt leave nothing in service. -/
theorem idle_of_serves (h : p.Serves n) :
    ((if 8 ≤ n.1.val then p.outb slaveCommand eoi else p).outb masterCommand eoi).Idle := by
  obtain ⟨hmaster, hslave⟩ := h
  split_ifs at hslave ⊢
  · exact ⟨Chip.inService_endOfInterrupt hmaster, Chip.inService_endOfInterrupt hslave⟩
  · exact ⟨Chip.inService_endOfInterrupt hmaster, hslave⟩

end Ending

end AviKernel.Pic8259
