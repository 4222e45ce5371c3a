import AviKernel.Drivers.PicDriver

/-!
# Interrupts of devices

The devices raise lines at any moment, the processor takes an interrupt when its flag is set,
and the events of the routine happen one after the other, with other lines raised in between.
Exceptions during a routine are left out.
-/

namespace AviKernel.Interrupts

open X86 Pic8259 PicDriver

structure Machine where
  pics : Pair
  kernel : State
  /-- The interrupted program, or the one that runs. -/
  cpu : Cpu
  /-- What a routine has still to do. -/
  handling : Option (List Event)

inductive Move
  /-- A device raises a line. -/
  | raise (n : Line)
  /-- The program computes. -/
  | program (cpu : Cpu)
  | setIsr (interruptNumber : UInt8) (i context : UInt32)
  | removeIsr (interruptNumber : UInt8)
  /-- The processor takes an interrupt. -/
  | accept (vector : UInt8) (left : Scratch)
  /-- The next event of the routine. -/
  | work
  | iret

namespace Machine

variable (image : Image) (m : Machine)

/-- The interrupt flag is set, and no routine is running. -/
def Open : Prop := m.handling = none ∧ m.cpu.eflags &&& interruptFlag ≠ 0

instance : Decidable m.Open := inferInstanceAs (Decidable (_ ∧ _))

/-- The table is not changed between an interrupt and the call of its handler. -/
def Settled : Prop := m.handling = none ∨ m.handling = some []

instance : Decidable m.Settled := inferInstanceAs (Decidable (_ ∨ _))

/-- The processor takes the interrupt whose vector the controllers give. -/
def accept (vector : UInt8) (left : Scratch) : Option Machine := do
  let (given, pics) ← m.pics.acknowledge
  if given = vector then
    let (cpu, t) ← deliver image m.kernel ⟨vector, 0, m.cpu, left⟩
    some { pics, cpu
           kernel := { m.kernel with isrs := t.isrs }
           handling := some (t.events.drop m.kernel.events.length) }
  else none

def step (m : Machine) : Move → Option Machine
  | .raise n => some { m with pics := m.pics.raise n }
  | .program cpu => if m.handling = none then some { m with cpu } else none
  | .setIsr n i context =>
      if m.Settled then some { m with kernel := isrManagerSetIsr n i context m.kernel } else none
  | .removeIsr n =>
      if m.Settled then some { m with kernel := isrManagerRemoveIsr n m.kernel } else none
  | .accept vector left => if m.Open then m.accept image vector left else none
  | .work =>
      match m.handling with
      | some (e :: es) =>
          some { m with pics := hear m.pics e, kernel := m.kernel.log [e], handling := some es }
      | _ => none
  | .iret => if m.handling = some [] then some { m with handling := none } else none

/-- The kernel after the driver has set up the controllers. -/
def start (p : Pair) (cpu : Cpu) : Machine :=
  { pics := setupWrites.foldl hear p
    kernel := State.boot.log setupWrites
    cpu
    handling := none }

end Machine

/-! ## Histories -/

/-- The registrations of a history. -/
def registrations : List Move → List Action
  | [] => []
  | .setIsr n i context :: ms => .setIsr n i context :: registrations ms
  | .removeIsr n :: ms => .removeIsr n :: registrations ms
  | _ :: ms => registrations ms

/-- The vector that the driver has given to a line. -/
def vectorOf (n : Line) : UInt8 := n.vector masterInterruptsOffset slaveInterruptsOffset

/-- How one move changes whether a line waits. -/
def wait (n : Line) (waiting : Prop) : Move → Prop
  | .raise k => k = n ∨ waiting
  | .accept v _ => v ≠ vectorOf n ∧ waiting
  | _ => waiting

/-- The line has been raised, and its interrupt has not been taken since. -/
def Waiting (ms : List Move) (n : Line) : Prop := ms.foldl (wait n) False

/-- The waiting line that comes first. -/
def First (ms : List Move) (n : Line) : Prop :=
  Waiting ms n ∧ ∀ k, Waiting ms k → n.rank ≤ k.rank

theorem registrations_append (ms ns : List Move) :
    registrations (ms ++ ns) = registrations ms ++ registrations ns := by
  induction ms with
  | nil => rfl
  | cons a ms ih => cases a <;> simp [registrations, ih]

theorem waiting_concat (ms : List Move) (a : Move) (n : Line) :
    Waiting (ms ++ [a]) n = wait n (Waiting ms n) a := by
  rw [Waiting, List.foldl_append]
  rfl

theorem vectorOf_injective : Function.Injective vectorOf := by
  intro m n
  revert m n
  decide

theorem served_vectorOf (n : Line) : Served (vectorOf n) := by
  revert n
  decide

/-! ## What holds along a history -/

/-- The event does nothing to the controllers, or ends an interrupt. -/
def Quiet (e : Event) : Prop := ∀ port value, e = .outb port value → IsCommand port ∧ value = eoi

namespace Machine

/-- What a routine has still to do, if there is one. -/
def rest (m : Machine) : List Event := m.handling.getD []

structure Inv (m : Machine) (ms : List Move) : Prop where
  setUp : m.pics.SetUp masterInterruptsOffset slaveInterruptsOffset
  tracks : Tracks m.kernel (registrations ms)
  quiet : ∀ e ∈ m.rest, Quiet e
  /-- The routine ends what is in service. -/
  ends : (m.rest.foldl hear m.pics).Idle
  pending_iff : ∀ n, m.pics.Pending n ↔ Waiting ms n

end Machine

/-- The events of the routine for a line, with the handler it finds. -/
def routine (n : Line) (r : Option (UInt32 × UInt32)) : List Event :=
  .entered (vectorOf n).toUInt32 0 ::
    ((if 8 ≤ n.1.val then [.outb slaveCommand eoi] else []) ++ [.outb masterCommand eoi] ++
      (r.map fun h => .call h.1 h.2 0).toList)

theorem acknowledgement_vectorOf (n : Line) : acknowledgement (vectorOf n).toUInt32 =
    (if 8 ≤ n.1.val then [.outb slaveCommand eoi] else []) ++ [.outb masterCommand eoi] := by
  revert n
  decide

theorem expected_eq_routine (n : Line) (cpu : Cpu) (left : Scratch)
    (r : Option (UInt32 × UInt32)) : expected ⟨vectorOf n, 0, cpu, left⟩ r = routine n r := by
  have hreported : Delivery.reported ⟨vectorOf n, 0, cpu, left⟩ = 0 := by
    rw [Delivery.reported]
    exact ite_self 0
  cases r with
  | none =>
      rw [expected, hreported, acknowledgement_vectorOf, routine, Option.map_none,
        Option.toList_none, List.append_nil]
  | some r => rw [expected, hreported, acknowledgement_vectorOf, routine]; rfl

section Hearing

variable {p : Pair} {e : Event} {es : List Event} {n k : Line} {m s : UInt8}

theorem hear_raise (he : Quiet e) : hear (p.raise n) e = (hear p e).raise n := by
  cases e with
  | outb port value =>
      obtain ⟨hport, rfl⟩ := he port value rfl
      exact outb_raise hport
  | entered a b => rfl
  | call a b c => rfl

theorem pending_hear (he : Quiet e) : (hear p e).Pending k ↔ p.Pending k := by
  cases e with
  | outb port value =>
      obtain ⟨hport, rfl⟩ := he port value rfl
      exact pending_outb hport
  | entered a b => exact Iff.rfl
  | call a b c => exact Iff.rfl

theorem setUp_hear (he : Quiet e) (h : p.SetUp m s) : (hear p e).SetUp m s := by
  cases e with
  | outb port value =>
      obtain ⟨hport, rfl⟩ := he port value rfl
      exact setUp_outb hport h
  | entered a b => exact h
  | call a b c => exact h

theorem foldl_hear_raise (hes : ∀ e ∈ es, Quiet e) :
    es.foldl hear (p.raise n) = (es.foldl hear p).raise n := by
  induction es generalizing p with
  | nil => rfl
  | cons e es ih =>
      rw [List.foldl_cons, List.foldl_cons, hear_raise (hes e List.mem_cons_self),
        ih fun f hf => hes f (List.mem_cons_of_mem e hf)]

theorem idle_raise : (p.raise n).Idle ↔ p.Idle := by
  rw [Pair.Idle, Pair.Idle, inService_raise.1, inService_raise.2]

theorem quiet_routine (n : Line) (r : Option (UInt32 × UInt32)) : ∀ e ∈ routine n r, Quiet e := by
  intro e he port value heq
  subst heq
  simp only [routine, List.mem_cons, List.mem_append, Option.mem_toList, Option.map_eq_some_iff,
    List.mem_ite_nil_right, List.not_mem_nil, or_false, reduceCtorEq, false_or, and_false,
    exists_false, Event.outb.injEq] at he
  rcases he with ⟨-, rfl, rfl⟩ | ⟨rfl, rfl⟩
  · exact ⟨Or.inr rfl, rfl⟩
  · exact ⟨Or.inl rfl, rfl⟩

theorem idle_routine (r : Option (UInt32 × UInt32)) (h : p.Serves n) :
    ((routine n r).foldl hear p).Idle := by
  have hidle := idle_of_serves h
  have hcall (q : Pair) :
      ((r.map fun h => Event.call h.1 h.2 0).toList).foldl hear q = q := by
    cases r <;> rfl
  rw [routine, List.foldl_cons, List.foldl_append, List.foldl_append, hcall]
  split_ifs at hidle ⊢ <;> exact hidle

end Hearing

namespace Machine

variable {image : Image} {m t : Machine} {ms : List Move} {a : Move} {v : UInt8} {n : Line}
  {left : Scratch} {p : Pair} {cpu : Cpu}

/-- The interrupt of a line is taken, with the handler that is registered. -/
def taken (m : Machine) (n : Line) (r : Option (UInt32 × UInt32)) : Machine :=
  { pics := m.pics.take n
    kernel := m.kernel
    cpu := { m.cpu with es := m.cpu.ds, fs := m.cpu.ds, gs := m.cpu.ds }
    handling := some (routine n r) }

theorem rest_of_open (h : m.Open) : m.rest = [] := by
  rw [rest, h.1]
  rfl

theorem rest_of_settled (h : m.Settled) : m.rest = [] := by
  rcases h with h | h
  · rw [rest, h]
    rfl
  · rw [rest, h]
    rfl

theorem Inv.idle (h : m.Inv ms) (hrest : m.rest = []) : m.pics.Idle := by
  have hends := h.ends
  rwa [hrest] at hends

theorem Inv.isNext_iff (h : m.Inv ms) : m.pics.IsNext n ↔ First ms n := by
  simp only [Pair.IsNext, First, h.pending_iff]

theorem accept_of_first (h : m.Inv ms) (hopen : m.Open) (hn : First ms n) :
    m.accept image v left = if vectorOf n = v then
      some (m.taken n (registered v (registrations ms))) else none := by
  have hack := acknowledge_of_isNext h.setUp (h.idle (rest_of_open hopen)) (h.isNext_iff.mpr hn)
  rw [accept, hack]
  by_cases hv : vectorOf n = v
  · subst hv
    have hd : deliver image m.kernel ⟨vectorOf n, 0, m.cpu, left⟩ = _ :=
      (dispatched_iff h.tracks).mpr (served_vectorOf n)
    rw [if_pos rfl]
    have hgiven : n.vector masterInterruptsOffset slaveInterruptsOffset = vectorOf n := rfl
    simp only [Option.bind_eq_bind, Option.bind_some, hgiven, hd, if_true, expected_eq_routine,
      log_events, log_isrs, List.drop_left']
    rfl
  · rw [if_neg hv]
    exact if_neg hv

theorem accept_eq_none (h : m.Inv ms) (hopen : m.Open) (hnone : ∀ n, ¬ Waiting ms n) :
    m.accept image v left = none := by
  have hack := acknowledge_eq_none h.setUp (h.idle (rest_of_open hopen))
    fun n hn => hnone n ((h.pending_iff n).mp hn)
  rw [accept, hack]
  rfl

theorem accept_eq_some_iff (h : m.Inv ms) (hopen : m.Open) :
    m.accept image v left = some t ↔
      ∃ n, First ms n ∧ v = vectorOf n ∧ t = m.taken n (registered v (registrations ms)) := by
  constructor
  · intro ht
    by_cases hwait : ∃ k, Waiting ms k
    · obtain ⟨k, hk⟩ := hwait
      obtain ⟨n, hn⟩ := Pair.exists_isNext ((h.pending_iff k).mpr hk)
      have hfirst := h.isNext_iff.mp hn
      rw [accept_of_first h hopen hfirst] at ht
      split_ifs at ht with hv
      exact ⟨n, hfirst, hv.symm, (Option.some.inj ht).symm⟩
    · rw [accept_eq_none h hopen (not_exists.mp hwait)] at ht
      cases ht
  · rintro ⟨n, hn, rfl, rfl⟩
    rw [accept_of_first h hopen hn, if_pos rfl]

/-! ## One move -/

theorem Inv.taken (h : m.Inv ms) (hopen : m.Open) (r : Option (UInt32 × UInt32)) :
    (m.taken n r).Inv (ms ++ [.accept (vectorOf n) left]) where
  setUp := setUp_take h.setUp
  tracks := by
    rw [registrations_append]
    exact (List.append_nil _).symm ▸ h.tracks
  quiet := quiet_routine n r
  ends := idle_routine r (serves_take h.setUp (h.idle (rest_of_open hopen)))
  pending_iff k := by
    have htake : (m.taken n r).pics.Pending k ↔ m.pics.Pending k ∧ k ≠ n := pending_take
    rw [waiting_concat, wait, htake, h.pending_iff, and_comm]
    refine and_congr_left fun _ => not_congr ⟨fun heq => heq ▸ rfl, fun heq => ?_⟩
    exact (vectorOf_injective heq).symm

/-- A move that registers nothing. -/
theorem tracks_concat {k : State} (ha : registrations [a] = []) (h : Tracks k (registrations ms)) :
    Tracks k (registrations (ms ++ [a])) := by
  rw [registrations_append, ha, List.append_nil]
  exact h

/-- A registration leaves the controllers and the routine alone. -/
theorem Inv.register {k : State} (h : m.Inv ms)
    (htracks : Tracks k (registrations ms ++ registrations [a]))
    (hwait : ∀ n waiting, wait n waiting a = waiting) :
    ({ m with kernel := k } : Machine).Inv (ms ++ [a]) where
  setUp := h.setUp
  tracks := by
    rw [registrations_append]
    exact htracks
  quiet := h.quiet
  ends := h.ends
  pending_iff n := by
    rw [waiting_concat, hwait]
    exact h.pending_iff n

theorem Inv.work {e : Event} {es : List Event} (h : m.Inv ms)
    (hhandling : m.handling = some (e :: es)) :
    ({ m with pics := hear m.pics e, kernel := m.kernel.log [e], handling := some es } :
      Machine).Inv (ms ++ [.work]) := by
  have hrest : m.rest = e :: es := by
    rw [rest, hhandling]
    rfl
  have hquiet := h.quiet
  have hends := h.ends
  rw [hrest] at hquiet hends
  have he := hquiet e List.mem_cons_self
  refine ⟨setUp_hear he h.setUp, tracks_concat rfl ⟨h.tracks.1, h.tracks.2⟩,
    fun f hf => hquiet f (List.mem_cons_of_mem _ hf), hends, fun k => ?_⟩
  rw [waiting_concat]
  exact (pending_hear he).trans (h.pending_iff k)

theorem Inv.step (h : m.Inv ms) (hstep : m.step image a = some t) : t.Inv (ms ++ [a]) := by
  cases a with
  | raise n =>
      cases hstep
      refine ⟨setUp_raise h.setUp, tracks_concat rfl h.tracks, h.quiet, ?_, fun k => ?_⟩
      · have hends : ((m.rest.foldl hear m.pics).raise n).Idle := idle_raise.mpr h.ends
        rwa [← foldl_hear_raise h.quiet] at hends
      · rw [waiting_concat, wait, or_comm, ← h.pending_iff, @eq_comm _ n]
        exact pending_raise
  | program cpu =>
      obtain ⟨hhandling, heq⟩ := Option.ite_none_right_eq_some.mp hstep
      cases heq
      refine ⟨h.setUp, tracks_concat rfl h.tracks, h.quiet, h.ends, fun k => ?_⟩
      rw [waiting_concat]
      exact h.pending_iff k
  | setIsr v i context =>
      obtain ⟨hsettled, heq⟩ := Option.ite_none_right_eq_some.mp hstep
      cases heq
      have hset : Interrupts.step image m.kernel (.setIsr v i context) = some _ := rfl
      exact h.register (h.tracks.step hset) fun _ _ => rfl
  | removeIsr v =>
      obtain ⟨hsettled, heq⟩ := Option.ite_none_right_eq_some.mp hstep
      cases heq
      have hremove : Interrupts.step image m.kernel (.removeIsr v) = some _ := rfl
      exact h.register (h.tracks.step hremove) fun _ _ => rfl
  | accept v left =>
      obtain ⟨hopen, heq⟩ := Option.ite_none_right_eq_some.mp hstep
      obtain ⟨n, -, rfl, rfl⟩ := (accept_eq_some_iff h hopen).mp heq
      exact h.taken hopen _
  | work =>
      rw [Machine.step] at hstep
      split at hstep
      next e es hhandling =>
        cases hstep
        exact h.work hhandling
      next => cases hstep
  | iret =>
      obtain ⟨hhandling, heq⟩ := Option.ite_none_right_eq_some.mp hstep
      cases heq
      refine ⟨h.setUp, tracks_concat rfl h.tracks, fun e he => absurd he List.not_mem_nil,
        h.idle (rest_of_settled (Or.inr hhandling)), fun k => ?_⟩
      rw [waiting_concat]
      exact h.pending_iff k

theorem inv_start (h : p.Idle) : (start p cpu).Inv [] where
  setUp := setUp_setupWrites p
  tracks := ⟨tracks_boot.1, tracks_boot.2⟩
  quiet := fun _ he => absurd he List.not_mem_nil
  ends := (idle_setupWrites p).mpr h
  pending_iff n := iff_of_false (not_pending_setupWrites p n) not_false

/-! ## Every history -/

/-- The controllers in the middle of an initialisation, with everything masked. -/
def somePics : Pair := ⟨⟨lines 0x03, ∅, lines 0xFF, 8, 0, true, .icw2 true false⟩,
  ⟨lines 0x08, ∅, lines 0xFF, 0x70, 0, false, .ready⟩⟩

def someCpu : Cpu := ⟨0, 0, 0, 0, 0, 0, 0, 0x10, 0x10, 0x10, 0x10, 0x8, 0, 0x200, 0, []⟩

/-- A handler for the keyboard is registered, a disk raises its line, and a key is pressed. -/
def someMoves : List Move :=
  [.setIsr 33 0x500 7, .raise (.ofSlave ⟨6, by decide⟩), .raise ⟨⟨1, by decide⟩, by decide⟩]

theorem inv_of_run (hp : p.Idle) (hrun : run (step image) (start p cpu) ms = some m) :
    m.Inv ms :=
  run_history (J := Inv) (fun _ _ _ _ h hstep => h.step hstep) (inv_start hp) hrun

/-- No interrupt is lost and none is made up: a line is pending exactly when it has been raised
and its interrupt has not been taken since.  Outside of a routine nothing is in service. -/
theorem pending_of_run (hp : p.Idle) (hrun : run (step image) (start p cpu) ms = some m) :
    m.pics.SetUp masterInterruptsOffset slaveInterruptsOffset ∧
      (m.handling = none → m.pics.Idle) ∧ ∀ n, m.pics.Pending n ↔ Waiting ms n := by
  have h := inv_of_run hp hrun
  refine ⟨h.setUp, fun hnone => h.idle ?_, h.pending_iff⟩
  rw [rest, hnone]
  rfl

theorem pending_of_run_keyPress :
    ∃ m, run (step someImage) (start somePics someCpu) someMoves = some m ∧
      m.pics.SetUp masterInterruptsOffset slaveInterruptsOffset ∧
      (m.handling = none → m.pics.Idle) ∧ ∀ n, m.pics.Pending n ↔ Waiting someMoves n :=
  have hrun : run (step someImage) (start somePics someCpu) someMoves = some _ := rfl
  ⟨_, hrun, pending_of_run ⟨rfl, rfl⟩ hrun⟩

/-- The interrupt that the processor takes is the one of the waiting line that comes first, and
the routine ends it and calls the handler that is registered at that moment. -/
theorem accept_of_run (hp : p.Idle) (hrun : run (step image) (start p cpu) ms = some m)
    (hopen : m.Open) (v : UInt8) (left : Scratch) (t : Machine) :
    m.step image (.accept v left) = some t ↔
      ∃ n, First ms n ∧ v = vectorOf n ∧ t = m.taken n (registered v (registrations ms)) := by
  rw [Machine.step, if_pos hopen]
  exact accept_eq_some_iff (inv_of_run hp hrun) hopen

theorem accept_of_run_keyPress :
    ∃ m, run (step someImage) (start somePics someCpu) someMoves = some m ∧
      ∀ left t, m.step someImage (.accept 33 left) = some t ↔ ∃ n, First someMoves n ∧
        33 = vectorOf n ∧ t = m.taken n (registered 33 (registrations someMoves)) :=
  have hrun : run (step someImage) (start somePics someCpu) someMoves = some _ := rfl
  ⟨_, hrun, accept_of_run ⟨rfl, rfl⟩ hrun (by decide) 33⟩

/-! ## All waiting lines are served -/

end Machine

/-- Only the processor and the routine move. -/
def Move.IsService : Move → Prop
  | .accept _ _ | .work | .iret => True
  | .raise _ | .program _ | .setIsr _ _ _ | .removeIsr _ => False

theorem length_routine_le (n : Line) (r : Option (UInt32 × UInt32)) : (routine n r).length ≤ 4 := by
  rw [routine]
  cases r <;> split_ifs <;> simp

theorem registrations_of_service {ns : List Move} (h : ∀ a ∈ ns, a.IsService) :
    registrations ns = [] := by
  induction ns with
  | nil => rfl
  | cons a ns ih =>
      have hrest := ih fun b hb => h b (List.mem_cons_of_mem a hb)
      have ha := h a List.mem_cons_self
      cases a with
      | accept v left => exact hrest
      | work => exact hrest
      | iret => exact hrest
      | raise n => exact ha.elim
      | program cpu => exact ha.elim
      | setIsr n i context => exact ha.elim
      | removeIsr n => exact ha.elim

namespace Machine

variable {image : Image} {m t : Machine} {ms : List Move} {n : Line} {p : Pair} {cpu : Cpu}

theorem run_work {es : List Event} (h : m.handling = some es) :
    run (step image) m (List.replicate es.length .work) = some
      { m with pics := es.foldl hear m.pics, kernel := m.kernel.log es, handling := some [] } := by
  induction es generalizing m with
  | nil =>
      rw [List.length_nil, List.replicate_zero, run_nil, ← h]
      simp [State.log]
  | cons e es ih =>
      have hstep : step image m .work = some
          { m with pics := hear m.pics e, kernel := m.kernel.log [e], handling := some es } := by
        rw [step, h]
      rw [List.length_cons, List.replicate_succ, run_cons, hstep, Option.bind_some, ih rfl]
      simp

/-- The moves of one interrupt. -/
def service (v : UInt8) (left : Scratch) (k : ℕ) : List Move :=
  .accept v left :: (List.replicate k .work ++ [.iret])

theorem isService_service {v : UInt8} {left : Scratch} {k : ℕ} :
    ∀ a ∈ service v left k, a.IsService := by
  intro a ha
  rcases List.mem_cons.mp ha with rfl | ha
  · trivial
  · rcases List.mem_append.mp ha with ha | ha
    · rw [List.eq_of_mem_replicate ha]
      trivial
    · rw [List.mem_singleton.mp ha]
      trivial

theorem waiting_service {v : UInt8} {left : Scratch} {k : ℕ} {j : Line} :
    Waiting (ms ++ service v left k) j ↔ v ≠ vectorOf j ∧ Waiting ms j := by
  have hwork (w : Prop) : (List.replicate k Move.work ++ [Move.iret]).foldl (wait j) w = w := by
    rw [List.foldl_append]
    induction k with
    | zero => rfl
    | succ k ih => exact ih
  rw [Waiting, List.foldl_append, service, List.foldl_cons, hwork]
  rfl

theorem inv_append {ns : List Move} (h : m.Inv ms) (hrun : run (step image) m ns = some t) :
    t.Inv (ms ++ ns) := by
  refine run_history (J := fun t bs => t.Inv (ms ++ bs)) (fun t u bs a ht hstep => ?_) ?_ hrun
  · rw [← List.append_assoc]
    exact ht.step hstep
  · rw [List.append_nil]
    exact h

/-- The interrupt of the line that comes first is taken, and its routine runs to the end. -/
theorem run_service (image : Image) (h : m.Inv ms) (hopen : m.Open) (hn : First ms n) (left : Scratch)
    {r : Option (UInt32 × UInt32)} (hr : r = registered (vectorOf n) (registrations ms)) :
    ∃ t, run (step image) m (service (vectorOf n) left (routine n r).length) = some t ∧
      t.Open ∧ t.kernel = m.kernel.log (routine n r) := by
  have haccept : step image m (.accept (vectorOf n) left) = some (m.taken n r) := by
    rw [step, if_pos hopen, accept_of_first h hopen hn, if_pos rfl, hr]
  have hwork : run (step image) (m.taken n r) _ = some _ := run_work rfl
  refine ⟨{ m.taken n r with
    pics := (routine n r).foldl hear (m.taken n r).pics
    kernel := m.kernel.log (routine n r)
    handling := none }, ?_, ⟨rfl, hopen.2⟩, rfl⟩
  rw [service, run_cons, haccept, Option.bind_some, run_append, hwork, Option.bind_some]
  rfl

/-- Some moves serve the waiting lines in their order, each once, with a bound on the moves. -/
structure Drains (image : Image) (m : Machine) (ms : List Move) (lines : List Line)
    (ns : List Move) (t : Machine) : Prop where
  run_eq : run (step image) m ns = some t
  all_service : ∀ a ∈ ns, a.IsService
  length_le : ns.length ≤ 6 * lines.length
  sorted : lines.Pairwise fun j k => j.rank < k.rank
  mem_iff : ∀ n, n ∈ lines ↔ Waiting ms n
  drained : ∀ n, ¬ Waiting (ms ++ ns) n
  isOpen : t.Open
  events_eq : t.kernel.events = m.kernel.events ++ lines.flatMap fun n =>
    routine n (registered (vectorOf n) (registrations ms))

theorem drains_nil (hopen : m.Open) (hnone : ∀ n, ¬ Waiting ms n) :
    Drains image m ms [] [] m where
  run_eq := rfl
  all_service := fun _ ha => absurd ha List.not_mem_nil
  length_le := le_rfl
  sorted := List.Pairwise.nil
  mem_iff n := iff_of_false List.not_mem_nil (hnone n)
  drained n := by
    rw [List.append_nil]
    exact hnone n
  isOpen := hopen
  events_eq := (List.append_nil _).symm

theorem length_service (v : UInt8) (left : Scratch) (k : ℕ) :
    (service v left k).length = k + 2 := by
  simp [service]

/-- The line that comes first is served before the others. -/
theorem drains_cons {u : Machine} {ns : List Move} {lines : List Line} {left : Scratch} {k : ℕ}
    {r : Option (UInt32 × UInt32)} (hn : First ms n)
    (hr : r = registered (vectorOf n) (registrations ms)) (hk : k ≤ 4)
    (hu : run (step image) m (service (vectorOf n) left k) = some u)
    (hkernel : u.kernel = m.kernel.log (routine n r))
    (h : Drains image u (ms ++ service (vectorOf n) left k) lines ns t) :
    Drains image m ms (n :: lines) (service (vectorOf n) left k ++ ns) t := by
  have hmem (j : Line) : j ∈ lines ↔ j ≠ n ∧ Waiting ms j := by
    rw [h.mem_iff, waiting_service, vectorOf_injective.ne_iff, ne_comm]
  refine ⟨?_, ?_, ?_, ?_, fun j => ?_, ?_, h.isOpen, ?_⟩
  · rw [run_append, hu, Option.bind_some, h.run_eq]
  · intro a ha
    exact (List.mem_append.mp ha).elim (isService_service a) (h.all_service a)
  · rw [List.length_append, length_service, List.length_cons]
    have hle := h.length_le
    omega
  · refine List.pairwise_cons.mpr ⟨fun j hj => ?_, h.sorted⟩
    obtain ⟨hne, hwait⟩ := (hmem j).mp hj
    exact lt_of_le_of_ne (hn.2 j hwait) fun heq => hne (rank_injective heq).symm
  · rw [List.mem_cons, hmem]
    by_cases hj : j = n
    · simp [hj, hn.1]
    · simp [hj]
  · rw [← List.append_assoc]
    exact h.drained
  · have hreg : registrations (ms ++ service (vectorOf n) left k) = registrations ms := by
      rw [registrations_append, registrations_of_service isService_service, List.append_nil]
    rw [h.events_eq, hreg, hkernel, log_events, List.flatMap_cons, List.append_assoc, hr]

theorem exists_drains (c : ℕ) (h : m.Inv ms) (hopen : m.Open)
    (hc : (Finset.univ.filter m.pics.Pending).card = c) :
    ∃ lines ns t, Drains image m ms lines ns t := by
  induction c generalizing m ms with
  | zero =>
      refine ⟨[], [], m, drains_nil hopen fun n hn => ?_⟩
      have hmem : n ∈ Finset.univ.filter m.pics.Pending :=
        Finset.mem_filter.mpr ⟨Finset.mem_univ n, (h.pending_iff n).mpr hn⟩
      rw [Finset.card_eq_zero.mp hc] at hmem
      exact Finset.notMem_empty n hmem
  | succ c ih =>
      have hpos : 0 < (Finset.univ.filter m.pics.Pending).card := by omega
      obtain ⟨k, hk⟩ := Finset.card_pos.mp hpos
      obtain ⟨n, hnext⟩ := Pair.exists_isNext (Finset.mem_filter.mp hk).2
      have hn := h.isNext_iff.mp hnext
      obtain ⟨u, hu, huopen, hkernel⟩ := run_service image h hopen hn ⟨0, 0, 0, 0⟩ rfl
      have hinv := inv_append h hu
      have hrest : Finset.univ.filter u.pics.Pending =
          (Finset.univ.filter m.pics.Pending).erase n := by
        ext j
        rw [Finset.mem_erase, Finset.mem_filter, Finset.mem_filter, hinv.pending_iff,
          waiting_service, vectorOf_injective.ne_iff, ne_comm, h.pending_iff]
        tauto
      have hcard : (Finset.univ.filter u.pics.Pending).card = c := by
        rw [hrest, Finset.card_erase_of_mem
          (Finset.mem_filter.mpr ⟨Finset.mem_univ n, hnext.1⟩), hc]
        rfl
      obtain ⟨lines, ns, t, hd⟩ := ih hinv huopen hcard
      exact ⟨n :: lines, _, t, drains_cons hn rfl (length_routine_le n _) hu hkernel hd⟩

/-- From every state outside of a routine with the flag set, the waiting lines are served in
their order, each with the handler registered for it, in at most six moves for each. -/
theorem drains_of_run (hp : p.Idle) (hrun : run (step image) (start p cpu) ms = some m)
    (hopen : m.Open) : ∃ lines ns t, Drains image m ms lines ns t :=
  exists_drains _ (inv_of_run hp hrun) hopen rfl

theorem drains_of_run_keyPress :
    ∃ m, run (step someImage) (start somePics someCpu) someMoves = some m ∧
      ∃ lines ns t, Drains someImage m someMoves lines ns t :=
  have hrun : run (step someImage) (start somePics someCpu) someMoves = some _ := rfl
  ⟨_, hrun, drains_of_run ⟨rfl, rfl⟩ hrun (by decide)⟩

end Machine

end AviKernel.Interrupts
