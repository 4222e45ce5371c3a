import AviKernel.Interrupts.IsrManager

/-!
# The dispatch of interrupts

A history registers and removes handlers and delivers interrupts.  The stubs
push their number as a byte with a sign, and four exceptions with an error code
have a stub that pushes another one.  Away from these vectors every delivery is
dispatched and returned from.
-/

namespace AviKernel.Interrupts

open X86

/-! ## The table of the processor -/

def interruptInUse : UInt8 := 0b10000000

def privilegeKernel : UInt8 := 0b00000000

def idtSize : ℕ := 256

structure IdtDescriptor where
  handlerLower : UInt16
  selector : UInt16
  zero : UInt8
  flags : UInt8
  handlerHigher : UInt16

def putDescriptor (handler : UInt32) (selector : UInt16) (flags : UInt8) : IdtDescriptor :=
  { handlerLower := (handler &&& 0xFFFF).toUInt16
    handlerHigher := ((handler >>> 16) &&& 0xFFFF).toUInt16
    selector
    zero := 0
    flags := flags ||| 0b00001110 }

/-- The address that the processor reads. -/
def IdtDescriptor.offset (g : IdtDescriptor) : UInt32 :=
  g.handlerLower.toUInt32 ||| g.handlerHigher.toUInt32 <<< 16

/-- A present interrupt gate of 32 bits. -/
def IdtDescriptor.IsGate (g : IdtDescriptor) : Prop := g.flags &&& 0b10011111 = 0b10001110

instance (g : IdtDescriptor) : Decidable g.IsGate := inferInstanceAs (Decidable (_ = _))

/-- Where the linker has put the stubs. -/
structure Image where
  addr : UInt8 → UInt32
  code : UInt32 → List Instr
  linked : ∀ v, code (addr v) = isrStub v

variable {image : Image}

def putDescriptors (image : Image) : List IdtDescriptor :=
  (List.range idtSize).map fun v =>
    putDescriptor (image.addr (UInt8.ofNat v)) 0x8 (interruptInUse ||| privilegeKernel)

theorem putDescriptor_offset (handler : UInt32) (selector : UInt16) (flags : UInt8) :
    (putDescriptor handler selector flags).offset = handler := by
  have hlow : (handler &&& 0xFFFF).toUInt16.toUInt32.toNat = handler.toNat % 2 ^ 16 := by
    have hmask : (handler &&& 0xFFFF).toNat = handler.toNat % 2 ^ 16 :=
      Nat.and_two_pow_sub_one_eq_mod _ 16
    rw [UInt16.toNat_toUInt32, UInt32.toNat_toUInt16, hmask, Nat.mod_mod]
  have hhigh : (((handler >>> 16) &&& 0xFFFF).toUInt16.toUInt32 <<< 16).toNat =
      (handler.toNat / 2 ^ 16) <<< 16 := by
    have hmask : ((handler >>> 16) &&& 0xFFFF).toNat = handler.toNat / 2 ^ 16 % 2 ^ 16 := by
      rw [← Nat.shiftRight_eq_div_pow]
      exact Nat.and_two_pow_sub_one_eq_mod _ 16
    have hshift : (16 : UInt32).toNat % 32 = 16 := rfl
    have hlt := handler.toNat_lt
    rw [UInt32.toNat_shiftLeft, UInt16.toNat_toUInt32, UInt32.toNat_toUInt16, hmask, hshift,
      Nat.shiftLeft_eq, Nat.shiftLeft_eq]
    omega
  apply UInt32.toNat_inj.mp
  rw [putDescriptor, IdtDescriptor.offset, UInt32.toNat_or, hlow, hhigh, Nat.or_comm,
    ← Nat.shiftLeft_add_eq_or_of_lt (Nat.mod_lt _ (by decide)), Nat.shiftLeft_eq]
  exact Nat.div_add_mod' _ _

theorem putDescriptors_get (v : UInt8) : (putDescriptors image)[v.toNat]? =
    some (putDescriptor (image.addr v) 0x8 (interruptInUse ||| privilegeKernel)) := by
  have hlt : v.toNat < idtSize := v.toNat_lt
  rw [putDescriptors, List.getElem?_map, List.getElem?_range hlt, Option.map_some,
    UInt8.ofNat_toNat]

/-! ## Deliveries -/

/-- The vectors for which the processor pushes an error code. -/
def errCodeVectors : List UInt8 := [8, 10, 11, 12, 13, 14, 17, 21, 29, 30]

structure Delivery where
  vector : UInt8
  /-- The error code, where there is one. -/
  errorCode : UInt32
  /-- The interrupted program. -/
  cpu : Cpu
  left : Scratch

/-- What the processor pushes after the instruction pointer. -/
def Delivery.pushed (d : Delivery) : Option UInt32 :=
  if d.vector ∈ errCodeVectors then some d.errorCode else none

def deliver (image : Image) (s : State) (d : Delivery) : Option (Cpu × State) :=
  (putDescriptors image)[d.vector.toNat]?.bind fun g =>
    if g.IsGate then
      run (exec callee d.left) (d.cpu.interrupt g.selector g.offset d.pushed, s)
        (image.code g.offset)
    else none

inductive Action
  | setIsr (interruptNumber : UInt8) (i context : UInt32)
  | removeIsr (interruptNumber : UInt8)
  | deliver (d : Delivery)

def step (image : Image) (s : State) : Action → Option State
  | .setIsr n i context => some (isrManagerSetIsr n i context s)
  | .removeIsr n => some (isrManagerRemoveIsr n s)
  | .deliver d => (deliver image s d).map Prod.snd

theorem deliver_eq (s : State) (d : Delivery) : deliver image s d =
    run (exec callee d.left) (d.cpu.interrupt 0x8 (image.addr d.vector) d.pushed, s)
      (isrStub d.vector) := by
  have hgate : (putDescriptor (image.addr d.vector) 0x8
      (interruptInUse ||| privilegeKernel)).IsGate := by
    have hflags : ((interruptInUse ||| privilegeKernel) ||| 0b00001110) &&& 0b10011111 =
        (0b10001110 : UInt8) := by decide
    exact hflags
  rw [deliver, putDescriptors_get, Option.bind_some, if_pos hgate, putDescriptor_offset,
    image.linked]
  rfl

/-! ## What a delivery does -/

/-- The exceptions with an error code whose stub does not know of it. -/
def missedErrCodes : List UInt8 := [17, 21, 29, 30]

theorem mem_errCodeVectors {v : UInt8} :
    v ∈ errCodeVectors ↔ v ∈ errCodeStubs ∨ v ∈ missedErrCodes := by
  simp [errCodeVectors, errCodeStubs, missedErrCodes, or_assoc]

theorem notMem_missedErrCodes {v : UInt8} (h : v ∈ errCodeStubs) : v ∉ missedErrCodes := by
  revert v
  decide +kernel

namespace Delivery

variable (d : Delivery)

/-- The error code that a handler should be told. -/
def reported : UInt32 := if d.vector ∈ errCodeVectors then d.errorCode else 0

/-- The interrupted program goes on; the data segments are those of `ds`. -/
def resumed : Cpu := { d.cpu with es := d.cpu.ds, fs := d.cpu.ds, gs := d.cpu.ds }

/-- The error code is taken for the instruction pointer. -/
def derailed : Cpu :=
  returned d.cpu d.errorCode d.cpu.eip d.cpu.cs.toUInt32 (d.cpu.eflags :: d.cpu.stack)

end Delivery

theorem deliver_of_notMem {s : State} {d : Delivery} (h : d.vector ∉ missedErrCodes) :
    deliver image s d = s.isrs[(signExtend8 d.vector).toNat]?.map fun holder =>
      (d.resumed, s.log (reports (signExtend8 d.vector) d.reported holder)) := by
  have hback (offset : UInt32) : returned (d.cpu.interrupt 0x8 offset d.pushed) d.cpu.eip
      d.cpu.cs.toUInt32 d.cpu.eflags d.cpu.stack = d.resumed := by
    rw [returned, UInt16.toUInt16_toUInt32]
    rfl
  by_cases hstub : d.vector ∈ errCodeStubs
  · have hmem : d.vector ∈ errCodeVectors := mem_errCodeVectors.mpr (.inl hstub)
    have hstack : (d.cpu.interrupt 0x8 (image.addr d.vector) d.pushed).stack =
        d.errorCode :: d.cpu.eip :: d.cpu.cs.toUInt32 :: d.cpu.eflags :: d.cpu.stack := by
      rw [Delivery.pushed, if_pos hmem]
      rfl
    rw [deliver_eq, isrStub, if_pos hstub, run_callee_isrErrCode _ hstack, hback,
      Delivery.reported, if_pos hmem]
  · have hmem : d.vector ∉ errCodeVectors := fun hmem =>
      (mem_errCodeVectors.mp hmem).elim hstub h
    have hstack : (d.cpu.interrupt 0x8 (image.addr d.vector) d.pushed).stack =
        d.cpu.eip :: d.cpu.cs.toUInt32 :: d.cpu.eflags :: d.cpu.stack := by
      rw [Delivery.pushed, if_neg hmem]
      rfl
    rw [deliver_eq, isrStub, if_neg hstub, run_callee_isrNoErrCode _ hstack, hback,
      Delivery.reported, if_neg hmem]

theorem deliver_of_mem {s : State} {d : Delivery} (h : d.vector ∈ missedErrCodes) :
    deliver image s d = s.isrs[(signExtend8 d.vector).toNat]?.map fun holder =>
      (d.derailed, s.log (reports (signExtend8 d.vector) 0 holder)) := by
  have hstub : d.vector ∉ errCodeStubs := fun hstub => notMem_missedErrCodes hstub h
  have hmem : d.vector ∈ errCodeVectors := mem_errCodeVectors.mpr (.inr h)
  have hstack : (d.cpu.interrupt 0x8 (image.addr d.vector) d.pushed).stack =
      d.errorCode :: d.cpu.eip :: d.cpu.cs.toUInt32 :: d.cpu.eflags :: d.cpu.stack := by
    rw [Delivery.pushed, if_pos hmem]
    rfl
  rw [deliver_eq, isrStub, if_neg hstub, run_callee_isrNoErrCode _ hstack]
  rfl

/-! ## Histories -/

/-- How one action changes the handler of a vector. -/
def track (v : UInt8) (r : Option (UInt32 × UInt32)) : Action → Option (UInt32 × UInt32)
  | .setIsr n i context => if n = v then some (i, context) else r
  | .removeIsr n => if n = v then none else r
  | .deliver _ => r

/-- The handler set last for a vector and not removed since, with its context. -/
def registered (v : UInt8) (as : List Action) : Option (UInt32 × UInt32) :=
  as.foldl (track v) none

@[simp] theorem registered_nil (v : UInt8) : registered v [] = none := rfl

@[simp] theorem registered_concat (v : UInt8) (as : List Action) (a : Action) :
    registered v (as ++ [a]) = track v (registered v as) a := by
  rw [registered, List.foldl_append]
  rfl

/-- The entry of the table for a registration. -/
def holderOf : Option (UInt32 × UInt32) → IsrHolder
  | none => ⟨0, 0, false⟩
  | some (i, context) => ⟨i, context, true⟩

/-- The table holds what a history has registered. -/
structure Tracks (s : State) (as : List Action) : Prop where
  length_isrs : s.isrs.length = numberOfInterrupts
  isrs_get : ∀ v : UInt8, s.isrs[v.toNat]? = some (holderOf (registered v as))

theorem tracks_boot : Tracks State.boot [] where
  length_isrs := List.length_replicate
  isrs_get v := List.getElem?_replicate_of_lt v.toNat_lt

theorem get_set {s : State} {as : List Action} (h : Tracks s as) (n v : UInt8)
    (holder : IsrHolder) : (s.isrs.set n.toNat holder)[v.toNat]? =
      some (if n = v then holder else holderOf (registered v as)) := by
  by_cases hv : n = v
  · have hlt : v.toNat < s.isrs.length := by
      rw [h.length_isrs]
      exact v.toNat_lt
    rw [if_pos hv, hv, List.getElem?_set_self hlt]
  · have hne : n.toNat ≠ v.toNat := fun heq => hv (UInt8.toNat_inj.mp heq)
    rw [if_neg hv, List.getElem?_set_ne hne, h.isrs_get]

theorem isrs_of_deliver {s : State} {d : Delivery} {c : Cpu} {t : State}
    (h : deliver image s d = some (c, t)) : t.isrs = s.isrs := by
  by_cases hmem : d.vector ∈ missedErrCodes
  · rw [deliver_of_mem hmem] at h
    obtain ⟨holder, -, heq⟩ := Option.map_eq_some_iff.mp h
    cases heq
    rfl
  · rw [deliver_of_notMem hmem] at h
    obtain ⟨holder, -, heq⟩ := Option.map_eq_some_iff.mp h
    cases heq
    rfl

/-- An action that puts a new entry in one place of the table. -/
theorem Tracks.set {s : State} {as : List Action} {a : Action} {n : UInt8}
    {r : Option (UInt32 × UInt32)} (h : Tracks s as)
    (ha : ∀ v, track v (registered v as) a = if n = v then r else registered v as) :
    Tracks { s with isrs := s.isrs.set n.toNat (holderOf r) } (as ++ [a]) where
  length_isrs := List.length_set.trans h.length_isrs
  isrs_get v := by
    rw [get_set h n v, registered_concat, ha]
    split <;> rfl

theorem Tracks.step {s t : State} {as : List Action} {a : Action} (h : Tracks s as)
    (hstep : step image s a = some t) : Tracks t (as ++ [a]) := by
  cases a with
  | setIsr n i context =>
      cases hstep
      exact h.set (r := some (i, context)) fun _ => rfl
  | removeIsr n =>
      cases hstep
      exact h.set (r := none) fun _ => rfl
  | deliver d =>
      obtain ⟨⟨c, t⟩, hd, rfl⟩ := Option.map_eq_some_iff.mp hstep
      have hisrs := isrs_of_deliver hd
      refine ⟨hisrs ▸ h.length_isrs, fun v => ?_⟩
      rw [registered_concat]
      exact hisrs ▸ h.isrs_get v

theorem tracks_of_run {s : State} {as : List Action}
    (h : run (step image) State.boot as = some s) : Tracks s as := by
  induction as using List.reverseRecOn generalizing s with
  | nil =>
      cases h
      exact tracks_boot
  | append_singleton as a ih =>
      rw [run_append] at h
      obtain ⟨u, hu, ha⟩ := Option.bind_eq_some_iff.mp h
      obtain ⟨t, ht, hs⟩ := Option.bind_eq_some_iff.mp ha
      cases hs
      exact (ih hu).step ht

/-! ## Dispatch -/

/-- What a delivery should be seen to do, with the handler registered for it. -/
def expected (d : Delivery) : Option (UInt32 × UInt32) → List Event
  | none => .entered d.vector.toUInt32 d.reported :: acknowledgement d.vector.toUInt32
  | some (i, context) =>
      .entered d.vector.toUInt32 d.reported :: acknowledgement d.vector.toUInt32 ++
        [.call i context d.reported]

/-- A delivery after a history calls the handler registered for its vector, and
the interrupted program goes on. -/
def Dispatched (image : Image) (as : List Action) (d : Delivery) (s : State) : Prop :=
  deliver image s d = some (d.resumed, s.log (expected d (registered d.vector as)))

/-- Every delivery of a history is dispatched. -/
def Dispatches (image : Image) (as : List Action) : Prop :=
  ∀ pre d post, as = pre ++ .deliver d :: post →
    ∃ s, run (step image) State.boot pre = some s ∧ Dispatched image pre d s

/-- The number is pushed as it is, and the stub knows of the error code. -/
def Served (v : UInt8) : Prop := v < 128 ∧ v ∉ missedErrCodes

instance (v : UInt8) : Decidable (Served v) := inferInstanceAs (Decidable (_ ∧ _))

theorem reports_holderOf {d : Delivery} (h : d.vector < 128) (r : Option (UInt32 × UInt32)) :
    reports (signExtend8 d.vector) d.reported (holderOf r) = expected d r := by
  rw [signExtend8_of_lt _ h]
  cases r with
  | none => exact List.append_nil _
  | some r => rfl

theorem dispatched_iff {s : State} {as : List Action} {d : Delivery} (h : Tracks s as) :
    Dispatched image as d s ↔ Served d.vector := by
  constructor
  · intro hd
    have hmem : d.vector ∉ missedErrCodes := by
      intro hmem
      rw [Dispatched, deliver_of_mem hmem] at hd
      obtain ⟨holder, -, heq⟩ := Option.map_eq_some_iff.mp hd
      have hstack : d.cpu.eflags :: d.cpu.stack = d.cpu.stack :=
        congrArg (fun r => r.1.stack) heq
      exact List.cons_ne_self _ _ hstack
    refine ⟨?_, hmem⟩
    by_contra hv
    have hnone : s.isrs[(signExtend8 d.vector).toNat]? = none :=
      List.getElem?_eq_none (h.length_isrs.le.trans (le_signExtend8 _ hv))
    rw [Dispatched, deliver_of_notMem hmem, hnone] at hd
    cases hd
  · rintro ⟨hv, hmem⟩
    have hget : s.isrs[(signExtend8 d.vector).toNat]? =
        some (holderOf (registered d.vector as)) := by
      rw [signExtend8_of_lt _ hv, UInt8.toNat_toUInt32]
      exact h.isrs_get d.vector
    rw [Dispatched, deliver_of_notMem hmem, hget, Option.map_some, reports_holderOf hv]

/-- What the actions of a history need. -/
def Action.Served : Action → Prop
  | .deliver d => Interrupts.Served d.vector
  | _ => True

theorem run_of_served {as : List Action} (h : ∀ a ∈ as, a.Served) :
    ∃ s, run (step image) State.boot as = some s := by
  induction as using List.reverseRecOn with
  | nil => exact ⟨_, rfl⟩
  | append_singleton as a ih =>
      obtain ⟨s, hs⟩ := ih fun a ha => h a (List.mem_append_left _ ha)
      have ha : a.Served := h a (by simp)
      have hstep : ∃ t, step image s a = some t := by
        cases a with
        | setIsr n i context => exact ⟨_, rfl⟩
        | removeIsr n => exact ⟨_, rfl⟩
        | deliver d =>
            have hd : Dispatched image as d s := (dispatched_iff (tracks_of_run hs)).mpr ha
            exact ⟨_, congrArg (Option.map Prod.snd) hd⟩
      obtain ⟨t, ht⟩ := hstep
      exact ⟨t, by rw [run_append, hs, Option.bind_some, run_cons, ht]; rfl⟩

/-- Every delivery of a history is dispatched exactly when all of them are of
vectors below 128 other than the four missed ones. -/
theorem dispatches_iff (image : Image) (as : List Action) :
    Dispatches image as ↔ ∀ d, .deliver d ∈ as → Served d.vector := by
  constructor
  · intro h d hd
    obtain ⟨pre, post, hsplit⟩ := List.append_of_mem hd
    obtain ⟨s, hs, hdisp⟩ := h pre d post hsplit
    exact (dispatched_iff (tracks_of_run hs)).mp hdisp
  · intro h pre d post hsplit
    have hpre : ∀ a ∈ pre, a.Served := by
      intro a ha
      cases a with
      | setIsr n i context => trivial
      | removeIsr n => trivial
      | deliver e => exact h e (hsplit ▸ List.mem_append_left _ ha)
    obtain ⟨s, hs⟩ := run_of_served hpre
    refine ⟨s, hs, (dispatched_iff (tracks_of_run hs)).mpr (h d ?_)⟩
    rw [hsplit]
    simp

/-! ## A software interrupt -/

/-- Stubs of sixteen bytes each. -/
def someImage : Image where
  addr v := 0x100000 + 16 * v.toUInt32
  code a := isrStub ((a - 0x100000) / 16).toUInt8
  linked v := by
    have haddr : ∀ v : UInt8, ((0x100000 + 16 * v.toUInt32 - 0x100000) / 16).toUInt8 = v :=
      forall_byte (by decide +kernel)
    exact congrArg isrStub (haddr v)

def softwareInterrupt : Delivery :=
  { vector := 128
    errorCode := 0
    cpu := ⟨0, 0, 0, 0, 0, 0, 0, 0x10, 0x10, 0x10, 0x10, 0x8, 0, 0, 0, []⟩
    left := ⟨0, 0, 0, 0⟩ }

theorem not_dispatches_softwareInterrupt :
    ¬ Dispatches someImage [.deliver softwareInterrupt] := by
  intro h
  obtain ⟨s, hs, hd⟩ := h [] softwareInterrupt [] rfl
  cases hs
  have hnone : deliver someImage State.boot softwareInterrupt = none := by
    rw [deliver_of_notMem (by decide)]
    rfl
  rw [Dispatched, hnone] at hd
  cases hd

end AviKernel.Interrupts
