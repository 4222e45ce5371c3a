import AviKernel.Library.X86

/-!
# The stubs of the interrupts

Each vector has a stub that pushes its number and goes on to a routine they all
share.  A stub pushes a zero where the processor has pushed no error code, so
that the routine finds one stack for all the vectors.
-/

namespace AviKernel.Interrupts

open X86

variable {c : Cpu} {n e eip cs eflags : UInt32} {rest : List UInt32}

/-- The routine `isr`, up to the call. -/
def isrEntry : List Instr :=
  [.cli, .pusha, .movAxDs, .pushEax, .movAx 0x10, .movDsAx, .movEsAx, .movFsAx, .movGsAx]

/-- The rest of `isr`. -/
def isrExit : List Instr :=
  [.popEax, .movDsAx, .movEsAx, .movFsAx, .movGsAx, .popa, .addEsp 8, .iret]

def isr : List Instr := isrEntry ++ .call :: isrExit

def isrNoErrCode (n : UInt8) : List Instr := .pushByte 0 :: .pushByte n :: isr

def isrErrCode (n : UInt8) : List Instr := .pushByte n :: isr

/-- The vectors whose stub is an `ISR_ERRCODE`. -/
def errCodeStubs : List UInt8 := [8, 10, 11, 12, 13, 14]

/-- The label `isr%1`. -/
def isrStub (v : UInt8) : List Instr :=
  if v ∈ errCodeStubs then isrErrCode v else isrNoErrCode v

/-! ## The handler -/

def irqStart : UInt32 := 32

def irqEnd : UInt32 := 47

def numberOfInterrupts : ℕ := 256

/-- The handler and its context are addresses. -/
structure IsrHolder where
  i : UInt32
  context : UInt32
  exist : Bool
deriving DecidableEq

inductive Event
  /-- The handler of all the interrupts is entered. -/
  | entered (interruptNumber errCode : UInt32)
  | outb (port : UInt16) (value : UInt8)
  /-- A registered handler is called. -/
  | call (i context errorCode : UInt32)
deriving DecidableEq

structure State where
  isrs : List IsrHolder
  events : List Event
deriving DecidableEq

def State.boot : State := ⟨List.replicate numberOfInterrupts ⟨0, 0, false⟩, []⟩

def State.log (s : State) (es : List Event) : State := { s with events := s.events ++ es }

@[simp] theorem log_isrs (s : State) (es : List Event) : (s.log es).isrs = s.isrs := rfl

@[simp] theorem log_events (s : State) (es : List Event) :
    (s.log es).events = s.events ++ es := rfl

@[simp] theorem log_log (s : State) (es fs : List Event) :
    (s.log es).log fs = s.log (es ++ fs) := by simp [State.log]

def masterPicCommandPort : UInt16 := 0x0020

def slavePicCommandPort : UInt16 := 0x00A0

def endOfInterrupt : UInt8 := 0x20

inductive Pic
  | master
  | slave

def Pic.commandPort : Pic → UInt16
  | master => masterPicCommandPort
  | slave => slavePicCommandPort

def sendCommand (pic : Pic) (command : UInt8) (s : State) : State :=
  s.log [.outb pic.commandPort command]

def sendEndOfInterrupt (irq : UInt8) (s : State) : State :=
  let s := if 8 ≤ irq then sendCommand .slave endOfInterrupt s else s
  sendCommand .master endOfInterrupt s

/-- What the stub and the processor have pushed. -/
structure Registers where
  ds : UInt32
  edi : UInt32
  esi : UInt32
  ebp : UInt32
  uselessValue : UInt32
  ebx : UInt32
  edx : UInt32
  ecx : UInt32
  eax : UInt32
  interruptNumber : UInt32
  errCode : UInt32
  eip : UInt32
  cs : UInt32
  eflags : UInt32

def Registers.ofStack : List UInt32 → Option Registers
  | ds :: edi :: esi :: ebp :: uselessValue :: ebx :: edx :: ecx :: eax :: interruptNumber ::
      errCode :: eip :: cs :: eflags :: _ =>
      some { ds, edi, esi, ebp, uselessValue, ebx, edx, ecx, eax, interruptNumber, errCode, eip,
             cs, eflags }
  | _ => none

/-- A number outside the table has no result. -/
def generalIsrHandler (regs : Registers) (s : State) : Option State :=
  let s := s.log [.entered regs.interruptNumber regs.errCode]
  let s := if irqStart ≤ regs.interruptNumber ∧ regs.interruptNumber ≤ irqEnd then
      sendEndOfInterrupt (regs.interruptNumber - irqStart).toUInt8 s
    else s
  s.isrs[regs.interruptNumber.toNat]?.map fun holder =>
    if holder.exist then s.log [.call holder.i holder.context regs.errCode] else s

def isrManagerSetIsr (interruptNumber : UInt8) (i context : UInt32) (s : State) : State :=
  { s with isrs := s.isrs.set interruptNumber.toNat ⟨i, context, true⟩ }

def isrManagerRemoveIsr (interruptNumber : UInt8) (s : State) : State :=
  { s with isrs := s.isrs.set interruptNumber.toNat ⟨0, 0, false⟩ }

/-- The function that `isr` calls. -/
def callee (stack : List UInt32) (s : State) : Option State :=
  (Registers.ofStack stack).bind fun regs => generalIsrHandler regs s

/-! ## The routine -/

/-- The stack at the call. -/
def frame (c : Cpu) : List UInt32 :=
  setLow c.eax c.ds :: c.edi :: c.esi :: c.ebp :: c.esp :: c.ebx :: c.edx :: c.ecx :: c.eax ::
    c.stack

/-- The processor at the call. -/
def atCall (c : Cpu) : Cpu :=
  { c with
    eax := setLow (setLow c.eax c.ds) 0x10
    ds := 0x10
    es := 0x10
    fs := 0x10
    gs := 0x10
    eflags := c.eflags &&& ~~~interruptFlag
    stack := frame c }

variable {σ : Type*} {f : List UInt32 → σ → Option σ} {left : Scratch} {s : σ}

theorem run_isrEntry : run (exec f left) (c, s) isrEntry = some (atCall c, s) := by
  simp [isrEntry, exec, atCall, frame, Cpu.push, Cpu.esp]

/-- The processor after `iret`, with the stack as `isr` found it. -/
def returned (c : Cpu) (eip cs eflags : UInt32) (rest : List UInt32) : Cpu :=
  { c with
    es := c.ds
    fs := c.ds
    gs := c.ds
    eip := eip
    cs := cs.toUInt16
    eflags := eflags
    stack := rest }

theorem returned_push (w : UInt32) :
    returned (c.push w) eip cs eflags rest = returned c eip cs eflags rest := rfl

theorem run_isrExit (h : c.stack = n :: e :: eip :: cs :: eflags :: rest) :
    run (exec f left) ({ atCall c with
      eax := left.eax, ecx := left.ecx, edx := left.edx, eflags := left.eflags }, s) isrExit =
      some (returned c eip cs eflags rest, s) := by
  have hdrop : 8 ≤ 4 * (rest.length + 1 + 1 + 1 + 1 + 1) := by omega
  simp only [isrExit, run_cons, run_nil, exec, Option.bind_some, atCall, frame, h, setLow_toUInt16,
    List.length_cons, hdrop, if_true, List.drop_succ_cons, List.drop_zero, Nat.reduceDiv, returned]

theorem run_isr (h : c.stack = n :: e :: eip :: cs :: eflags :: rest) :
    run (exec f left) (c, s) isr =
      (f (frame c) s).map fun t => (returned c eip cs eflags rest, t) := by
  rw [isr, run_append, run_isrEntry, Option.bind_some, run_cons]
  have hcall : exec f left (atCall c, s) .call = (f (frame c) s).map fun t =>
      ({ atCall c with
        eax := left.eax, ecx := left.ecx, edx := left.edx, eflags := left.eflags }, t) := rfl
  rw [hcall]
  cases f (frame c) s with
  | none => rfl
  | some t => exact run_isrExit h

theorem run_isrErrCode (v : UInt8) (h : c.stack = e :: eip :: cs :: eflags :: rest) :
    run (exec f left) (c, s) (isrErrCode v) =
      (f (frame (c.push (signExtend8 v))) s).map fun t =>
        (returned c eip cs eflags rest, t) := by
  have hstack : (c.push (signExtend8 v)).stack =
      signExtend8 v :: e :: eip :: cs :: eflags :: rest := by rw [Cpu.push, h]
  rw [isrErrCode, run_cons, exec_pushByte, Option.bind_some, run_isr hstack, returned_push]

theorem run_isrNoErrCode (v : UInt8) (h : c.stack = eip :: cs :: eflags :: rest) :
    run (exec f left) (c, s) (isrNoErrCode v) =
      (f (frame ((c.push (signExtend8 0)).push (signExtend8 v))) s).map fun t =>
        (returned c eip cs eflags rest, t) := by
  have hstack : ((c.push (signExtend8 0)).push (signExtend8 v)).stack =
      signExtend8 v :: signExtend8 0 :: eip :: cs :: eflags :: rest := by
    rw [Cpu.push, Cpu.push, h]
  rw [isrNoErrCode, run_cons, exec_pushByte, Option.bind_some, run_cons, exec_pushByte,
    Option.bind_some, run_isr hstack, returned_push, returned_push]

/-! ## The call -/

/-- What is sent to the controllers for a number. -/
def acknowledgement (n : UInt32) : List Event :=
  if irqStart ≤ n ∧ n ≤ irqEnd then
    (if 40 ≤ n then [.outb slavePicCommandPort endOfInterrupt] else []) ++
      [.outb masterPicCommandPort endOfInterrupt]
  else []

theorem sendEndOfInterrupt_eq (h : irqStart ≤ n) (h' : n ≤ irqEnd) (s : State) :
    sendEndOfInterrupt (n - irqStart).toUInt8 s = s.log (acknowledgement n) := by
  have hlow := UInt32.le_iff_toNat_le.mp h
  have hhigh := UInt32.le_iff_toNat_le.mp h'
  have hirq : 8 ≤ (n - irqStart).toUInt8 ↔ 40 ≤ n := by
    rw [UInt8.le_iff_toNat_le, UInt32.le_iff_toNat_le, UInt32.toNat_toUInt8,
      UInt32.toNat_sub_of_le _ _ h]
    have hstart : irqStart.toNat = 32 := rfl
    have hforty : (40 : UInt32).toNat = 40 := rfl
    have height : (8 : UInt8).toNat = 8 := rfl
    have hend : irqEnd.toNat = 47 := rfl
    omega
  rw [acknowledgement, if_pos ⟨h, h'⟩]
  by_cases hslave : 40 ≤ n
  · rw [if_pos hslave, sendEndOfInterrupt, if_pos (hirq.mpr hslave)]
    exact log_log s _ _
  · rw [if_neg hslave, sendEndOfInterrupt, if_neg (mt hirq.mp hslave)]
    rfl

/-- What the handler of all the interrupts does with the entry it finds. -/
def reports (n e : UInt32) (holder : IsrHolder) : List Event :=
  .entered n e :: acknowledgement n ++
    if holder.exist then [.call holder.i holder.context e] else []

theorem generalIsrHandler_eq (regs : Registers) (s : State) :
    generalIsrHandler regs s = s.isrs[regs.interruptNumber.toNat]?.map fun holder =>
      s.log (reports regs.interruptNumber regs.errCode holder) := by
  have hack : (if irqStart ≤ regs.interruptNumber ∧ regs.interruptNumber ≤ irqEnd then
      sendEndOfInterrupt (regs.interruptNumber - irqStart).toUInt8
        (s.log [.entered regs.interruptNumber regs.errCode])
      else s.log [.entered regs.interruptNumber regs.errCode]) =
      s.log (.entered regs.interruptNumber regs.errCode ::
        acknowledgement regs.interruptNumber) := by
    by_cases h : irqStart ≤ regs.interruptNumber ∧ regs.interruptNumber ≤ irqEnd
    · rw [if_pos h, sendEndOfInterrupt_eq h.1 h.2, log_log, List.singleton_append]
    · rw [if_neg h, acknowledgement, if_neg h]
  simp only [generalIsrHandler, hack, log_isrs]
  congr 1
  funext holder
  rw [reports, ← log_log]
  by_cases hexist : holder.exist = true
  · rw [if_pos hexist, if_pos hexist]
  · rw [if_neg hexist, if_neg hexist, log_log, List.append_nil]

theorem callee_frame (h : c.stack = n :: e :: eip :: cs :: eflags :: rest) (s : State) :
    callee (frame c) s = s.isrs[n.toNat]?.map fun holder => s.log (reports n e holder) := by
  rw [callee, frame, h]
  exact generalIsrHandler_eq _ s

theorem run_callee_isrErrCode (v : UInt8) (h : c.stack = e :: eip :: cs :: eflags :: rest)
    (s : State) : run (exec callee left) (c, s) (isrErrCode v) =
      s.isrs[(signExtend8 v).toNat]?.map fun holder =>
        (returned c eip cs eflags rest, s.log (reports (signExtend8 v) e holder)) := by
  have hstack : (c.push (signExtend8 v)).stack =
      signExtend8 v :: e :: eip :: cs :: eflags :: rest := by rw [Cpu.push, h]
  rw [run_isrErrCode v h, callee_frame hstack, Option.map_map]
  rfl

theorem run_callee_isrNoErrCode (v : UInt8) (h : c.stack = eip :: cs :: eflags :: rest)
    (s : State) : run (exec callee left) (c, s) (isrNoErrCode v) =
      s.isrs[(signExtend8 v).toNat]?.map fun holder =>
        (returned c eip cs eflags rest, s.log (reports (signExtend8 v) 0 holder)) := by
  have hstack : ((c.push (signExtend8 0)).push (signExtend8 v)).stack =
      signExtend8 v :: 0 :: eip :: cs :: eflags :: rest := by
    rw [Cpu.push, Cpu.push, h]
    rfl
  rw [run_isrNoErrCode v h, callee_frame hstack, Option.map_map]
  rfl

end AviKernel.Interrupts
