import AviKernel.Interrupts.Dispatch
import AviKernel.Library.Pic8259

/-!
# The driver of the interrupt controllers

The driver is run against the two controllers of a PC, in whatever state the firmware has left
them.
-/

namespace AviKernel.PicDriver

open Interrupts Pic8259

def masterPicDataPort : UInt16 := 0x0021

def slavePicDataPort : UInt16 := 0x00A1

def dataPort : Pic → UInt16
  | .master => masterPicDataPort
  | .slave => slavePicDataPort

def masterInterruptsOffset : UInt8 := 0x20

def slaveInterruptsOffset : UInt8 := 0x28

def icw1 : UInt8 := 0b00010001

def icw2Master : UInt8 := masterInterruptsOffset

def icw2Slave : UInt8 := slaveInterruptsOffset

def icw3Master : UInt8 := 0x04

def icw3Slave : UInt8 := 0x02

def icw4 : UInt8 := 0x01

def sendData (pic : Pic) (data : UInt8) (s : State) : State := s.log [.outb (dataPort pic) data]

def ioWait (s : State) : State := s.log [.outb 0x80 0]

def setupDriverAndDevice (s : State) : State :=
  -- ICW1
  let s := ioWait (sendCommand .master icw1 s)
  let s := ioWait (sendCommand .slave icw1 s)
  -- ICW2
  let s := ioWait (sendData .master icw2Master s)
  let s := ioWait (sendData .slave icw2Slave s)
  -- ICW3
  let s := ioWait (sendData .master icw3Master s)
  let s := ioWait (sendData .slave icw3Slave s)
  let s := ioWait (sendData .master icw4 s)
  ioWait (sendData .slave icw4 s)

def unmaskAllInterrupts (s : State) : State := sendData .slave 0x0 (sendData .master 0x0 s)

/-- What the controllers see of an event. -/
def hear (p : Pair) : Interrupts.Event → Pair
  | .outb port value => p.outb port value
  | _ => p

/-- The port writes of the setup, in order. -/
def setupWrites : List Interrupts.Event :=
  [.outb 0x20 0x11, .outb 0x80 0, .outb 0xA0 0x11, .outb 0x80 0,
   .outb 0x21 0x20, .outb 0x80 0, .outb 0xA1 0x28, .outb 0x80 0,
   .outb 0x21 0x04, .outb 0x80 0, .outb 0xA1 0x02, .outb 0x80 0,
   .outb 0x21 0x01, .outb 0x80 0, .outb 0xA1 0x01, .outb 0x80 0,
   .outb 0x21 0, .outb 0xA1 0]

theorem setup_eq (s : State) : unmaskAllInterrupts (setupDriverAndDevice s) = s.log setupWrites := by
  simp only [unmaskAllInterrupts, setupDriverAndDevice, sendData, sendCommand, ioWait, log_log]
  rfl

/-- One of the controllers after its part of the setup. -/
def setUpChip (c : Chip) (base cascade : UInt8) : Chip :=
  { c with
    requested := ∅
    masked := ∅
    base
    cascade
    autoEoi := false
    phase := .ready }

theorem chip_setup (c : Chip) (base cascade : UInt8) (hbase : base &&& 0xF8 = base) :
    (((((c.command 0x11).data base).data cascade).data 1).data 0) = setUpChip c base cascade := by
  have hcommand : c.command 0x11 = { c with
      requested := ∅
      masked := ∅
      autoEoi := c.autoEoi && true
      phase := .icw2 false true } := rfl
  have hnormal : (1 : UInt8) &&& 2 = 0 := rfl
  rw [hcommand]
  simp [Chip.data, setUpChip, hbase, hnormal]

theorem foldl_setupWrites (p : Pair) :
    setupWrites.foldl hear p = ⟨setUpChip p.master 0x20 4, setUpChip p.slave 0x28 2⟩ := by
  rw [← chip_setup p.master 0x20 4 rfl, ← chip_setup p.slave 0x28 2 rfl]
  rfl

theorem inService_setupWrites (p : Pair) :
    (setupWrites.foldl hear p).master.inService = p.master.inService ∧
      (setupWrites.foldl hear p).slave.inService = p.slave.inService := by
  rw [foldl_setupWrites]
  exact ⟨rfl, rfl⟩

theorem idle_setupWrites (p : Pair) : (setupWrites.foldl hear p).Idle ↔ p.Idle := by
  rw [Pair.Idle, Pair.Idle, (inService_setupWrites p).1, (inService_setupWrites p).2]

theorem setUp_setupWrites (p : Pair) :
    (setupWrites.foldl hear p).SetUp masterInterruptsOffset slaveInterruptsOffset := by
  rw [foldl_setupWrites]
  exact ⟨⟨rfl, rfl, rfl, rfl, rfl⟩, ⟨rfl, rfl, rfl, rfl, rfl⟩⟩

theorem not_pending_setupWrites (p : Pair) (n : Line) :
    ¬ (setupWrites.foldl hear p).Pending n := by
  rw [foldl_setupWrites]
  rcases exists_eq_line n with ⟨i, hi, rfl⟩ | ⟨j, rfl⟩
  · rw [Pair.pending_ofMaster]
    exact Finset.notMem_empty _
  · rw [Pair.pending_ofSlave]
    exact Finset.notMem_empty _

/-- The driver sets both controllers up from every state: in the middle of another
initialisation, with lines masked or pending.  What is in service stays so. -/
theorem setup_pics (s : State) (p : Pair) :
    ∃ writes, unmaskAllInterrupts (setupDriverAndDevice s) = s.log writes ∧
      (writes.foldl hear p).SetUp masterInterruptsOffset slaveInterruptsOffset ∧
      (∀ n, ¬ (writes.foldl hear p).Pending n) ∧
      (writes.foldl hear p).master.inService = p.master.inService ∧
      (writes.foldl hear p).slave.inService = p.slave.inService :=
  ⟨setupWrites, setup_eq s, setUp_setupWrites p, not_pending_setupWrites p,
    inService_setupWrites p⟩

end AviKernel.PicDriver
