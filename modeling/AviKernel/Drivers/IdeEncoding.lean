import AviKernel.Drivers.IdeAddresses
import AviKernel.Library.Words

/-!
# The address registers

The bytes of an address in the registers of a channel, for the channel and drive numbers
as the bytes that they are.  The registers take what is written as long as no command is
going on.
-/

namespace AviKernel

open Ata

namespace StorageIDECompatibilityDriver

variable {bus : Bus} {c : Channel} {i : Fin 2} {channel drive : UInt8} {lba : ℕ}

/-- Which channel the number of a channel stands for. -/
def channelOf (channel : UInt8) : Fin 2 := if channel = 0 then 0 else 1

/-- `get_ide_controller` of any byte. -/
def getIdeControllerOfByte (channel : UInt8) : IDEController :=
  if channel = 0 then primaryIdeController else secondaryIdeController

/-- `ide_select_drive` of any bytes. -/
def ideSelectDriveOfBytes (channel drive : UInt8) (lba : Bool) (bus : Bus) : Bus :=
  let tmp : UInt8 := if lba then 0xE0 else 0xA0
  let data := tmp ||| drive <<< 4
  (getIdeControllerOfByte channel).writeDriveHeadRegister data bus

theorem getIdeController_eq (i : Fin 2) :
    getIdeController i = getIdeControllerOfByte (UInt8.ofNat i.val) := by
  fin_cases i <;> rfl

theorem ideSelectDrive_eq (i drive : Fin 2) (lba : Bool) (bus : Bus) :
    ideSelectDrive i drive lba bus =
      ideSelectDriveOfBytes (UInt8.ofNat i.val) (UInt8.ofNat drive.val) lba bus := by
  have hdrive : ∀ drive : Fin 2,
      UInt8.ofNat (drive.val <<< 4) = UInt8.ofNat drive.val <<< 4 := by decide
  rw [ideSelectDrive, ideSelectDriveOfBytes, getIdeController_eq, hdrive]

theorem getIdeControllerOfByte_eq (channel : UInt8) :
    getIdeControllerOfByte channel = getIdeController (channelOf channel) := by
  unfold getIdeControllerOfByte channelOf
  split_ifs <;> rfl

/-- The byte that selects a drive and its addresses. -/
def lbaSelectByte (drive : UInt8) : UInt8 := (0xE0 : UInt8) ||| drive <<< 4

theorem testBit_lbaSelectByte (drive : UInt8) : (lbaSelectByte drive).toNat.testBit 6 = true ∧
    (lbaSelectByte drive).toNat.testBit 4 = drive.toNat.testBit 0 := by
  revert drive
  exact forall_byte (by decide +kernel)

def withSelectByte (c : Channel) (drive : UInt8) : Channel :=
  { c with driveHead := lbaSelectByte drive }

theorem ideSelectDriveOfBytes_set (hidle : c.Idle) :
    ideSelectDriveOfBytes channel drive true (bus.set (channelOf channel) c) =
      bus.set (channelOf channel) (withSelectByte c drive) := by
  have hwrite : c.write .driveHead (lbaSelectByte drive) = withSelectByte c drive :=
    Channel.write_of_idle hidle _ _
  rw [← hwrite, ideSelectDriveOfBytes, getIdeControllerOfByte_eq]
  exact outb_set (by decide) (lbaSelectByte drive)

/-- The bus after both calls of the set-up of a 28-bit command. -/
def filled28 (channel drive : UInt8) (lba : ℕ) (bus : Bus) : Bus :=
  fillAddress28Bits (getIdeControllerOfByte channel) lba
    (ideSelectDriveOfBytes channel drive true bus)

/-- The 48-bit address is in the registers of the channel. -/
def Encodes48 (channel : UInt8) (lba : ℕ) (bus : Bus) : Prop :=
  ((fillAddress48Bits (getIdeControllerOfByte channel) lba bus).channel
    (channelOf channel)).lba48 = lba

/-- The 28-bit address is there, and the bits of the drive/head register that are not of the
address are as `ide_select_drive` wrote them. -/
structure Encodes28 (channel drive : UInt8) (lba : ℕ) (bus : Bus) : Prop where
  lba28 : ((filled28 channel drive lba bus).channel (channelOf channel)).lba28 = lba
  kept : ∀ k, 4 ≤ k →
    ((filled28 channel drive lba bus).channel (channelOf channel)).driveHead.toNat.testBit k =
      (lbaSelectByte drive).toNat.testBit k
  selected : ((filled28 channel drive lba bus).channel (channelOf channel)).selected =
    if drive.toNat.testBit 0 then 1 else 0
  usesLba : ((filled28 channel drive lba bus).channel (channelOf channel)).usesLba = true

theorem encodes48 (hidle : (bus.channel (channelOf channel)).Idle) (hlba : lba < 2 ^ 48) :
    Encodes48 channel lba bus := by
  have hfilled : fillAddress48Bits (getIdeController (channelOf channel)) lba
      (bus.set (channelOf channel) (bus.channel (channelOf channel))) =
        bus.set (channelOf channel) (withAddress48 (bus.channel (channelOf channel)) lba) :=
    fillAddress48Bits_set hidle
  rw [Bus.set_channel] at hfilled
  rw [Encodes48, getIdeControllerOfByte_eq, hfilled, Bus.channel_set, lba48_withAddress48]
  exact Nat.mod_eq_of_lt hlba

theorem filled28_channel (hidle : (bus.channel (channelOf channel)).Idle) :
    (filled28 channel drive lba bus).channel (channelOf channel) =
      withAddress28 (withSelectByte (bus.channel (channelOf channel)) drive) lba := by
  have hselect : ideSelectDriveOfBytes channel drive true
      (bus.set (channelOf channel) (bus.channel (channelOf channel))) =
        bus.set (channelOf channel) (withSelectByte (bus.channel (channelOf channel)) drive) :=
    ideSelectDriveOfBytes_set hidle
  have hselected : (withSelectByte (bus.channel (channelOf channel)) drive).Idle := hidle
  rw [Bus.set_channel] at hselect
  rw [filled28, hselect, getIdeControllerOfByte_eq, fillAddress28Bits_set hselected,
    Bus.channel_set]

theorem encodes28 (hidle : (bus.channel (channelOf channel)).Idle) (hlba : lba < 2 ^ 28) :
    Encodes28 channel drive lba bus := by
  have hchannel : (filled28 channel drive lba bus).channel (channelOf channel) =
      withAddress28 (withSelectByte (bus.channel (channelOf channel)) drive) lba :=
    filled28_channel hidle
  obtain ⟨husesLba, hselected⟩ := testBit_lbaSelectByte drive
  refine ⟨?_, fun k hk => ?_, ?_, ?_⟩
  · rw [hchannel, lba28_withAddress28]
    exact Nat.mod_eq_of_lt hlba
  · rw [hchannel]
    exact (testBit_withHighBits _ _ _).trans (if_neg (by omega))
  · rw [hchannel, selected_withAddress28, ← hselected]
    rfl
  · rw [hchannel, usesLba_withAddress28]
    exact husesLba

/-- Both forms of an address come to the controller as they are. -/
theorem addresses_encoded (hidle : (bus.channel (channelOf channel)).Idle) :
    (lba < 2 ^ 48 → Encodes48 channel lba bus) ∧
      (lba < 2 ^ 28 → Encodes28 channel drive lba bus) :=
  ⟨encodes48 hidle, encodes28 hidle⟩

/-- Two idle channels without devices, with old bytes in their registers. -/
def usedBus : Bus where
  channel _ :=
    { sectorCount := ⟨1, 2⟩
      lbaLow := ⟨3, 4⟩
      lbaMid := ⟨5, 6⟩
      lbaHigh := ⟨7, 8⟩
      driveHead := 0xFF
      control := 2
      devices := fun _ => none
      transfer := none
      aborted := true
      busy := 0
      delays := fun _ => 1 }

theorem addresses_encoded_used :
    Encodes48 1 (2 ^ 48 - 1) usedBus ∧ Encodes28 1 1 (2 ^ 28 - 1) usedBus := by
  have hidle : (usedBus.channel (channelOf 1)).Idle := ⟨rfl, rfl⟩
  have hlong := @addresses_encoded usedBus 1 1 (2 ^ 48 - 1) hidle
  have hshort := @addresses_encoded usedBus 1 1 (2 ^ 28 - 1) hidle
  exact ⟨hlong.1 (by decide), hshort.2 (by decide)⟩

end StorageIDECompatibilityDriver

end AviKernel
