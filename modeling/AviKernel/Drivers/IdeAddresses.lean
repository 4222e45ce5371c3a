import AviKernel.Drivers.IdeDriver

/-!
# Setting up a transfer

What the controller of a channel writes goes to the registers of this channel.
The address is written in full in both modes.
-/

namespace AviKernel

open Ata

namespace Bus

variable {bus : Bus} {i : Fin 2} {c e : Channel}

@[simp] theorem channel_set : (bus.set i c).channel i = c := by
  unfold set
  simp

theorem channel_set_of_ne {j : Fin 2} (h : j ≠ i) :
    (bus.set i c).channel j = bus.channel j := by
  unfold set
  simp [h]

@[simp] theorem set_set : (bus.set i c).set i e = bus.set i e := by
  unfold set
  simp

@[simp] theorem set_channel : bus.set i (bus.channel i) = bus := by
  unfold set
  simp

end Bus

namespace StorageIDECompatibilityDriver

variable {bus : Bus} {c : Channel} {i : Fin 2} {drive : PhysicalIDEDrive} {lba : ℕ}
  {count b : UInt8} {r : Register} {k : ℕ}

theorem decode_commandBlock : ∀ (i : Fin 2) (k : ℕ), k < 8 →
    Bus.decode ((getIdeController i).ports1Base + k) = (Bus.commandBlock k).map fun r => (i, r) := by
  decide

theorem decode_control : ∀ i : Fin 2,
    Bus.decode ((getIdeController i).ports2Base + 0) = some (i, .control) := by
  decide

theorem decodeData_data : ∀ i : Fin 2,
    Bus.decodeData ((getIdeController i).ports1Base + 0) = some i := by
  decide

theorem outb_set (hk : k < 8) (b : UInt8) :
    (bus.set i c).outb ((getIdeController i).ports1Base + k) b =
      match Bus.commandBlock k with
      | some r => bus.set i (c.write r b)
      | none => bus.set i c := by
  rw [Bus.outb, decode_commandBlock i k hk]
  cases Bus.commandBlock k with
  | none => rfl
  | some r => simp

theorem readDriveHeadRegister_set :
    (getIdeController i).readDriveHeadRegister (bus.set i c) = (c.driveHead, bus.set i c) := by
  rw [IDEController.readDriveHeadRegister, Bus.inb, decode_commandBlock i 6 (by decide)]
  simp [Bus.commandBlock, Channel.read]

theorem readAlternateStatusRegister_set :
    (getIdeController i).readAlternateStatusRegister (bus.set i c) =
      (c.status, bus.set i { c with busy := c.busy - 1 }) := by
  rw [IDEController.readAlternateStatusRegister, Bus.inb, decode_control]
  simp [Channel.read]

theorem writeCommandRegister_set :
    (getIdeController i).writeCommandRegister b (bus.set i c) = bus.set i (c.write .command b) :=
  outb_set (by decide) b

/-- The byte that selects a drive. -/
def selectByte (drive : Fin 2) (lba : Bool) : UInt8 :=
  (if lba then (0xE0 : UInt8) else 0xA0) ||| UInt8.ofNat (drive.val <<< 4)

/-- The drive/head register with the highest bits of a 28-bit address. -/
def withHighBits (driveHead : UInt8) (lba : ℕ) : UInt8 :=
  driveHead &&& (0b11110000 : UInt8) ||| UInt8.ofNat (lba >>> 24) &&& (0b00001111 : UInt8)

/-! The registers after each part of the setup. -/

def withSelected (c : Channel) (drive : Fin 2) (lba : Bool) : Channel :=
  { c with driveHead := selectByte drive lba }

def withAddress48 (c : Channel) (lba : ℕ) : Channel :=
  { c with
    lbaLow := ⟨UInt8.ofNat (lba >>> 0), UInt8.ofNat (lba >>> 24)⟩
    lbaMid := ⟨UInt8.ofNat (lba >>> 8), UInt8.ofNat (lba >>> 32)⟩
    lbaHigh := ⟨UInt8.ofNat (lba >>> 16), UInt8.ofNat (lba >>> 40)⟩ }

def withAddress28 (c : Channel) (lba : ℕ) : Channel :=
  { c with
    lbaLow := c.lbaLow.push (UInt8.ofNat (lba >>> 0))
    lbaMid := c.lbaMid.push (UInt8.ofNat (lba >>> 8))
    lbaHigh := c.lbaHigh.push (UInt8.ofNat (lba >>> 16))
    driveHead := withHighBits c.driveHead lba }

def withCount (c : Channel) (count : TwoDeep) : Channel := { c with sectorCount := count }

theorem ideSelectDrive_set (hidle : c.Idle) (drive : Fin 2) (lba : Bool) :
    ideSelectDrive i drive lba (bus.set i c) = bus.set i (withSelected c drive lba) := by
  have hwrite : c.write .driveHead (selectByte drive lba) = withSelected c drive lba :=
    Channel.write_of_idle hidle _ _
  rw [← hwrite]
  exact outb_set (k := 6) (by decide) (selectByte drive lba)

theorem fillAddress48Bits_set (hidle : c.Idle) :
    fillAddress48Bits (getIdeController i) lba (bus.set i c) =
      bus.set i (withAddress48 c lba) := by
  obtain ⟨hmoving, hbusy⟩ := hidle
  simp [fillAddress48Bits, IDEController.writeLBAloRegister48,
    IDEController.writeLBAmidRegister48, IDEController.writeLBIhiRegister48, outb_set,
    Bus.commandBlock, Channel.write, Channel.Idle, Channel.take, TwoDeep.push, withAddress48,
    hmoving, hbusy]

theorem fillAddress28Bits_set (hidle : c.Idle) :
    fillAddress28Bits (getIdeController i) lba (bus.set i c) =
      bus.set i (withAddress28 c lba) := by
  obtain ⟨hmoving, hbusy⟩ := hidle
  simp [fillAddress28Bits, IDEController.writeSectorNumberRegister,
    IDEController.writeCylinderLSBRegister, IDEController.writeCylinderMSBRegister,
    IDEController.writeDriveHeadRegister, readDriveHeadRegister_set, outb_set,
    Bus.commandBlock, Channel.write, Channel.Idle, Channel.take, TwoDeep.push,
    withAddress28, withHighBits, hmoving, hbusy]

theorem writeSectorCountRegister_set (hidle : c.Idle) :
    (getIdeController i).writeSectorCountRegister count (bus.set i c) =
      bus.set i (withCount c (c.sectorCount.push count)) := by
  have hwrite : c.write .sectorCount count = withCount c (c.sectorCount.push count) :=
    Channel.write_of_idle hidle _ _
  rw [← hwrite]
  exact outb_set (k := 2) (by decide) count

theorem writeSectorCountRegister48_set (hidle : c.Idle) (low high : UInt8) :
    (getIdeController i).writeSectorCountRegister48 low high (bus.set i c) =
      bus.set i (withCount c ⟨low, high⟩) := by
  obtain ⟨hmoving, hbusy⟩ := hidle
  simp [IDEController.writeSectorCountRegister48, outb_set, Bus.commandBlock, Channel.write,
    Channel.Idle, Channel.take, TwoDeep.push, withCount, hmoving, hbusy]

/-! ## The addresses -/

theorem toNat_byte (k : ℕ) : (UInt8.ofNat (lba >>> k)).toNat = lba / 2 ^ k % 2 ^ 8 := by
  rw [UInt8.toNat_ofNat', Nat.shiftRight_eq_div_pow]

theorem selectByte_nibble : ∀ (drive : Fin 2) (lba : Bool), (selectByte drive lba).toNat % 16 = 0 := by
  decide

theorem testBit_toNat_of_ge {b : UInt8} {k : ℕ} (h : 8 ≤ k) : b.toNat.testBit k = false := by
  have hpow : (2 : ℕ) ^ 8 ≤ 2 ^ k := Nat.pow_le_pow_right (by decide) h
  exact Nat.testBit_lt_two_pow (lt_of_lt_of_le b.toNat_lt hpow)

theorem testBit_withHighBits (b : UInt8) (lba k : ℕ) : (withHighBits b lba).toNat.testBit k =
    if k < 4 then (lba / 2 ^ 24).testBit k else b.toNat.testBit k := by
  have hmask : k < 8 → (240 : ℕ).testBit k = decide (4 ≤ k) := by
    intro hk
    interval_cases k <;> decide
  have hnibble : (15 : ℕ).testBit k = decide (k < 4) := Nat.testBit_two_pow_sub_one 4 k
  have hbits : (withHighBits b lba).toNat.testBit k =
      (b.toNat.testBit k && (240 : ℕ).testBit k ||
        (lba / 2 ^ 24 % 2 ^ 8).testBit k && (15 : ℕ).testBit k) := by
    rw [← toNat_byte]
    simp [withHighBits]
  rw [hbits, hnibble, Nat.testBit_mod_two_pow]
  by_cases hk : k < 8
  · rw [hmask hk]
    by_cases hlow : k < 4
    · have hnot : ¬4 ≤ k := by omega
      simp [hlow, hnot, hk]
    · have hle : 4 ≤ k := by omega
      simp [hlow, hle]
  · have hle : ¬k < 4 := by omega
    rw [if_neg hle, testBit_toNat_of_ge (by omega)]
    simp [hk]

theorem withHighBits_nibble (b : UInt8) :
    (withHighBits b lba).toNat % 16 = lba / 2 ^ 24 % 2 ^ 4 := by
  apply Nat.eq_of_testBit_eq
  intro k
  have hsixteen : (16 : ℕ) = 2 ^ 4 := by decide
  rw [hsixteen, Nat.testBit_mod_two_pow, Nat.testBit_mod_two_pow, testBit_withHighBits]
  by_cases hk : k < 4
  · rw [if_pos hk]
  · simp [hk]

/-- The address of a 48-bit command. -/
theorem lba48_withAddress48 : (withAddress48 c lba).lba48 = lba % 2 ^ 48 := by
  simp only [Channel.lba48, withAddress48, toNat_byte]
  omega

/-- A 28-bit command takes the three lower bytes, and the drive/head register as
it is. -/
theorem lba28_withAddress48 :
    (withAddress48 c lba).lba28 = lba % 2 ^ 24 + 2 ^ 24 * (c.driveHead.toNat % 16) := by
  simp only [Channel.lba28, withAddress48, toNat_byte]
  omega

/-- The address of a 28-bit command. -/
theorem lba28_withAddress28 : (withAddress28 c lba).lba28 = lba % 2 ^ 28 := by
  simp only [Channel.lba28, withAddress28, TwoDeep.push, toNat_byte, withHighBits_nibble]
  omega

theorem selected_withAddress28 : (withAddress28 c lba).selected = c.selected := by
  simp [Channel.selected, withAddress28, testBit_withHighBits]

theorem usesLba_withAddress28 : (withAddress28 c lba).usesLba = c.usesLba := by
  simp [Channel.usesLba, withAddress28, testBit_withHighBits]

theorem selected_withSelected (c : Channel) (drive : Fin 2) :
    (withSelected c drive true).selected = drive := by
  have hselect : ∀ drive : Fin 2,
      (if (selectByte drive true).toNat.testBit 4 then 1 else 0) = drive := by decide
  exact hselect drive

theorem usesLba_withSelected (c : Channel) (drive : Fin 2) :
    (withSelected c drive true).usesLba = true := by
  have hbit : ∀ drive : Fin 2, (selectByte drive true).toNat.testBit 6 = true := by decide
  exact hbit drive

/-- What a 28-bit command addresses after the setup. -/
def address28 (drive : PhysicalIDEDrive) (lba : ℕ) : ℕ :=
  lba % 2 ^ (if drive.uses48BitsMode then 24 else 28)

/-- The drive is selected, and its address and count are in the registers. -/
structure Addressed (drive : PhysicalIDEDrive) (lba : ℕ) (count : UInt8) (c e : Channel) :
    Prop where
  idle : e.Idle
  devices : e.devices = c.devices
  delays : e.delays = c.delays
  selected : e.selected = drive.driveInChannel
  usesLba : e.usesLba = true
  lba28 : e.lba28 = address28 drive lba
  lba48 : drive.uses48BitsMode = true → e.lba48 = lba % 2 ^ 48
  countLast : e.sectorCount.last = count
  countPrevious : drive.uses48BitsMode = true → e.sectorCount.previous = 0

/-- The registers after the setup. -/
def prepared (drive : PhysicalIDEDrive) (lba : ℕ) (count : UInt8) (c : Channel) : Channel :=
  if drive.uses48BitsMode then
    withCount (withAddress48 (withSelected c drive.driveInChannel true) lba) ⟨count, 0⟩
  else
    withCount (withAddress28 (withSelected c drive.driveInChannel true) lba)
      (c.sectorCount.push count)

theorem setupRw48Bits_set (hidle : c.Idle) (hlba : drive.supportsLba = true) :
    setupRw48Bits drive (getIdeController drive.channel) lba count (bus.set drive.channel c) =
      some (bus.set drive.channel (prepared drive lba count c)) := by
  have hselected : (withSelected c drive.driveInChannel true).Idle := hidle
  have hfilled48 : (withAddress48 (withSelected c drive.driveInChannel true) lba).Idle := hidle
  have hfilled28 : (withAddress28 (withSelected c drive.driveInChannel true) lba).Idle := hidle
  unfold setupRw48Bits
  rw [hlba, ideSelectDrive_set hidle]
  cases hmode : drive.uses48BitsMode with
  | true =>
      simp [prepared, hmode, fillAddress48Bits_set hselected,
        writeSectorCountRegister48_set hfilled48]
  | false =>
      simp only [Bool.false_eq_true, if_false, if_true, Option.bind_eq_bind, Option.bind_some]
      rw [fillAddress28Bits_set hselected, writeSectorCountRegister_set hfilled28, prepared, hmode]
      rfl

theorem addressed_prepared (drive : PhysicalIDEDrive) (hidle : c.Idle) (lba : ℕ) (count : UInt8) :
    Addressed drive lba count c (prepared drive lba count c) := by
  unfold prepared
  cases hmode : drive.uses48BitsMode with
  | true =>
      have hnibble : (withSelected c drive.driveInChannel true).driveHead.toNat % 16 = 0 :=
        selectByte_nibble drive.driveInChannel true
      have haddress : (withAddress48 (withSelected c drive.driveInChannel true) lba).lba28 =
          address28 drive lba := by
        rw [lba28_withAddress48, hnibble, address28, hmode]
        rfl
      exact {
        idle := hidle
        devices := rfl
        delays := rfl
        selected := selected_withSelected c drive.driveInChannel
        usesLba := usesLba_withSelected c drive.driveInChannel
        lba28 := haddress
        lba48 := fun _ => lba48_withAddress48 (c := withSelected c drive.driveInChannel true)
        countLast := rfl
        countPrevious := fun _ => rfl }
  | false =>
      have haddress : (withAddress28 (withSelected c drive.driveInChannel true) lba).lba28 =
          address28 drive lba := by
        rw [lba28_withAddress28, address28, hmode]
        rfl
      exact {
        idle := hidle
        devices := rfl
        delays := rfl
        selected := selected_withAddress28.trans (selected_withSelected c drive.driveInChannel)
        usesLba := usesLba_withAddress28.trans (usesLba_withSelected c drive.driveInChannel)
        lba28 := haddress
        lba48 := fun h => absurd h (by simp [hmode])
        countLast := rfl
        countPrevious := fun h => absurd h (by simp [hmode]) }

end StorageIDECompatibilityDriver

end AviKernel
