import AviKernel.Drivers.IdeTransfers

/-!
# Reads and writes of the same sectors

A request is for the sectors from `lba` on.  Reads and writes serve it, and what
was written is read back, as long as a 28-bit command with the registers as they
are set up reaches `lba`.
-/

namespace AviKernel

open Ata

namespace StorageIDECompatibilityDriver

variable {drives : List PhysicalIDEDrive} {polls : ℕ} {number : ℤ} {drive : PhysicalIDEDrive}
  {d : Device} {lba : ℕ} {count : UInt8} {bus : Bus}

/-- The device executes reads and writes on the sectors of the request, and a
read after a write has the data. -/
structure SameSectors (drives : List PhysicalIDEDrive) (polls : ℕ) (number : ℤ)
    (drive : PhysicalIDEDrive) (d : Device) (lba : ℕ) (count : UInt8) (bus : Bus) : Prop where
  reads : ∀ buffer pos, ∃ bus', readSectors drives polls number lba count buffer pos bus =
      some (splice buffer pos (count.toNat * sectorSize)
        fun j => d.image (lba * sectorSize + j), bus') ∧
    Ready polls drive (d.access ⟨.read, lba, count.toNat⟩) bus' ∧
    (fun i => (bus'.channel i).devices) =
      devicesWith bus drive (d.access ⟨.read, lba, count.toNat⟩)
  writes : ∀ buffer pos, ∃ bus', writeSectors drives polls number lba count buffer pos bus =
      some bus' ∧
    Ready polls drive
      ((d.access ⟨.write, lba, count.toNat⟩).store lba count.toNat buffer pos) bus' ∧
    (fun i => (bus'.channel i).devices) =
      devicesWith bus drive ((d.access ⟨.write, lba, count.toNat⟩).store lba count.toNat buffer pos)
  returns : ∀ written from' buffer pos, ∃ bus' bus'',
    writeSectors drives polls number lba count written from' bus = some bus' ∧
    readSectors drives polls number lba count buffer pos bus' =
      some (splice buffer pos (count.toNat * sectorSize) fun j => written (from' + j), bus'')

/-- A 28-bit command reaches the sector. -/
def Addressable (drive : PhysicalIDEDrive) (lba : ℕ) : Prop :=
  lba < 2 ^ (if drive.uses48BitsMode then 24 else 28)

theorem address28_eq_iff : address28 drive lba = lba ↔ Addressable drive lba := by
  unfold address28 Addressable
  constructor
  · intro heq
    rw [← heq]
    exact Nat.mod_lt _ (Nat.two_pow_pos _)
  · exact Nat.mod_eq_of_lt

theorem writeAddress_eq (h : Addressable drive lba) : writeAddress drive lba = lba := by
  unfold writeAddress
  apply Nat.mod_eq_of_lt
  refine lt_of_lt_of_le h (Nat.pow_le_pow_right (by decide) ?_)
  split_ifs <;> decide

theorem sameSectors_of_addressable (hdrive : Vector.get drives number = some drive)
    (hlba : drive.supportsLba = true) (hready : Ready polls drive d bus) (hcount : count ≠ 0)
    (hrange : lba + count.toNat ≤ drive.numberOfSectors) (h : Addressable drive lba) :
    SameSectors drives polls number drive d lba count bus where
  reads buffer pos := by
    have hread := readSectors_spec buffer pos hdrive hlba hready hcount hrange
    rwa [address28_eq_iff.mpr h] at hread
  writes buffer pos := by
    have hwrite := writeSectors_spec buffer pos hdrive hlba hready hcount hrange
    rwa [writeAddress_eq h] at hwrite
  returns written from' buffer pos := by
    obtain ⟨bus', hwrite, hready', -⟩ :=
      writeSectors_spec written from' hdrive hlba hready hcount hrange
    obtain ⟨bus'', hread, -⟩ := readSectors_spec buffer pos hdrive hlba hready' hcount hrange
    refine ⟨bus', bus'', hwrite, ?_⟩
    rw [hread, address28_eq_iff.mpr h, writeAddress_eq h]
    congr 2
    apply splice_congr
    intro j hj
    have hput : splice d.image (lba * sectorSize) (count.toNat * sectorSize)
        (fun i => written (from' + i)) (lba * sectorSize + j) = written (from' + j) := splice_add hj
    exact hput

theorem addressable_of_sameSectors (hdrive : Vector.get drives number = some drive)
    (hlba : drive.supportsLba = true) (hready : Ready polls drive d bus) (hcount : count ≠ 0)
    (hrange : lba + count.toNat ≤ drive.numberOfSectors)
    (h : SameSectors drives polls number drive d lba count bus) : Addressable drive lba := by
  obtain ⟨bus', hread, hready', -⟩ := h.reads (fun _ => 0) 0
  obtain ⟨bus'', hspec, hready'', -⟩ :=
    readSectors_spec (fun _ => 0) 0 hdrive hlba hready hcount hrange
  rw [hspec] at hread
  have hbus : bus'' = bus' := congrArg Prod.snd (Option.some.inj hread)
  rw [hbus] at hready''
  have hdevice := hready'.device
  rw [hready''.device] at hdevice
  have haccesses := congrArg Device.accesses (Option.some.inj hdevice)
  have haccess : (⟨.read, address28 drive lba, count.toNat⟩ : Access) = ⟨.read, lba, count.toNat⟩ :=
    (List.cons.inj haccesses).1
  exact address28_eq_iff.mp (congrArg Access.lba haccess)

theorem sameSectors_iff (hdrive : Vector.get drives number = some drive)
    (hlba : drive.supportsLba = true) (hready : Ready polls drive d bus) (hcount : count ≠ 0)
    (hrange : lba + count.toNat ≤ drive.numberOfSectors) :
    SameSectors drives polls number drive d lba count bus ↔ Addressable drive lba := by
  constructor
  · exact addressable_of_sameSectors hdrive hlba hready hcount hrange
  · exact sameSectors_of_addressable hdrive hlba hready hcount hrange

/-- A bus with one drive, the master of the primary channel. -/
def busWith (d : Device) : Bus where
  channel i :=
    { sectorCount := ⟨0, 0⟩
      lbaLow := ⟨0, 0⟩
      lbaMid := ⟨0, 0⟩
      lbaHigh := ⟨0, 0⟩
      driveHead := 0xA0
      control := 2
      devices := fun k => if i = 0 ∧ k = 0 then some d else none
      transfer := none
      aborted := false
      busy := 0
      delays := fun _ => 1 }

/-- A drive in the 48-bit mode, the master of the primary channel. -/
def wideDrive (sectors : ℕ) : PhysicalIDEDrive := ⟨0, 0, true, true, sectors, fun _ => rfl⟩

def wideDevice (sectors : ℕ) : Device := ⟨sectors, true, fun _ => 0, []⟩

theorem ready_busWith (sectors : ℕ) :
    Ready 2 (wideDrive sectors) (wideDevice sectors) (busWith (wideDevice sectors)) where
  device := rfl
  sectors := rfl
  supports48 := rfl
  idle := ⟨rfl, rfl⟩
  delays := fun _ => Nat.one_lt_two

theorem sameSectors_iff_small :
    SameSectors [wideDrive 8] 2 0 (wideDrive 8) (wideDevice 8) 3 4 (busWith (wideDevice 8)) ↔
      Addressable (wideDrive 8) 3 :=
  sameSectors_iff rfl rfl (ready_busWith 8) (by decide) (by decide)

/-- The sector `2 ^ 24` is written, but the sector 0 is read. -/
theorem not_sameSectors : ¬∀ drives polls number drive d lba (count : UInt8) bus,
    Vector.get drives number = some drive → drive.supportsLba = true →
    Ready polls drive d bus → count ≠ 0 → lba + count.toNat ≤ drive.numberOfSectors →
      SameSectors drives polls number drive d lba count bus := by
  intro h
  have hsame := h [wideDrive (2 ^ 24 + 1)] 2 0 (wideDrive (2 ^ 24 + 1))
    (wideDevice (2 ^ 24 + 1)) (2 ^ 24) 1 (busWith (wideDevice (2 ^ 24 + 1))) rfl rfl
    (ready_busWith (2 ^ 24 + 1)) (by decide) (by decide)
  have haddressable := addressable_of_sameSectors rfl rfl (ready_busWith (2 ^ 24 + 1)) (by decide)
    (by decide) hsame
  exact absurd haddressable (lt_irrefl (2 ^ 24))

end StorageIDECompatibilityDriver

end AviKernel
