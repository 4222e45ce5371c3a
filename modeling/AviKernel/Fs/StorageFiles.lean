import AviKernel.Fs.StorageCalls
import AviKernel.Drivers.IdeSectors

/-!
# Drive files over the registers of a controller

The driver for IDE answers the calls for sectors as a drive that is its sectors does, as long as
they are within the drive and a 28-bit command reaches them.  So reads and writes of a drive file
that go through the registers of a controller are reads and writes of the bytes of the device.
-/

namespace AviKernel

open Ata

instance (allocated : ℕ → Option Buffer) (count offset : ℕ) :
    Decidable (Drive.CanUpdate allocated count offset) :=
  inferInstanceAs (Decidable (_ ∧ (_ → _)))

/-- A read or a write of a drive file. -/
inductive DriveCall
  | read (allocated : ℕ → Option Buffer) (count offset : ℕ) (buf : Buffer)
  | write (allocated : ℕ → Option Buffer) (count offset : ℕ) (buf : Buffer)

namespace DriveCall

/-- The sectors it asks a drive of so many bytes for. -/
def program (sizeBy : ℕ) : DriveCall → Sectors (Except Errno Buffer)
  | read allocated count offset buf => Sectors.storageRead allocated count offset buf
  | write allocated count offset buf => Sectors.storageWrite sizeBy allocated count offset buf

/-- The end of the range, which is exclusive. -/
def ending : DriveCall → ℕ
  | read _ count offset _ => offset + count
  | write _ count offset _ => offset + count

/-- The error of a call that a drive of so many sectors does not serve. -/
def refused (sectors : ℕ) : DriveCall → Option Errno
  | read allocated _ _ _ => if (allocated 0).isSome then none else some .ENOMEM
  | write allocated count offset _ =>
      if sectors * sectorSize < offset + count then some .ENOSPC
      else if Drive.CanUpdate allocated count offset then none
      else some .ENOMEM

/-- The buffer of the caller after it is served. -/
def buffer (image : Buffer) : DriveCall → Buffer
  | read _ count offset buf => splice buf 0 count fun i => image (offset + i)
  | write _ _ _ buf => buf

/-- The contents after it is served. -/
def update (image : Buffer) : DriveCall → Buffer
  | read _ _ _ _ => image
  | write _ count offset buf => splice image offset count buf

def result (sectors : ℕ) (image : Buffer) (c : DriveCall) : Except Errno Buffer :=
  match c.refused sectors with
  | none => .ok (c.buffer image)
  | some e => .error e

def contents (sectors : ℕ) (image : Buffer) (c : DriveCall) : Buffer :=
  match c.refused sectors with
  | none => c.update image
  | some _ => image

/-- The call is none of those that go wrong for their length. -/
def Ordinary : DriveCall → Prop
  | read _ count _ _ => count < 2 ^ 31
  | write _ count offset _ => Drive.sectorsBetween count offset ≤ 255

end DriveCall

namespace Drive

variable {d : Drive} {c : DriveCall} {e : Errno}

/-- A call that is refused asks for no sectors. -/
theorem exec_refused (hc : c.refused d.sectors = some e) (hword : c.ending < 2 ^ 64) :
    (c.program d.getSizeBy).exec answer d = some (.error e, d) := by
  cases c with
  | read allocated count offset buf =>
      rw [DriveCall.refused, ite_eq_iff] at hc
      obtain ⟨-, hc⟩ | ⟨hnew, hc⟩ := hc
      · cases hc
      · cases hc
        refine exec_storageRead.trans ?_
        rw [storageRead_enomem hnew]
        rfl
  | write allocated count offset buf =>
      refine exec_storageWrite.trans ?_
      rw [DriveCall.refused, ite_eq_iff] at hc
      obtain ⟨hspace, hc⟩ | ⟨hspace, hc⟩ := hc
      · cases hc
        have hlong : add64 offset count > d.getSizeBy := by
          rw [add64_of_lt hword, getSizeBy, mul64_of_lt d.fits]
          exact hspace
        rw [storageWrite, if_pos hlong]
        rfl
      · rw [ite_eq_iff] at hc
        obtain ⟨-, hc⟩ | ⟨hnew, hc⟩ := hc
        · cases hc
        · cases hc
          rw [storageWrite_enomem hnew (not_lt.mp hspace)]
          rfl

theorem exec_served (hc : c.refused d.sectors = none) (hord : c.Ordinary)
    (hfits : c.ending < d.sectors * sectorSize) :
    ∃ d', (c.program d.getSizeBy).exec answer d = some (.ok (c.buffer d.image), d') ∧
      d'.image = c.update d.image ∧ UpTo (c.ending / sectorSize + 1) d d' := by
  cases c with
  | read allocated count offset buf =>
      have hnew : (allocated 0).isSome := by
        by_contra hnone
        cases (if_neg hnone).symm.trans hc
      obtain ⟨d', temp, hread, -, himage, -⟩ := storageRead_spec buf hnew hord hfits.le
      obtain ⟨buf₁, d₁, temp₁, hread₁, hreaches⟩ :=
        @storageRead_reaches d count offset buf allocated hnew hfits.le
      rw [hread] at hread₁
      cases hread₁
      refine ⟨d', ?_, himage, hreaches.upTo⟩
      refine exec_storageRead.trans ?_
      rw [hread]
      rfl
  | write allocated count offset buf =>
      have hnew : CanUpdate allocated count offset := by
        by_contra hnone
        cases ((if_neg hfits.le.not_gt).trans (if_neg hnone)).symm.trans hc
      obtain ⟨buf', d', hwrite, -, hiff⟩ := storageWrite_spec buf hnew.1 hnew.2 hfits.le
      obtain ⟨himage, rfl⟩ := hiff.mpr (Or.inl hord)
      obtain ⟨buf₁, d₁, hwrite₁, hreaches⟩ :=
        @storageWrite_reaches d count offset buf' allocated hnew hfits.le
      rw [hwrite] at hwrite₁
      cases hwrite₁
      refine ⟨d', ?_, himage, hreaches.upTo⟩
      refine exec_storageWrite.trans ?_
      rw [hwrite]
      rfl

end Drive

namespace StorageIDECompatibilityDriver

/-- What the driver answers to the calls for one of its drives. -/
def answer (drives : List PhysicalIDEDrive) (polls : ℕ) (number : ℤ) (bus : Bus) :
    SectorCall → Option (Buffer × Bus)
  | .read lba count buffer pos =>
      readSectors drives polls number lba (UInt8.ofNat count) buffer pos bus
  | .write lba count buffer pos =>
      (writeSectors drives polls number lba (UInt8.ofNat count) buffer pos bus).map fun bus =>
        (buffer, bus)

variable {drives : List PhysicalIDEDrive} {polls : ℕ} {number : ℤ} {drive : PhysicalIDEDrive}
  {e : Device} {d : Drive} {start bus : Bus} {q : SectorCall} {c : DriveCall}
  {cs : List DriveCall} {lba count pos : ℕ} {buffer : Buffer}

/-- The device has the sectors of the drive, and the other devices are as they were. -/
structure Backs (polls : ℕ) (drive : PhysicalIDEDrive) (start : Bus) (d : Drive) (bus : Bus)
    (e : Device) : Prop where
  ready : Ready polls drive e bus
  devices : (fun i => (bus.channel i).devices) = devicesWith start drive e
  sectors : d.sectors = drive.numberOfSectors
  image : ∀ a < d.sectors * AviKernel.sectorSize, e.image a = d.image a

/-- The sectors of a call are on the drive, and a 28-bit command reaches them. -/
def Reachable (drive : PhysicalIDEDrive) (r : ℕ × ℕ) : Prop :=
  r.2 ≠ 0 → r.1 + r.2 ≤ drive.numberOfSectors ∧ Addressable drive r.1

theorem devicesWith_self (h : (bus.channel drive.channel).devices drive.driveInChannel = some e) :
    devicesWith bus drive e = fun i => (bus.channel i).devices := by
  unfold devicesWith
  rw [← h, Function.update_eq_self]
  exact Function.update_eq_self drive.channel fun i => (bus.channel i).devices

theorem devicesWith_again {e' : Device}
    (h : (fun i => (bus.channel i).devices) = devicesWith start drive e) :
    devicesWith bus drive e' = devicesWith start drive e' := by
  have hchannel (i : Fin 2) : (bus.channel i).devices = devicesWith start drive e i :=
    congrFun h i
  funext i
  unfold devicesWith
  by_cases hi : i = drive.channel
  · subst hi
    rw [Function.update_self, Function.update_self, hchannel, devicesWith, Function.update_self,
      Function.update_idem]
  · rw [Function.update_of_ne hi, Function.update_of_ne hi, hchannel, devicesWith,
      Function.update_of_ne hi]

theorem toNat_count : (UInt8.ofNat count).toNat = count % 2 ^ 8 := UInt8.toNat_ofNat'

theorem count_eq_zero_iff : UInt8.ofNat count = 0 ↔ count % 2 ^ 8 = 0 := by
  rw [← UInt8.toNat_inj, toNat_count]
  rfl

theorem Backs.none (h : Backs polls drive start d bus e) (hq : q.sectors.2 = 0) :
    ∃ r d', d.answer q = some (r, d') ∧ answer drives polls number bus q = some (r, bus) ∧
      Backs polls drive start d' bus e := by
  cases q with
  | read lba count buffer pos =>
      have hzero : count % 2 ^ 8 = 0 := hq
      refine ⟨buffer, { d with requests := (lba, 0) :: d.requests }, ?_, ?_,
        ⟨h.ready, h.devices, h.sectors, h.image⟩⟩
      · rw [Drive.answer, Drive.readSectors]
        exact congrArg some (if_pos hzero)
      · exact if_pos (count_eq_zero_iff.mpr hzero)
  | write lba count buffer pos =>
      have hzero : count % 2 ^ 8 = 0 := hq
      refine ⟨buffer, { d with requests := (lba, 0) :: d.requests }, ?_, ?_,
        ⟨h.ready, h.devices, h.sectors, h.image⟩⟩
      · rw [Drive.answer, Drive.writeSectors]
        exact congrArg (fun d => some (buffer, d)) (if_pos hzero)
      · rw [answer, writeSectors, if_pos (count_eq_zero_iff.mpr hzero)]
        rfl

theorem Backs.read (h : Backs polls drive start d bus e)
    (hdrive : Vector.get drives number = some drive) (hlba : drive.supportsLba = true)
    (hcount : count % 2 ^ 8 ≠ 0) (hrange : lba + count % 2 ^ 8 ≤ drive.numberOfSectors)
    (haddress : Addressable drive lba) :
    ∃ r d' bus' e', d.answer (.read lba count buffer pos) = some (r, d') ∧
      answer drives polls number bus (.read lba count buffer pos) = some (r, bus') ∧
      Backs polls drive start d' bus' e' := by
  have hne : UInt8.ofNat count ≠ 0 := mt count_eq_zero_iff.mp hcount
  obtain ⟨bus', hread, hready, hdevices⟩ := readSectors_spec buffer pos hdrive hlba h.ready hne
    (by rwa [toNat_count])
  rw [address28_eq_iff.mpr haddress, toNat_count] at hread hready hdevices
  refine ⟨splice buffer pos (count % 2 ^ 8 * AviKernel.sectorSize)
      fun i => d.image (lba * AviKernel.sectorSize + i),
    { d with requests := (lba, count % 2 ^ 8) :: d.requests }, bus',
    e.access ⟨.read, lba, count % 2 ^ 8⟩, ?_, ?_, hready,
    hdevices.trans (devicesWith_again h.devices), h.sectors, h.image⟩
  · rw [Drive.answer, Drive.readSectors]
    exact congrArg some (if_neg hcount)
  · rw [answer, hread]
    congr 2
    refine splice_congr fun i hi => ?_
    apply h.image
    rw [h.sectors]
    calc lba * sectorSize + i < (lba + count % 2 ^ 8) * sectorSize := by
          rw [Nat.add_mul]
          exact Nat.add_lt_add_left hi _
      _ ≤ drive.numberOfSectors * sectorSize := Nat.mul_le_mul_right _ hrange

theorem Backs.write (h : Backs polls drive start d bus e)
    (hdrive : Vector.get drives number = some drive) (hlba : drive.supportsLba = true)
    (hcount : count % 2 ^ 8 ≠ 0) (hrange : lba + count % 2 ^ 8 ≤ drive.numberOfSectors)
    (haddress : Addressable drive lba) :
    ∃ r d' bus' e', d.answer (.write lba count buffer pos) = some (r, d') ∧
      answer drives polls number bus (.write lba count buffer pos) = some (r, bus') ∧
      Backs polls drive start d' bus' e' := by
  have hne : UInt8.ofNat count ≠ 0 := mt count_eq_zero_iff.mp hcount
  obtain ⟨bus', hwrite, hready, hdevices⟩ := writeSectors_spec buffer pos hdrive hlba h.ready hne
    (by rwa [toNat_count])
  rw [writeAddress_eq haddress, toNat_count] at hready hdevices
  refine ⟨buffer, d.writeSectors lba count buffer pos, bus', _, rfl, ?_, hready,
    hdevices.trans (devicesWith_again h.devices), ?_, fun a ha => ?_⟩
  · rw [answer, hwrite]
    rfl
  · rw [Drive.writeSectors_sectors]
    exact h.sectors
  · rw [Drive.writeSectors_sectors] at ha
    have himage : (d.writeSectors lba count buffer pos).image a =
        if a < d.sectors * AviKernel.sectorSize then
          splice d.image (lba * AviKernel.sectorSize) (count % 2 ^ 8 * AviKernel.sectorSize)
            (fun i => buffer (pos + i)) a
        else d.image a := by
      rw [Drive.writeSectors, if_neg hcount]
    rw [himage, if_pos ha, Device.store, Device.access_image]
    by_cases hmem : lba * bytesPerSector ≤ a ∧
        a < lba * bytesPerSector + count % 2 ^ 8 * bytesPerSector
    · exact (if_pos hmem).trans (if_pos hmem).symm
    · exact (if_neg hmem).trans ((h.image a ha).trans (if_neg hmem).symm)

section Drives

variable (hdrive : Vector.get drives number = some drive) (hlba : drive.supportsLba = true)
include hdrive hlba

theorem Backs.call (h : Backs polls drive start d bus e) (hq : Reachable drive q.sectors) :
    ∃ r d' bus' e', d.answer q = some (r, d') ∧ answer drives polls number bus q = some (r, bus') ∧
      Backs polls drive start d' bus' e' := by
  by_cases hzero : q.sectors.2 = 0
  · obtain ⟨r, d', hd, hbus, hbacks⟩ : ∃ r d', d.answer q = some (r, d') ∧
        answer drives polls number bus q = some (r, bus) ∧ Backs polls drive start d' bus e :=
      h.none hzero
    exact ⟨r, d', bus, e, hd, hbus, hbacks⟩
  · obtain ⟨hrange, haddress⟩ := hq hzero
    cases q with
    | read lba count buffer pos => exact h.read hdrive hlba hzero hrange haddress
    | write lba count buffer pos => exact h.write hdrive hlba hzero hrange haddress

/-- What a program makes of a drive it makes of the device, as long as its calls are for
sectors of it. -/
theorem Backs.exec {α : Type} {p : Sectors α} (h : Backs polls drive start d bus e)
    (hp : p.Admits Drive.answer (fun _ q => Reachable drive q.sectors) d) :
    ∃ a d' bus' e', p.exec Drive.answer d = some (a, d') ∧
      p.exec (answer drives polls number) bus = some (a, bus') ∧
      Backs polls drive start d' bus' e' := by
  have hcall : ∀ d bus q, (∃ e, Backs polls drive start d bus e) → Reachable drive q.sectors →
      ∃ r d' bus', d.answer q = some (r, d') ∧ answer drives polls number bus q = some (r, bus') ∧
        ∃ e', Backs polls drive start d' bus' e' := by
    rintro d bus q ⟨e, he⟩ hq
    obtain ⟨r, d', bus', e', hd, hbus, hbacks⟩ := he.call hdrive hlba hq
    exact ⟨r, d', bus', hd, hbus, e', hbacks⟩
  obtain ⟨a, d', bus', hd, hbus, e', hbacks⟩ :=
    Program.exec_represents (R := fun d bus => ∃ e, Backs polls drive start d bus e) hcall
      ⟨e, h⟩ hp
  exact ⟨a, d', bus', e', hd, hbus, hbacks⟩

end Drives

/-- The call is ordinary, and if it is served, all sectors it asks for are within the drive and
reached by a 28-bit command. -/
structure InReach (drive : PhysicalIDEDrive) (c : DriveCall) : Prop where
  ordinary : c.Ordinary
  word : c.ending < 2 ^ 64
  within : c.refused drive.numberOfSectors = none →
    c.ending < drive.numberOfSectors * AviKernel.sectorSize ∧
      Addressable drive (c.ending / AviKernel.sectorSize)

theorem InReach.reachable (h : InReach drive c) (hc : c.refused drive.numberOfSectors = none)
    {r : ℕ × ℕ} (hr : r.1 + r.2 ≤ c.ending / AviKernel.sectorSize + 1) : Reachable drive r := by
  intro hzero
  obtain ⟨hwithin, haddress⟩ := h.within hc
  have hlast : c.ending / AviKernel.sectorSize < drive.numberOfSectors :=
    (Nat.div_lt_iff_lt_mul (by decide)).mpr hwithin
  refine ⟨by omega, ?_⟩
  exact lt_of_le_of_lt (by omega) haddress

/-- What a call makes of a drive that is its sectors. -/
theorem InReach.exec (h : InReach drive c) (hsectors : d.sectors = drive.numberOfSectors) :
    ∃ d' new, (c.program d.getSizeBy).exec Drive.answer d =
        some (c.result drive.numberOfSectors d.image, d') ∧
      d'.image = c.contents drive.numberOfSectors d.image ∧
      d'.requests = new ++ d.requests ∧ ∀ r ∈ new, Reachable drive r := by
  unfold DriveCall.result DriveCall.contents
  cases hc : c.refused drive.numberOfSectors with
  | none =>
      obtain ⟨d', hd, himage, new, hnew, hall⟩ := Drive.exec_served (hsectors.symm ▸ hc) h.ordinary
        (hsectors.symm ▸ (h.within hc).1)
      exact ⟨d', new, hd, himage, hnew, fun r hr => h.reachable hc (hall r hr)⟩
  | some e =>
      have hd := Drive.exec_refused (hsectors.symm ▸ hc) h.word
      exact ⟨d, [], hd, rfl, rfl, fun r hr => absurd hr List.not_mem_nil⟩

/-- A call for a drive file, over the registers of the controller. -/
def driveCall (drives : List PhysicalIDEDrive) (polls : ℕ) (number : ℤ) (sizeBy : ℕ) (c : DriveCall)
    (bus : Bus) : Option (Except Errno Buffer × Bus) :=
  (c.program sizeBy).exec (answer drives polls number) bus

def driveCalls (drives : List PhysicalIDEDrive) (polls : ℕ) (number : ℤ) (sizeBy : ℕ) :
    List DriveCall → Bus → Option (List (Except Errno Buffer) × Bus)
  | [], bus => some ([], bus)
  | c :: cs, bus =>
      (driveCall drives polls number sizeBy c bus).bind fun r =>
        (driveCalls drives polls number sizeBy cs r.2).map fun rs => (r.1 :: rs.1, rs.2)

/-- What an array of bytes has for the calls. -/
def results (sectors : ℕ) : List DriveCall → Buffer → List (Except Errno Buffer)
  | [], _ => []
  | c :: cs, image => c.result sectors image :: results sectors cs (c.contents sectors image)

section Files

variable (hdrive : Vector.get drives number = some drive) (hlba : drive.supportsLba = true)
include hdrive hlba

theorem driveCall_backs (h : Backs polls drive start d bus e) (hc : InReach drive c) :
    ∃ d' bus' e', driveCall drives polls number d.getSizeBy c bus =
        some (c.result drive.numberOfSectors d.image, bus') ∧
      Backs polls drive start d' bus' e' ∧
      d'.image = c.contents drive.numberOfSectors d.image := by
  obtain ⟨d', new, hd, himage, hnew, hall⟩ := hc.exec h.sectors
  have hadmits : (c.program d.getSizeBy).Admits Drive.answer
      (fun _ q => Reachable drive q.sectors) d :=
    Program.admits_of_record (P := Reachable drive) Drive.answer_requests hd hnew hall
  obtain ⟨a, d₁, bus', e', hd₁, hbus, hbacks⟩ := h.exec hdrive hlba hadmits
  rw [hd] at hd₁
  cases hd₁
  exact ⟨d', bus', e', hbus, hbacks, himage⟩

theorem driveCalls_backs (h : Backs polls drive start d bus e) (hcs : ∀ c ∈ cs, InReach drive c) :
    ∃ d' bus' e', driveCalls drives polls number d.getSizeBy cs bus =
        some (results drive.numberOfSectors cs d.image, bus') ∧
      Backs polls drive start d' bus' e' ∧
      d'.image = cs.foldl (DriveCall.contents drive.numberOfSectors) d.image := by
  induction cs generalizing d bus e with
  | nil => exact ⟨d, bus, e, rfl, h, rfl⟩
  | cons c cs ih =>
      obtain ⟨hc, hcs⟩ := List.forall_mem_cons.mp hcs
      obtain ⟨d', bus', e', hcall, hbacks, himage⟩ := driveCall_backs hdrive hlba h hc
      obtain ⟨d'', bus'', e'', hcalls, hbacks', himage'⟩ := ih hbacks hcs
      have hsizes : d'.getSizeBy = d.getSizeBy := by
        rw [Drive.getSizeBy, Drive.getSizeBy, hbacks.sectors, h.sectors]
      refine ⟨d'', bus'', e'', ?_, hbacks', ?_⟩
      · rw [driveCalls, hcall, Option.bind_some, ← hsizes, hcalls, himage]
        rfl
      · rw [himage', himage]
        rfl

/-- A drive file over the registers is an array of bytes.  Each call has the result that the bytes
give, the device has the bytes that the calls leave, and no other device is touched. -/
theorem driveCalls_spec (hsize : drive.numberOfSectors * AviKernel.sectorSize < 2 ^ 64)
    (hready : Ready polls drive e bus) (hcs : ∀ c ∈ cs, InReach drive c) :
    ∃ bus' e', driveCalls drives polls number
          (mul64 drive.numberOfSectors AviKernel.sectorSize) cs bus =
        some (results drive.numberOfSectors cs e.image, bus') ∧
      Ready polls drive e' bus' ∧
      (fun i => (bus'.channel i).devices) = devicesWith bus drive e' ∧
      ∀ a < drive.numberOfSectors * AviKernel.sectorSize,
        e'.image a = cs.foldl (DriveCall.contents drive.numberOfSectors) e.image a := by
  have hbacks : Backs polls drive bus ⟨drive.numberOfSectors, e.image, [], hsize⟩ bus e :=
    ⟨hready, (devicesWith_self hready.device).symm, rfl, fun _ _ => rfl⟩
  obtain ⟨d', bus', e', hcalls, hbacks', himage⟩ := driveCalls_backs hdrive hlba hbacks hcs
  refine ⟨bus', e', hcalls, hbacks'.ready, hbacks'.devices, fun a ha => ?_⟩
  rw [← himage]
  exact hbacks'.image a (hbacks'.sectors.symm ▸ ha)

end Files

/-- A range over two sectors is written and read back, and a write is too long. -/
def wideCalls : List DriveCall :=
  [.write DevFS.sevens 600 100 fun i => UInt8.ofNat i, .read DevFS.sevens 600 100 fun _ => 3,
    .write DevFS.sevens 600 4000 fun _ => 3]

theorem inReach_wideCalls : ∀ c ∈ wideCalls, InReach (wideDrive 8) c := by
  have haddress : Addressable (wideDrive 8) (700 / AviKernel.sectorSize) := by
    unfold Addressable
    decide
  refine List.forall_mem_cons.mpr ⟨?_, List.forall_mem_cons.mpr ⟨?_,
    List.forall_mem_singleton.mpr ?_⟩⟩
  · exact ⟨show Drive.sectorsBetween 600 100 ≤ 255 by decide, by decide, fun _ =>
      ⟨by decide, haddress⟩⟩
  · exact ⟨show 600 < 2 ^ 31 by decide, by decide, fun _ => ⟨by decide, haddress⟩⟩
  · refine ⟨show Drive.sectorsBetween 600 4000 ≤ 255 by decide, by decide, fun hserved => ?_⟩
    have hlong : (wideDrive 8).numberOfSectors * AviKernel.sectorSize < 4000 + 600 := by decide
    rw [DriveCall.refused, if_pos hlong] at hserved
    cases hserved

theorem driveCalls_spec_wideCalls :
    ∃ bus' e', driveCalls [wideDrive 8] 2 0 (mul64 (wideDrive 8).numberOfSectors
          AviKernel.sectorSize) wideCalls (busWith (wideDevice 8)) =
        some (results (wideDrive 8).numberOfSectors wideCalls (wideDevice 8).image, bus') ∧
      Ready 2 (wideDrive 8) e' bus' ∧
      (fun i => (bus'.channel i).devices) =
        devicesWith (busWith (wideDevice 8)) (wideDrive 8) e' ∧
      ∀ a < (wideDrive 8).numberOfSectors * AviKernel.sectorSize,
        e'.image a = wideCalls.foldl (DriveCall.contents (wideDrive 8).numberOfSectors)
          (wideDevice 8).image a :=
  driveCalls_spec rfl rfl (by decide) (ready_busWith 8) inReach_wideCalls

end StorageIDECompatibilityDriver

end AviKernel
