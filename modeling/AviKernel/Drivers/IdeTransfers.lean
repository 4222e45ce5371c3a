import AviKernel.Drivers.IdeAddresses

/-!
# The sectors of a transfer

A write command addresses the sectors of the request in both modes.  The command
for reads is the 28-bit one in both modes, so that in the 48-bit mode a read
addresses a sector of the first `2 ^ 24`.
-/

namespace AviKernel

open Ata

namespace StorageIDECompatibilityDriver

variable {bus : Bus} {c e : Channel} {i dev : Fin 2} {drive : PhysicalIDEDrive} {d : Device}
  {devices : Fin 2 → Option Device} {lba polls n pos : ℕ} {count b : UInt8}
  {buffer : ℕ → UInt8} {t : Transfer}

/-- The selected device, the devices, and a bound on the busy times to come. -/
structure Serves (polls : ℕ) (dev : Fin 2) (devices : Fin 2 → Option Device) (c : Channel) :
    Prop where
  selected : c.selected = dev
  devices : c.devices = devices
  delays : ∀ k, c.delays k < polls

theorem Serves.wait (h : Serves polls dev devices c) : Serves polls dev devices c.wait :=
  ⟨h.selected, h.devices, fun k => h.delays (k + 1)⟩

theorem Serves.moving (h : Serves polls dev devices c) (t : Transfer) :
    Serves polls dev devices (c.moving t) := ⟨h.selected, h.devices, h.delays⟩

theorem Serves.finished (h : Serves polls dev devices c) : Serves polls dev devices c.finished :=
  ⟨h.selected, h.devices, h.delays⟩

theorem Serves.accepted (h : Serves polls dev devices c) : Serves polls dev devices c.accepted :=
  ⟨h.selected, h.devices, h.delays⟩

theorem Serves.ready (h : Serves polls dev devices c) :
    Serves polls dev devices c.ready := ⟨h.selected, h.devices, h.delays⟩

theorem Serves.setDevice (h : Serves polls dev devices c) (d : Device) :
    Serves polls dev (Function.update devices dev (some d)) (c.setDevice dev d) := by
  refine ⟨h.selected, ?_, h.delays⟩
  rw [← h.devices]
  rfl

theorem waitForData_set (hd : c.devices c.selected = some d) (ht : c.transfer = some t)
    (h : c.busy < polls) :
    waitForData (getIdeController i) polls (bus.set i c) =
      some (bus.set i c.ready) := by
  induction polls generalizing c with
  | zero => exact absurd h (Nat.not_lt_zero _)
  | succ polls ih =>
      rw [waitForData, readAlternateStatusRegister_set]
      dsimp only
      by_cases hbusy : c.busy = 0
      · rw [Channel.status_of_moving hd hbusy ht, if_neg (by decide), Channel.ready, hbusy]
      · rw [Channel.status_of_busy hd hbusy, if_pos (by decide)]
        exact ih hd ht (by dsimp only; omega)

theorem waitForFlush_set (hd : c.devices c.selected = some d) (ht : c.transfer = none)
    (h : c.busy < polls) :
    waitForFlush (getIdeController i) polls (bus.set i c) =
      some (bus.set i c.ready) := by
  induction polls generalizing c with
  | zero => exact absurd h (Nat.not_lt_zero _)
  | succ polls ih =>
      rw [waitForFlush, readAlternateStatusRegister_set]
      dsimp only
      by_cases hbusy : c.busy = 0
      · have hstatus : ¬c.status &&& statusBsy ≠ 0 := by
          rcases Channel.status_of_idle ⟨ht, hbusy⟩ with hs | hs | hs <;> rw [hs] <;> decide
        rw [if_neg hstatus, Channel.ready, hbusy]
      · rw [Channel.status_of_busy hd hbusy, if_pos (by decide)]
        exact ih hd ht (by dsimp only; omega)

theorem readWords_set : (getIdeController i).readWords n buffer pos (bus.set i c) =
    ((Channel.readWords n buffer pos c).1, bus.set i (Channel.readWords n buffer pos c).2) := by
  induction n generalizing buffer pos c with
  | zero => rfl
  | succ n ih =>
      have hword : (getIdeController i).readDataRegister (bus.set i c) =
          (c.readData.1, bus.set i c.readData.2) := by
        rw [IDEController.readDataRegister, Bus.inw, decodeData_data]
        simp
      rw [IDEController.readWords, hword]
      exact ih

theorem writeWords_set : (getIdeController i).writeWords buffer n pos (bus.set i c) =
    bus.set i (Channel.writeWords buffer n pos c) := by
  induction n generalizing pos c with
  | zero => rfl
  | succ n ih =>
      have hword : (getIdeController i).writeDataRegister (bus.set i c) (loadWord buffer pos) =
          bus.set i (c.writeData (loadWord buffer pos)) := by
        rw [IDEController.writeDataRegister, Bus.outw, decodeData_data]
        simp
      rw [IDEController.writeWords, hword]
      exact ih

theorem readDataRegisterBuffer_set (ht : c.transfer = some ⟨dev, .read, lba, n, 0⟩)
    (hd : c.devices dev = some d) (hbusy : c.busy = 0) :
    (getIdeController i).readDataRegisterBuffer buffer pos sectorSize (bus.set i c) =
      (splice buffer pos sectorSize fun j => d.image (lba * sectorSize + j),
        bus.set i (c.nextSector ⟨dev, .read, lba, n, 0⟩)) := by
  have hsize : sectorSize / 2 = wordsPerSector := rfl
  rw [IDEController.readDataRegisterBuffer, hsize, readWords_set,
    Channel.readSector_spec ht hd hbusy rfl rfl]
  rfl

theorem writeDataRegisterBuffer_set (ht : c.transfer = some ⟨dev, .write, lba, n, 0⟩)
    (hd : c.devices dev = some d) (hbusy : c.busy = 0) :
    (getIdeController i).writeDataRegisterBuffer buffer pos sectorSize (bus.set i c) =
      bus.set i ((c.setDevice dev (d.store lba 1 buffer pos)).nextSector
        ⟨dev, .write, lba, n, 0⟩) := by
  have hsize : sectorSize / 2 = wordsPerSector := rfl
  rw [IDEController.writeDataRegisterBuffer, hsize, writeWords_set,
    Channel.writeSector_spec buffer pos ht hd hbusy rfl rfl]

theorem splice_sectors {f : ℕ → UInt8} :
    splice (splice buffer pos sectorSize fun j => f (lba * sectorSize + j)) (pos + 512)
        (n * sectorSize) (fun j => f ((lba + 1) * sectorSize + j)) =
      splice buffer pos ((n + 1) * sectorSize) fun j => f (lba * sectorSize + j) := by
  have hparts : splice (splice buffer pos sectorSize fun j => f (lba * sectorSize + j))
      (pos + sectorSize) (n * sectorSize) (fun j => f (lba * sectorSize + (sectorSize + j))) =
        splice buffer pos (sectorSize + n * sectorSize) fun j => f (lba * sectorSize + j) :=
    splice_append
  have hlength : (n + 1) * sectorSize = sectorSize + n * sectorSize := by
    rw [Nat.add_mul, Nat.one_mul, Nat.add_comm]
  rw [hlength, ← hparts]
  simp only [Nat.add_mul, Nat.one_mul, Nat.add_assoc]
  rfl

theorem Serves.selected_device (hserves : Serves polls dev devices c) (hd : devices dev = some d) :
    c.devices c.selected = some d ∧ c.ready.devices dev = some d := by
  rw [hserves.selected, hserves.devices, hserves.ready.devices, hd]
  exact ⟨rfl, rfl⟩

/-- All sectors of a transfer are read. -/
theorem readEach_set (bus : Bus) (i : Fin 2) (buffer : ℕ → UInt8) (pos : ℕ)
    (hserves : Serves polls dev devices c) (hbusy : c.busy < polls)
    (ht : c.transfer = some ⟨dev, .read, lba, n + 1, 0⟩) (hd : devices dev = some d) :
    ∃ e, readEach (getIdeController i) polls (n + 1) buffer pos (bus.set i c) =
        some (splice buffer pos ((n + 1) * sectorSize) fun j => d.image (lba * sectorSize + j),
          bus.set i e) ∧
      e.Idle ∧ Serves polls dev devices e := by
  induction n generalizing c lba buffer pos with
  | zero =>
      obtain ⟨hselected, hdevice⟩ := hserves.selected_device hd
      refine ⟨c.ready.finished, ?_, ⟨rfl, rfl⟩, hserves.ready.finished⟩
      rw [readEach, waitForData_set hselected ht hbusy, Option.bind_eq_bind, Option.bind_some,
        readDataRegisterBuffer_set (c := c.ready) ht hdevice rfl, Channel.nextSector_last rfl]
      simp [readEach]
  | succ n ih =>
      obtain ⟨hselected, hdevice⟩ := hserves.selected_device hd
      have hnext := hserves.ready.wait.moving ⟨dev, .read, lba + 1, n + 1, 0⟩
      obtain ⟨e, hrest, hidle, hafter⟩ :
          ∃ e, readEach (getIdeController i) polls (n + 1)
              (splice buffer pos sectorSize fun j => d.image (lba * sectorSize + j)) (pos + 512)
              (bus.set i (c.ready.wait.moving ⟨dev, .read, lba + 1, n + 1, 0⟩)) =
            some (splice (splice buffer pos sectorSize fun j => d.image (lba * sectorSize + j))
                (pos + 512) ((n + 1) * sectorSize) fun j => d.image ((lba + 1) * sectorSize + j),
              bus.set i e) ∧ e.Idle ∧ Serves polls dev devices e :=
        ih _ _ hnext (hserves.delays 0) rfl
      refine ⟨e, ?_, hidle, hafter⟩
      rw [readEach, waitForData_set hselected ht hbusy, Option.bind_eq_bind, Option.bind_some,
        readDataRegisterBuffer_set (c := c.ready) ht hdevice rfl, Channel.nextSector_more rfl]
      dsimp only
      rw [hrest, splice_sectors]

/-- All sectors of a transfer are written. -/
theorem writeEach_set (bus : Bus) (i : Fin 2) (buffer : ℕ → UInt8) (pos : ℕ)
    (hserves : Serves polls dev devices c) (hbusy : c.busy < polls)
    (ht : c.transfer = some ⟨dev, .write, lba, n + 1, 0⟩) (hd : devices dev = some d) :
    ∃ e, writeEach (getIdeController i) polls buffer (n + 1) pos (bus.set i c) =
        some (bus.set i e) ∧ e.Idle ∧
      Serves polls dev
        (Function.update devices dev (some (d.store lba (n + 1) buffer pos))) e := by
  induction n generalizing c d devices lba pos with
  | zero =>
      obtain ⟨hselected, hdevice⟩ := hserves.selected_device hd
      refine ⟨(c.ready.setDevice dev (d.store lba 1 buffer pos)).finished, ?_, ⟨rfl, rfl⟩,
        (hserves.ready.setDevice _).finished⟩
      rw [writeEach, waitForData_set hselected ht hbusy, Option.bind_eq_bind, Option.bind_some,
        writeDataRegisterBuffer_set (c := c.ready) ht hdevice rfl, Channel.nextSector_last rfl]
      rfl
  | succ n ih =>
      obtain ⟨hselected, hdevice⟩ := hserves.selected_device hd
      have hnext := (hserves.ready.setDevice (d.store lba 1 buffer pos)).wait.moving
        ⟨dev, .write, lba + 1, n + 1, 0⟩
      obtain ⟨e, hrest, hidle, hafter⟩ :
          ∃ e, writeEach (getIdeController i) polls buffer (n + 1) (pos + 512)
              (bus.set i ((c.ready.setDevice dev (d.store lba 1 buffer pos)).wait.moving
                ⟨dev, .write, lba + 1, n + 1, 0⟩)) = some (bus.set i e) ∧ e.Idle ∧
            Serves polls dev (Function.update
              (Function.update devices dev (some (d.store lba 1 buffer pos))) dev
              (some ((d.store lba 1 buffer pos).store (lba + 1) (n + 1) buffer (pos + 512)))) e :=
        ih _ hnext (hserves.delays 0) rfl (Function.update_self _ _ _)
      refine ⟨e, ?_, hidle, ?_⟩
      · rw [writeEach, waitForData_set hselected ht hbusy, Option.bind_eq_bind, Option.bind_some,
          writeDataRegisterBuffer_set (c := c.ready) ht hdevice rfl, Channel.nextSector_more rfl]
        exact hrest
      · rw [Function.update_idem] at hafter
        have hstore : (d.store lba 1 buffer pos).store (lba + 1) (n + 1) buffer (pos + 512) =
            d.store lba (n + 1 + 1) buffer pos := Device.store_store
        rwa [hstore] at hafter

/-! ## Commands -/

theorem begin_serves (hserves : Serves polls dev devices c) {size : ℕ}
    (hrange : lba + size ≤ d.sectors) (direction : Direction) :
    (c.begin d direction lba size).transfer = some ⟨dev, direction, lba, size, 0⟩ ∧
      (c.begin d direction lba size).busy < polls ∧
      Serves polls dev (Function.update devices dev (some (d.access ⟨direction, lba, size⟩)))
        (c.begin d direction lba size) := by
  rw [Channel.begin_of_le hrange, hserves.selected]
  exact ⟨rfl, hserves.delays 0, ((hserves.setDevice _).wait.moving _).accepted⟩

/-- What a write command addresses after the setup. -/
def writeAddress (drive : PhysicalIDEDrive) (lba : ℕ) : ℕ :=
  lba % 2 ^ (if drive.uses48BitsMode then 48 else 28)

theorem Addressed.count28 (h : Addressed drive lba count c e) (hcount : count ≠ 0) :
    e.count28 = count.toNat := by
  have hpos : count.toNat ≠ 0 := fun hzero => hcount (UInt8.toNat_inj.mp hzero)
  rw [Channel.count28, h.countLast, if_neg hpos]

theorem Addressed.count48 (h : Addressed drive lba count c e) (hcount : count ≠ 0)
    (hmode : drive.uses48BitsMode = true) : e.count48 = count.toNat := by
  have hpos : count.toNat ≠ 0 := fun hzero => hcount (UInt8.toNat_inj.mp hzero)
  have hcounted : count.toNat + 2 ^ 8 * (0 : UInt8).toNat = count.toNat := by simp
  rw [Channel.count48, h.countLast, h.countPrevious hmode, hcounted]
  exact if_neg hpos

theorem Addressed.write_command (h : Addressed drive lba count c e)
    (hd : c.devices drive.driveInChannel = some d) (b : UInt8) :
    e.write .command b = e.execute d (.ofByte b) := by
  rw [Channel.write_of_idle h.idle, Channel.take, h.selected, h.devices, hd]

/-- A read command, of either mode. -/
theorem Addressed.read_command (h : Addressed drive lba count c e)
    (hd : c.devices drive.driveInChannel = some d) (hcount : count ≠ 0) :
    e.write .command (if drive.uses48BitsMode then readPioNot48 else readPioNot48) =
      e.begin d .read (address28 drive lba) count.toNat := by
  have hbyte : Command.ofByte readPioNot48 = .move .read false := by decide
  rw [ite_self, h.write_command hd, hbyte, Channel.execute, h.usesLba, if_pos rfl, h.lba28,
    h.count28 hcount]

theorem Addressed.write_command_sectors (h : Addressed drive lba count c e)
    (hd : c.devices drive.driveInChannel = some d) (hsupports : d.supports48 = drive.uses48BitsMode)
    (hcount : count ≠ 0) :
    e.write .command (if drive.uses48BitsMode then writePio48 else writePioNot48) =
      e.begin d .write (writeAddress drive lba) count.toNat := by
  rw [h.write_command hd]
  cases hmode : drive.uses48BitsMode with
  | true =>
      have hbyte : Command.ofByte (if true then writePio48 else writePioNot48) =
          .move .write true := by decide
      rw [hbyte, Channel.execute, hsupports, hmode, if_pos rfl, h.lba48 hmode,
        h.count48 hcount hmode, writeAddress, hmode]
      rfl
  | false =>
      have hbyte : Command.ofByte (if false then writePio48 else writePioNot48) =
          .move .write false := by decide
      rw [hbyte, Channel.execute, h.usesLba, if_pos rfl, h.lba28, h.count28 hcount, address28,
        writeAddress, hmode]
      rfl

/-- The drive is there, with nothing going on in its channel. -/
structure Ready (polls : ℕ) (drive : PhysicalIDEDrive) (d : Device) (bus : Bus) : Prop where
  device : (bus.channel drive.channel).devices drive.driveInChannel = some d
  sectors : d.sectors = drive.numberOfSectors
  supports48 : d.supports48 = drive.uses48BitsMode
  idle : (bus.channel drive.channel).Idle
  delays : ∀ k, (bus.channel drive.channel).delays k < polls

/-- All devices, with another one in the place of the drive. -/
def devicesWith (bus : Bus) (drive : PhysicalIDEDrive) (d : Device) :
    Fin 2 → Fin 2 → Option Device :=
  Function.update (fun i => (bus.channel i).devices) drive.channel
    (Function.update (bus.channel drive.channel).devices drive.driveInChannel (some d))

theorem devices_set (bus : Bus) (drive : PhysicalIDEDrive) (d : Device)
    (h : Serves polls drive.driveInChannel (Function.update
      (bus.channel drive.channel).devices drive.driveInChannel (some d)) e) :
    (fun i => ((bus.set drive.channel e).channel i).devices) = devicesWith bus drive d := by
  funext i
  unfold devicesWith
  by_cases hi : i = drive.channel
  · rw [hi, Bus.channel_set, Function.update_self, h.devices]
  · rw [Bus.channel_set_of_ne hi, Function.update_of_ne hi]

theorem ready_set (bus : Bus) (hidle : e.Idle) (hsectors : d.sectors = drive.numberOfSectors)
    (hsupports : d.supports48 = drive.uses48BitsMode)
    (h : Serves polls drive.driveInChannel (Function.update
      (bus.channel drive.channel).devices drive.driveInChannel (some d)) e) :
    Ready polls drive d (bus.set drive.channel e) where
  device := by rw [Bus.channel_set, h.devices, Function.update_self]
  sectors := hsectors
  supports48 := hsupports
  idle := by rwa [Bus.channel_set]
  delays := by
    rw [Bus.channel_set]
    exact h.delays

theorem Addressed.serves (h : Addressed drive lba count c e) (hdelays : ∀ k, c.delays k < polls) :
    Serves polls drive.driveInChannel c.devices e :=
  ⟨h.selected, h.devices, by rwa [h.delays]⟩

theorem address28_le : address28 drive lba ≤ lba := Nat.mod_le _ _

theorem writeAddress_le : writeAddress drive lba ≤ lba := Nat.mod_le _ _

theorem setup_bus (bus : Bus) (hidle : (bus.channel drive.channel).Idle)
    (hlba : drive.supportsLba = true) (lba : ℕ) (count : UInt8) :
    setupRw48Bits drive (getIdeController drive.channel) lba count bus =
      some (bus.set drive.channel (prepared drive lba count (bus.channel drive.channel))) := by
  have hset : setupRw48Bits drive (getIdeController drive.channel) lba count
      (bus.set drive.channel (bus.channel drive.channel)) =
        some (bus.set drive.channel (prepared drive lba count (bus.channel drive.channel))) :=
    setupRw48Bits_set hidle hlba
  rwa [Bus.set_channel] at hset

/-- What a read does. -/
theorem readSectors_spec {drives : List PhysicalIDEDrive} {number : ℤ} (buffer : ℕ → UInt8)
    (pos : ℕ) (hdrive : Vector.get drives number = some drive) (hlba : drive.supportsLba = true)
    (hready : Ready polls drive d bus) (hcount : count ≠ 0)
    (hrange : lba + count.toNat ≤ drive.numberOfSectors) :
    ∃ bus', readSectors drives polls number lba count buffer pos bus =
        some (splice buffer pos (count.toNat * sectorSize)
          fun j => d.image (address28 drive lba * sectorSize + j), bus') ∧
      Ready polls drive (d.access ⟨.read, address28 drive lba, count.toNat⟩) bus' ∧
      (fun i => (bus'.channel i).devices) =
        devicesWith bus drive (d.access ⟨.read, address28 drive lba, count.toNat⟩) := by
  have haddressed := addressed_prepared drive hready.idle lba count
  have hcommand := haddressed.read_command hready.device hcount
  have hsize : address28 drive lba + count.toNat ≤ d.sectors := by
    have hle : address28 drive lba ≤ lba := address28_le
    rw [hready.sectors]
    omega
  have hsetup := setup_bus bus hready.idle hlba lba count
  rw [readSectors, if_neg hcount, hdrive]
  simp only [Option.bind_eq_bind, Option.bind_some, hsetup, writeCommandRegister_set, hcommand]
  obtain ⟨n, hn⟩ : ∃ n, count.toNat = n + 1 :=
    Nat.exists_eq_succ_of_ne_zero fun hzero => hcount (UInt8.toNat_inj.mp hzero)
  rw [hn] at hsize ⊢
  obtain ⟨htransfer, hbusy, hserves⟩ :=
    begin_serves (haddressed.serves hready.delays) hsize .read
  obtain ⟨e, heach, hidle, hafter⟩ := readEach_set bus drive.channel buffer pos hserves hbusy
    htransfer (Function.update_self _ _ _)
  exact ⟨bus.set drive.channel e, heach,
    ready_set bus hidle hready.sectors hready.supports48 hafter, devices_set bus drive _ hafter⟩

/-- The flush ends, whether the device knows the command or not. -/
theorem flush_set (bus : Bus) (i : Fin 2) (hidle : e.Idle) (hserves : Serves polls dev devices e)
    (hd : devices dev = some d) :
    ∃ e', waitForFlush (getIdeController i) polls
        (bus.set i (e.write .command flushCache48)) = some (bus.set i e') ∧
      e'.Idle ∧ Serves polls dev devices e' := by
  have hbyte : Command.ofByte flushCache48 = .flush true := by decide
  have hcommand : e.write .command flushCache48 =
      if d.supports48 then e.wait.accepted else e.refused := by
    have hselected : e.devices e.selected = some d := by
      rw [hserves.selected, hserves.devices, hd]
    rw [Channel.write_of_idle hidle, Channel.take, hselected]
    dsimp only
    rw [hbyte, Channel.execute]
  obtain ⟨f, hf, hmoved, hbusy, hflushed⟩ : ∃ f, e.write .command flushCache48 = f ∧
      f.transfer = none ∧ f.busy < polls ∧ Serves polls dev devices f := by
    refine ⟨_, hcommand, ?_⟩
    by_cases hsupports : d.supports48 = true
    · rw [if_pos hsupports]
      exact ⟨hidle.1, hserves.delays 0, hserves.wait.accepted⟩
    · rw [if_neg hsupports]
      have hbusy : e.busy < polls := by
        rw [hidle.2]
        exact lt_of_le_of_lt (Nat.zero_le _) (hserves.delays 0)
      exact ⟨hidle.1, hbusy, hserves.selected, hserves.devices, hserves.delays⟩
  have hselected : f.devices f.selected = some d := by
    rw [hflushed.selected, hflushed.devices, hd]
  refine ⟨f.ready, ?_, ⟨hmoved, rfl⟩, hflushed.ready⟩
  rw [hf, waitForFlush_set hselected hmoved hbusy]

/-- What a write does. -/
theorem writeSectors_spec {drives : List PhysicalIDEDrive} {number : ℤ} (buffer : ℕ → UInt8)
    (pos : ℕ) (hdrive : Vector.get drives number = some drive) (hlba : drive.supportsLba = true)
    (hready : Ready polls drive d bus) (hcount : count ≠ 0)
    (hrange : lba + count.toNat ≤ drive.numberOfSectors) :
    ∃ bus', writeSectors drives polls number lba count buffer pos bus = some bus' ∧
      Ready polls drive ((d.access ⟨.write, writeAddress drive lba, count.toNat⟩).store
        (writeAddress drive lba) count.toNat buffer pos) bus' ∧
      (fun i => (bus'.channel i).devices) =
        devicesWith bus drive ((d.access ⟨.write, writeAddress drive lba, count.toNat⟩).store
          (writeAddress drive lba) count.toNat buffer pos) := by
  have haddressed := addressed_prepared drive hready.idle lba count
  have hcommand := haddressed.write_command_sectors hready.device hready.supports48 hcount
  have hsize : writeAddress drive lba + count.toNat ≤ d.sectors := by
    have hle : writeAddress drive lba ≤ lba := writeAddress_le
    rw [hready.sectors]
    omega
  have hsetup := setup_bus bus hready.idle hlba lba count
  rw [writeSectors, if_neg hcount, hdrive]
  simp only [Option.bind_eq_bind, Option.bind_some, hsetup, writeCommandRegister_set, hcommand]
  obtain ⟨n, hn⟩ : ∃ n, count.toNat = n + 1 :=
    Nat.exists_eq_succ_of_ne_zero fun hzero => hcount (UInt8.toNat_inj.mp hzero)
  rw [hn] at hsize ⊢
  obtain ⟨htransfer, hbusy, hserves⟩ :=
    begin_serves (haddressed.serves hready.delays) hsize .write
  obtain ⟨e, heach, hidle, hafter⟩ := writeEach_set bus drive.channel buffer pos hserves hbusy
    htransfer (Function.update_self _ _ _)
  obtain ⟨e', hflush, hidle', hflushed⟩ := flush_set bus drive.channel hidle hafter
    (Function.update_self _ _ _)
  rw [Function.update_idem] at hflushed
  refine ⟨bus.set drive.channel e', ?_,
    ready_set bus hidle' hready.sectors hready.supports48 hflushed,
    devices_set bus drive _ hflushed⟩
  rw [heach, Option.bind_some, writeCommandRegister_set, hflush]

end StorageIDECompatibilityDriver

end AviKernel
