import AviKernel.Library.Splice

/-!
# The ATA register model

A channel has the command block registers, which its two devices share.  The
sector count and the address registers remember the byte before the last one:
a 28-bit command takes the last byte of each and the low four bits of the
drive/head register, a 48-bit command takes the last two bytes.

After a command and between sectors a device is busy for some time, which is
counted in reads of the status.
-/

namespace AviKernel

/-! ## Words of two bytes -/

section Words16

variable {f g : ℕ → UInt8} {a p : ℕ}

/-- The word of the bytes at `a` and `a + 1`. -/
def loadWord (f : ℕ → UInt8) (a : ℕ) : UInt16 :=
  UInt16.ofNat ((f a).toNat + 256 * (f (a + 1)).toNat)

/-- The bytes at `a` and `a + 1` are replaced by those of the word. -/
def storeWord (f : ℕ → UInt8) (a : ℕ) (w : UInt16) : ℕ → UInt8 :=
  fun i =>
    if i = a then UInt8.ofNat w.toNat
    else if i = a + 1 then UInt8.ofNat (w.toNat / 256)
    else f i

theorem toNat_loadWord : (loadWord f a).toNat = (f a).toNat + 256 * (f (a + 1)).toNat := by
  have hlow := (f a).toNat_lt
  have hhigh := (f (a + 1)).toNat_lt
  rw [loadWord, UInt16.toNat_ofNat']
  omega

theorem storeWord_loadWord :
    storeWord g p (loadWord f a) = splice g p 2 fun i => f (a + i) := by
  have hlow : UInt8.ofNat (loadWord f a).toNat = f a := by
    apply UInt8.toNat_inj.mp
    have hlt := (f a).toNat_lt
    rw [UInt8.toNat_ofNat', toNat_loadWord]
    omega
  have hhigh : UInt8.ofNat ((loadWord f a).toNat / 256) = f (a + 1) := by
    apply UInt8.toNat_inj.mp
    have hlow := (f a).toNat_lt
    have hhigh := (f (a + 1)).toNat_lt
    rw [UInt8.toNat_ofNat', toNat_loadWord]
    omega
  funext i
  unfold storeWord
  rw [hlow, hhigh]
  by_cases hfirst : i = p
  · rw [if_pos hfirst, hfirst, splice_of_mem le_rfl (by omega), Nat.sub_self, Nat.add_zero]
  · rw [if_neg hfirst]
    by_cases hsecond : i = p + 1
    · rw [if_pos hsecond, hsecond, splice_of_mem (by omega) (by omega), Nat.add_sub_cancel_left]
    · rw [if_neg hsecond]
      exact (if_neg (by omega)).symm

end Words16

namespace Ata

/-! ## Devices and channels -/

/-- Two devices on a channel, and two channels. -/
scoped instance neZeroTwo : NeZero 2 := ⟨two_ne_zero⟩

/-- A register with the byte before the last one. -/
structure TwoDeep where
  last : UInt8
  previous : UInt8
  deriving DecidableEq

def TwoDeep.push (r : TwoDeep) (b : UInt8) : TwoDeep := ⟨b, r.last⟩

inductive Direction
  | read
  | write
  deriving DecidableEq

/-- A command that moves sectors. -/
structure Access where
  direction : Direction
  lba : ℕ
  count : ℕ
  deriving DecidableEq

structure Device where
  sectors : ℕ
  /-- Does it execute 48-bit commands? -/
  supports48 : Bool
  image : ℕ → UInt8
  /-- The accesses it executed, latest first. -/
  accesses : List Access

/-- A command whose data is moving: `word` words of the sector `lba` moved so
far, and `left` sectors are left, this one among them. -/
structure Transfer where
  device : Fin 2
  direction : Direction
  lba : ℕ
  left : ℕ
  word : ℕ
  deriving DecidableEq

structure Channel where
  sectorCount : TwoDeep
  lbaLow : TwoDeep
  lbaMid : TwoDeep
  lbaHigh : TwoDeep
  driveHead : UInt8
  control : UInt8
  devices : Fin 2 → Option Device
  transfer : Option Transfer
  /-- The last command was not executed. -/
  aborted : Bool
  /-- The reads of the status that still answer busy. -/
  busy : ℕ
  /-- The lengths of the busy times to come. -/
  delays : ℕ → ℕ

def bytesPerSector : ℕ := 512

def wordsPerSector : ℕ := 256

/-- What the bytes mean that are written to the command register. -/
inductive Command
  | move (direction : Direction) (wide : Bool)
  | flush (wide : Bool)
  | other
  deriving DecidableEq

def Command.ofByte (b : UInt8) : Command :=
  match b.toNat with
  | 0x20 => .move .read false
  | 0x24 => .move .read true
  | 0x30 => .move .write false
  | 0x34 => .move .write true
  | 0xE7 => .flush false
  | 0xEA => .flush true
  | _ => .other

/-- The registers that are written as bytes. -/
inductive Register
  | features
  | sectorCount
  | lbaLow
  | lbaMid
  | lbaHigh
  | driveHead
  | command
  | control
  deriving DecidableEq

namespace Device

def access (d : Device) (a : Access) : Device := { d with accesses := a :: d.accesses }

/-- The sectors from `lba` on, `count` in number, are those of the buffer. -/
def store (d : Device) (lba count : ℕ) (buf : ℕ → UInt8) (pos : ℕ) : Device :=
  { d with
    image := splice d.image (lba * bytesPerSector) (count * bytesPerSector) fun i => buf (pos + i) }

end Device

namespace Channel

variable (c : Channel)

def selected : Fin 2 := if c.driveHead.toNat.testBit 4 then 1 else 0

/-- The address bit of the drive/head register. -/
def usesLba : Bool := c.driveHead.toNat.testBit 6

def lba28 : ℕ :=
  c.lbaLow.last.toNat + 2 ^ 8 * c.lbaMid.last.toNat + 2 ^ 16 * c.lbaHigh.last.toNat +
    2 ^ 24 * (c.driveHead.toNat % 16)

def lba48 : ℕ :=
  c.lbaLow.last.toNat + 2 ^ 8 * c.lbaMid.last.toNat + 2 ^ 16 * c.lbaHigh.last.toNat +
    2 ^ 24 * c.lbaLow.previous.toNat + 2 ^ 32 * c.lbaMid.previous.toNat +
    2 ^ 40 * c.lbaHigh.previous.toNat

/-- Zero stands for the largest count. -/
def count28 : ℕ :=
  if c.sectorCount.last.toNat = 0 then 2 ^ 8 else c.sectorCount.last.toNat

def count48 : ℕ :=
  let count := c.sectorCount.last.toNat + 2 ^ 8 * c.sectorCount.previous.toNat
  if count = 0 then 2 ^ 16 else count

/-- No data is moving and no device is busy. -/
def Idle : Prop := c.transfer = none ∧ c.busy = 0

instance : Decidable c.Idle := inferInstanceAs (Decidable (_ ∧ _))

/-- A busy time begins. -/
def wait : Channel := { c with busy := c.delays 0, delays := fun k => c.delays (k + 1) }

/-- The busy time is over. -/
def ready : Channel := { c with busy := 0 }

def moving (t : Transfer) : Channel := { c with transfer := some t }

def accepted : Channel := { c with aborted := false }

def refused : Channel := { c with aborted := true }

def finished : Channel := { c with transfer := none }

def setDevice (i : Fin 2) (d : Device) : Channel :=
  { c with devices := Function.update c.devices i (some d) }

/-- The selected device begins to move sectors, if it has them. -/
def begin (d : Device) (direction : Direction) (lba count : ℕ) : Channel :=
  if lba + count ≤ d.sectors then
    ((c.setDevice c.selected (d.access ⟨direction, lba, count⟩)).wait.moving
      ⟨c.selected, direction, lba, count, 0⟩).accepted
  else c.refused

def execute (d : Device) : Command → Channel
  | .move direction false =>
      if c.usesLba then c.begin d direction c.lba28 c.count28 else c.refused
  | .move direction true =>
      if d.supports48 then c.begin d direction c.lba48 c.count48 else c.refused
  | .flush false => c.wait.accepted
  | .flush true => if d.supports48 then c.wait.accepted else c.refused
  | .other => c.refused

/-- A register takes a byte. -/
def take (r : Register) (b : UInt8) : Channel :=
  match r with
  | .features => c
  | .sectorCount => { c with sectorCount := c.sectorCount.push b }
  | .lbaLow => { c with lbaLow := c.lbaLow.push b }
  | .lbaMid => { c with lbaMid := c.lbaMid.push b }
  | .lbaHigh => { c with lbaHigh := c.lbaHigh.push b }
  | .driveHead => { c with driveHead := b }
  | .command =>
      match c.devices c.selected with
      | some d => c.execute d (.ofByte b)
      | none => c
  | .control => { c with control := b }

/-- Write a byte to a register.  While a command is going on only the control
register takes it. -/
def write (r : Register) (b : UInt8) : Channel :=
  if r = .control ∨ c.Idle then c.take r b else c

/-- The status: busy is bit 7, ready bit 6, data wanted bit 3, aborted bit 0. -/
def status : UInt8 :=
  if (c.devices c.selected).isNone then 0
  else if c.busy ≠ 0 then 0x80
  else if c.transfer ≠ none then 0x48
  else if c.aborted then 0x41
  else 0x40

/-- Read a register.  Time passes while the status is read. -/
def read (r : Register) : UInt8 × Channel :=
  match r with
  | .features => (if c.aborted then 4 else 0, c)
  | .sectorCount => (c.sectorCount.last, c)
  | .lbaLow => (c.lbaLow.last, c)
  | .lbaMid => (c.lbaMid.last, c)
  | .lbaHigh => (c.lbaHigh.last, c)
  | .driveHead => (c.driveHead, c)
  | .command => (c.status, { c with busy := c.busy - 1 })
  | .control => (c.status, { c with busy := c.busy - 1 })

/-- All words of a sector have moved. -/
def nextSector (t : Transfer) : Channel :=
  if t.left ≤ 1 then c.finished
  else c.wait.moving { t with lba := t.lba + 1, left := t.left - 1, word := 0 }

/-- One word of the data has moved. -/
def advance (t : Transfer) : Channel :=
  if t.word + 1 < wordsPerSector then c.moving { t with word := t.word + 1 } else c.nextSector t

/-- The place of the next word. -/
def place (t : Transfer) : ℕ := t.lba * bytesPerSector + 2 * t.word

/-- Read a word of data.  Without data to read the register has no meaning. -/
def readData : UInt16 × Channel :=
  match c.transfer with
  | none => (0, c)
  | some t =>
      match c.devices t.device with
      | none => (0, c)
      | some d =>
          if c.busy = 0 ∧ t.direction = .read then (loadWord d.image (place t), c.advance t)
          else (0, c)

/-- Write a word of data.  Without data to write it has no effect. -/
def writeData (w : UInt16) : Channel :=
  match c.transfer with
  | none => c
  | some t =>
      match c.devices t.device with
      | none => c
      | some d =>
          if c.busy = 0 ∧ t.direction = .write then
            (c.setDevice t.device { d with image := storeWord d.image (place t) w }).advance t
          else c

/-- Read words one after the other into a buffer. -/
def readWords : ℕ → (ℕ → UInt8) → ℕ → Channel → (ℕ → UInt8) × Channel
  | 0, buf, _, c => (buf, c)
  | n + 1, buf, pos, c => readWords n (storeWord buf pos c.readData.1) (pos + 2) c.readData.2

/-- Write words one after the other from a buffer. -/
def writeWords (buf : ℕ → UInt8) : ℕ → ℕ → Channel → Channel
  | 0, _, c => c
  | n + 1, pos, c => writeWords buf n (pos + 2) (c.writeData (loadWord buf pos))

end Channel

/-! ## What the devices do -/

section Rules

variable {c : Channel} {d : Device} {t : Transfer} {buf : ℕ → UInt8} {lba count n pos : ℕ}

namespace Channel

theorem write_of_idle (h : c.Idle) (r : Register) (b : UInt8) : c.write r b = c.take r b :=
  if_pos (Or.inr h)

theorem status_of_busy (hd : c.devices c.selected = some d) (h : c.busy ≠ 0) :
    c.status = 0x80 := by
  rw [status, hd, if_neg (by simp), if_pos h]

theorem status_of_moving (hd : c.devices c.selected = some d) (hbusy : c.busy = 0)
    (h : c.transfer = some t) : c.status = 0x48 := by
  rw [status, hd, if_neg (by simp), if_neg (by simpa using hbusy), h, if_pos (by simp)]

theorem status_of_idle (h : c.Idle) : c.status = 0 ∨ c.status = 0x41 ∨ c.status = 0x40 := by
  rw [status, if_neg (not_not.mpr h.2), if_neg (not_not.mpr h.1)]
  split_ifs <;> simp

theorem begin_of_le (h : lba + count ≤ d.sectors) (direction : Direction) :
    c.begin d direction lba count =
      ((c.setDevice c.selected (d.access ⟨direction, lba, count⟩)).wait.moving
        ⟨c.selected, direction, lba, count, 0⟩).accepted := if_pos h

theorem readData_of_ready (ht : c.transfer = some t) (hd : c.devices t.device = some d)
    (hbusy : c.busy = 0) (hread : t.direction = .read) :
    c.readData = (loadWord d.image (place t), c.advance t) := by
  simp [readData, ht, hd, hbusy, hread]

theorem writeData_of_ready (w : UInt16) (ht : c.transfer = some t)
    (hd : c.devices t.device = some d) (hbusy : c.busy = 0) (hwrite : t.direction = .write) :
    c.writeData w =
      (c.setDevice t.device { d with image := storeWord d.image (place t) w }).advance t := by
  simp [writeData, ht, hd, hbusy, hwrite]

theorem place_succ : place { t with word := t.word + 1 } = place t + 2 := by
  unfold place
  dsimp only
  omega

theorem splice_two_append {f g : ℕ → UInt8} {p q : ℕ} :
    splice (splice f p 2 fun i => g (q + i)) (p + 2) (2 * (n + 1)) (fun i => g (q + 2 + i)) =
      splice f p (2 * (n + 1 + 1)) fun i => g (q + i) := by
  have hparts : splice (splice f p 2 fun i => g (q + i)) (p + 2) (2 * (n + 1))
      (fun i => g (q + (2 + i))) = splice f p (2 + 2 * (n + 1)) fun i => g (q + i) :=
    splice_append
  have hlength : 2 * (n + 1 + 1) = 2 + 2 * (n + 1) := by omega
  rw [hlength, ← hparts]
  simp only [Nat.add_assoc]

/-- The rest of a sector is read. -/
theorem readWords_spec (ht : c.transfer = some t) (hd : c.devices t.device = some d)
    (hbusy : c.busy = 0) (hread : t.direction = .read) (hn : t.word + (n + 1) = wordsPerSector) :
    readWords (n + 1) buf pos c =
      (splice buf pos (2 * (n + 1)) fun i => d.image (place t + i), c.nextSector t) := by
  induction n generalizing c t buf pos with
  | zero =>
      have hlast : ¬t.word + 1 < wordsPerSector := by omega
      rw [readWords, readData_of_ready ht hd hbusy hread, storeWord_loadWord, readWords, advance,
        if_neg hlast]
  | succ n ih =>
      have hmore : t.word + 1 < wordsPerSector := by omega
      have hrest : readWords (n + 1) (storeWord buf pos (loadWord d.image (place t))) (pos + 2)
          (c.moving { t with word := t.word + 1 }) =
            (splice (splice buf pos 2 fun i => d.image (place t + i)) (pos + 2) (2 * (n + 1))
              fun i => d.image (place t + 2 + i), c.nextSector t) := by
        have hword : t.word + 1 + (n + 1) = wordsPerSector := by omega
        rw [storeWord_loadWord, ih (c := c.moving { t with word := t.word + 1 }) rfl hd hbusy hread
          hword, place_succ]
        rfl
      rw [readWords, readData_of_ready ht hd hbusy hread, advance, if_pos hmore, hrest,
        splice_two_append]

theorem setDevice_setDevice {i : Fin 2} {e : Device} :
    (c.setDevice i d).setDevice i e = c.setDevice i e := by
  unfold setDevice
  simp

theorem devices_setDevice {i : Fin 2} : (c.setDevice i d).devices i = some d := by
  unfold setDevice
  simp

/-- The rest of a sector is written. -/
theorem writeWords_spec (ht : c.transfer = some t) (hd : c.devices t.device = some d)
    (hbusy : c.busy = 0) (hwrite : t.direction = .write)
    (hn : t.word + (n + 1) = wordsPerSector) :
    writeWords buf (n + 1) pos c =
      (c.setDevice t.device { d with
        image := splice d.image (place t) (2 * (n + 1)) fun i => buf (pos + i) }).nextSector t := by
  induction n generalizing c d t pos with
  | zero =>
      have hlast : ¬t.word + 1 < wordsPerSector := by omega
      rw [writeWords, writeData_of_ready _ ht hd hbusy hwrite, storeWord_loadWord, writeWords,
        advance, if_neg hlast]
  | succ n ih =>
      have hmore : t.word + 1 < wordsPerSector := by omega
      have hword : t.word + 1 + (n + 1) = wordsPerSector := by omega
      have hrest : writeWords buf (n + 1) (pos + 2) ((c.setDevice t.device { d with
            image := splice d.image (place t) 2 fun i => buf (pos + i) }).moving
          { t with word := t.word + 1 }) =
            (c.setDevice t.device { d with
              image := splice d.image (place t) (2 * (n + 1 + 1)) fun i => buf (pos + i) }).nextSector
                t := by
        rw [ih (c := (c.setDevice t.device _).moving { t with word := t.word + 1 }) rfl
          devices_setDevice hbusy hwrite hword, place_succ]
        dsimp only
        rw [splice_two_append]
        change ((c.setDevice t.device _).setDevice t.device _).nextSector t = _
        rw [setDevice_setDevice]
      rw [writeWords, writeData_of_ready _ ht hd hbusy hwrite, storeWord_loadWord, advance,
        if_pos hmore, hrest]

theorem place_of_first (h : t.word = 0) : place t = t.lba * bytesPerSector := by
  rw [place, h, Nat.mul_zero, Nat.add_zero]

theorem words_of_first (h : t.word = 0) : t.word + (255 + 1) = wordsPerSector := by
  rw [h]
  rfl

/-- A sector is read. -/
theorem readSector_spec (ht : c.transfer = some t) (hd : c.devices t.device = some d)
    (hbusy : c.busy = 0) (hread : t.direction = .read) (hword : t.word = 0) :
    readWords wordsPerSector buf pos c =
      (splice buf pos bytesPerSector fun i => d.image (t.lba * bytesPerSector + i),
        c.nextSector t) := by
  rw [← place_of_first hword]
  exact readWords_spec ht hd hbusy hread (words_of_first hword)

/-- A sector is written. -/
theorem writeSector_spec (buf : ℕ → UInt8) (pos : ℕ) (ht : c.transfer = some t)
    (hd : c.devices t.device = some d) (hbusy : c.busy = 0) (hwrite : t.direction = .write)
    (hword : t.word = 0) :
    writeWords buf wordsPerSector pos c =
      (c.setDevice t.device (d.store t.lba 1 buf pos)).nextSector t := by
  rw [Device.store, ← place_of_first hword, Nat.one_mul]
  exact writeWords_spec ht hd hbusy hwrite (words_of_first hword)

theorem nextSector_last (h : t.left = 1) : c.nextSector t = c.finished := if_pos h.le

theorem nextSector_more (h : t.left = n + 2) : c.nextSector t =
    c.wait.moving ⟨t.device, t.direction, t.lba + 1, n + 1, 0⟩ := by
  rw [nextSector, if_neg (by omega), h]
  rfl

end Channel

namespace Device

theorem store_store : (d.store lba 1 buf pos).store (lba + 1) n buf (pos + bytesPerSector) =
    d.store lba (n + 1) buf pos := by
  have hparts : splice (splice d.image (lba * bytesPerSector) bytesPerSector
        fun i => buf (pos + i)) (lba * bytesPerSector + bytesPerSector) (n * bytesPerSector)
      (fun i => buf (pos + (bytesPerSector + i))) =
        splice d.image (lba * bytesPerSector) (bytesPerSector + n * bytesPerSector)
          fun i => buf (pos + i) := splice_append
  have hlength : (n + 1) * bytesPerSector = bytesPerSector + n * bytesPerSector := by
    rw [Nat.add_mul, Nat.one_mul, Nat.add_comm]
  have hstart : (lba + 1) * bytesPerSector = lba * bytesPerSector + bytesPerSector := by
    rw [Nat.add_mul, Nat.one_mul]
  simp only [store, hlength, hstart, Nat.one_mul, ← hparts, Nat.add_assoc]

@[simp] theorem store_sectors : (d.store lba count buf pos).sectors = d.sectors := rfl

@[simp] theorem store_supports48 : (d.store lba count buf pos).supports48 = d.supports48 := rfl

@[simp] theorem access_sectors {a : Access} : (d.access a).sectors = d.sectors := rfl

@[simp] theorem access_supports48 {a : Access} : (d.access a).supports48 = d.supports48 := rfl

@[simp] theorem access_image {a : Access} : (d.access a).image = d.image := rfl

end Device

end Rules

end Ata

end AviKernel
