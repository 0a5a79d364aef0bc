import WootOs.SectorTransfers

/-!
# What the drives do with their commands

sectorTransfer of an IDE drive is a sequence of writes to ports: the bus master
is stopped and gets the table of the buffer, the registers of the task file get
the number of sectors and the first of them, and then the command. A drive with
addresses of 48 bits takes two bytes in every register, one with 28 bits has the
last four of them in the device register, and an ATAPI drive gets a packet.

The other side is modelled here as well: a channel with the registers of its two
drives, what a drive understands when the bus master is started, and the bytes
that go from the sectors to the regions of the table or back. Over both sides a
request that succeeds moves the bytes it asks for and nothing else.
-/

namespace WootOs.DriveCommands

open ByteMemory SectorTransfers

section Channels

/-- A register of the task file keeps two bytes. -/
structure Register where
  /-- The byte written last. -/
  current : BitVec 8
  /-- The byte written before it. -/
  previous : BitVec 8

/-- A byte is written to a register. -/
def Register.write (r : Register) (value : BitVec 8) : Register := ⟨value,r.current⟩

/-- The registers of the drives at a channel and of its bus master. -/
structure Channel where
  /-- Register 1. -/
  feature : BitVec 8
  /-- Register 2. -/
  count : Register
  /-- Register 3. -/
  lbaLow : Register
  /-- Register 4. -/
  lbaMid : Register
  /-- Register 5. -/
  lbaHigh : Register
  /-- Register 6. -/
  device : BitVec 8
  /-- Register 7. -/
  command : BitVec 8
  /-- The bytes written to the data port since the command. -/
  packet : List (BitVec 8)
  /-- The command register of the bus master. -/
  busMaster : BitVec 8
  /-- The table that the bus master has been told. -/
  table : List PRDTEntry

/-- A write of the driver. -/
inductive Out
  /-- _outb to a register of the task file. -/
  | base (register : ℕ) (value : BitVec 8)
  /-- _outsw to the data port. -/
  | data (bytes : List (BitVec 8))
  /-- _outb to a register of the bus master. -/
  | bm (register : ℕ) (value : BitVec 8)
  /-- _outl of the address of a table to the bus master. -/
  | prdt (table : List PRDTEntry)

/-- What a write does to the registers. -/
def Channel.out (c : Channel) : Out → Channel
  | .base 1 value => { c with feature := value }
  | .base 2 value => { c with count := c.count.write value }
  | .base 3 value => { c with lbaLow := c.lbaLow.write value }
  | .base 4 value => { c with lbaMid := c.lbaMid.write value }
  | .base 5 value => { c with lbaHigh := c.lbaHigh.write value }
  | .base 6 value => { c with device := value }
  | .base 7 value => { c with command := value,packet := [] }
  | .base _ _ => c
  | .data bytes => { c with packet := c.packet ++ bytes }
  | .bm 0 value => { c with busMaster := value }
  | .bm _ _ => c
  | .prdt table => { c with table := table }

/-- A transfer, as the drive understands it. -/
structure Command where
  /-- It goes to the drive. -/
  write : Bool
  /-- The first sector. -/
  start : ℕ
  /-- The number of sectors. -/
  count : ℕ
  deriving DecidableEq

/-- What a command tells an ATA drive: READ DMA and WRITE DMA, with addresses of
28 bits, and READ DMA EXT and WRITE DMA EXT, with those of 48 bits. -/
def Channel.ataCommand (c : Channel) : Option Command :=
  let n := (c.count.previous ++ c.count.current).toNat
  let lba := (c.lbaHigh.previous ++ c.lbaMid.previous ++ c.lbaLow.previous ++
    c.lbaHigh.current ++ c.lbaMid.current ++ c.lbaLow.current).toNat
  let n28 := c.count.current.toNat
  let lba28 := (c.device.extractLsb' 0 4 ++ c.lbaHigh.current ++ c.lbaMid.current ++
    c.lbaLow.current).toNat
  if !c.device.getLsbD 6 then none
  else if c.command = 0x25 then some ⟨false,lba,if n = 0 then 65536 else n⟩
  else if c.command = 0x35 then some ⟨true,lba,if n = 0 then 65536 else n⟩
  else if c.command = 0xC8 then some ⟨false,lba28,if n28 = 0 then 256 else n28⟩
  else if c.command = 0xCA then some ⟨true,lba28,if n28 = 0 then 256 else n28⟩
  else none

/-- What a packet tells an ATAPI drive: READ(12) and WRITE(12), by DMA in the
direction that the feature register says. -/
def Channel.packetCommand (c : Channel) : Option Command :=
  match c.packet with
  | [op,_,l₃,l₂,l₁,l₀,n₃,n₂,n₁,n₀,_,_] =>
    let lba := (l₃ ++ l₂ ++ l₁ ++ l₀).toNat
    let n := (n₃ ++ n₂ ++ n₁ ++ n₀).toNat
    if c.command ≠ 0xA0 ∨ !c.feature.getLsbD 0 then none
    else if op = 0xA8 ∧ c.feature.getLsbD 2 then some ⟨false,lba,n⟩
    else if op = 0xAA ∧ !c.feature.getLsbD 2 then some ⟨true,lba,n⟩
    else none
  | _ => none

end Channels

section Drivers

/-- What IDEDrive needs of its drive beside the sector size. -/
structure IDEDrive extends Drive where
  /-- Slave. -/
  slave : Bool
  /-- IDResp.CommandSetActive.BigLba. -/
  bigLba : Bool

variable (d : IDEDrive) (physical : Word → Word) (t : Transfer)

/-- A byte of a number. -/
def byteOf (n : BitVec 64) (shift : ℕ) : BitVec 8 := n.extractLsb' shift 8

/-- count, in 64 bits. -/
def count64 : BitVec 64 := BitVec.ofInt 64 t.count

/-- The writes that tell the drive the sectors. -/
def taskFile : List Out :=
  if d.atapi then
    [.base 6 (if d.slave then 0x10 else 0x00),.base 1 (1 ||| if t.write then 0 else 4),
      .base 2 0,.base 3 0,.base 4 0,.base 5 0]
  else if d.bigLba then
    [.base 6 (if d.slave then 0x50 else 0x40),.base 1 0,
      .base 2 (byteOf (count64 t) 8),.base 3 (byteOf t.start 24),
      .base 4 (byteOf t.start 32),.base 5 (byteOf t.start 40),
      .base 2 (byteOf (count64 t) 0),.base 3 (byteOf t.start 0),
      .base 4 (byteOf t.start 8),.base 5 (byteOf t.start 16)]
  else
    [.base 6 ((if d.slave then 0xF0 else 0xE0) ||| byteOf t.start 24 &&& 0x0F),.base 1 0,
      .base 2 (byteOf (count64 t) 0),.base 3 (byteOf t.start 0),
      .base 4 (byteOf t.start 8),.base 5 (byteOf t.start 16)]

/-- The packet for an ATAPI drive. -/
def packet : List (BitVec 8) :=
  [if t.write then 0xAA else 0xA8,0,byteOf t.start 24,byteOf t.start 16,byteOf t.start 8,
    byteOf t.start 0,0,0,0,byteOf (count64 t) 0,0,0]

/-- The command for an ATA drive. -/
def command : BitVec 8 :=
  if d.bigLba then if t.write then 0x35 else 0x25 else if t.write then 0xCA else 0xC8

/-- The writes of IDEDrive::sectorTransfer, up to where it fails. -/
def ideOuts (a : IDEAnswers) : List Out :=
  let byteCount : Word := BitVec.ofInt 32 (t.count * d.sectorSize)
  let prdtCount : Word := (byteCount + 65535) >>> 16
  let table := ideEntries physical t.buffer prdtCount.toNat 0 byteCount
  let stopped : List Out :=
    [.bm 0 0,.bm 0 (if t.write then 0x00 else 0x08),.bm 2 0x06,.prdt table]
  let started : List Out :=
    .bm 0 (if t.write then 0x01 else 0x09) ::
      if a.done && !a.ok then [.bm 0 0,.bm 2 0x06] else []
  if !a.lock then []
  else .base 6 (if d.slave then 0x10 else 0x00) ::
    if !a.notBusy then []
    else if prdtsAllocated < prdtCount then []
    else
      let commanded : List Out :=
        if !a.ready then []
        else if d.atapi then
          .base 7 0xA0 ::
            if !a.packetNotBusy then []
            else if !a.packetReady then []
            else .data (packet t) :: started
        else .base 7 (command d t) :: started
      stopped ++ (taskFile d t ++ commanded)

end Drivers

section Worlds

/-- The memory, the two drives of a channel and its registers. -/
structure World where
  /-- Bytes at physical addresses. -/
  memory : Memory
  /-- Bytes of the sectors of each drive, the slave's for true. -/
  disks : Bool → ℕ → ℕ → BitVec 8
  /-- The registers. -/
  channel : Channel

/-- The address of a byte of a transfer, by the regions of a table. -/
def place : List Region → ℕ → Option Word
  | [],_ => none
  | r::rs,k =>
    if k < r.bytes then some (r.address + BitVec.ofNat 32 k)
    else if r.last then none
    else place rs (k - r.bytes)

/-- The bus master writes bytes to the memory, one after the other. -/
def receive (table : List Region) (data : ℕ → BitVec 8) : ℕ → Memory → Memory
  | 0,m => m
  | n+1,m =>
    match place table n with
    | none => receive table data n m
    | some a => Function.update (receive table data n m) a (data n)

/-- The bus master reads bytes from the memory for some sectors of a drive. -/
def send (table : List Region) (m : Memory) (size : ℕ) (c : Command)
    (disk : ℕ → ℕ → BitVec 8) : ℕ → ℕ → BitVec 8 :=
  fun s b =>
    if c.start ≤ s ∧ s < c.start + c.count ∧ b < size then
      match place table ((s - c.start) * size + b) with
      | none => disk s b
      | some a => m a
    else disk s b

variable (drives : Bool → IDEDrive)

/-- The drive that is selected carries its command out, if it has understood one
and the bus master goes in the same direction. -/
def World.execute (w : World) : World :=
  let selected := w.channel.device.getLsbD 4
  let d := drives selected
  let table := w.channel.table.map PRDTEntry.region
  match if d.atapi then w.channel.packetCommand else w.channel.ataCommand with
  | none => w
  | some c =>
    if c.write = w.channel.busMaster.getLsbD 3 then w
    else if c.write then
      { w with
        disks := Function.update w.disks selected
          (send table w.memory d.sectorSize c (w.disks selected)) }
    else
      { w with
        memory := receive table
          (fun k => w.disks selected (c.start + k / d.sectorSize) (k % d.sectorSize))
          (c.count * d.sectorSize) w.memory }

/-- A write of the driver. When it starts the bus master, the drive acts. -/
def World.out (act : World → World) (w : World) (o : Out) : World :=
  let w := { w with channel := w.channel.out o }
  match o with
  | .bm 0 value => if value.getLsbD 0 then act w else w
  | _ => w

variable (physical : Word → Word) (answers : ℕ → IDEAnswers) (fault : ℕ → World → World)

/-- A transfer. A drive that reports no error has carried its command out; what
another one has done is not known. -/
def World.transfer (b : Bool) (i : ℕ) (w : World) (t : Transfer) : World :=
  (ideOuts (drives b) physical t (answers i)).foldl
    (World.out (if (answers i).done && (answers i).ok then World.execute drives else fault i)) w

/-- Transfers, one after the other. -/
def World.transfers (b : Bool) : ℕ → World → List Transfer → World
  | _,w,[] => w
  | i,w,t::ts => transfers b (i + 1) (w.transfer drives physical answers fault b i t) ts

/-- ReadSectors of one of the drives. -/
def World.readSectors (w : World) (b : Bool) (buffer : Word) (start : BitVec 64) (count : ℤ) :
    ℤ × World :=
  let r := ideReadSectors (drives b).toDrive physical answers buffer start count
  (r.1,w.transfers drives physical answers fault b 0 r.2)

/-- WriteSectors of one of the drives. -/
def World.writeSectors (w : World) (b : Bool) (buffer : Word) (start : BitVec 64) (count : ℤ) :
    ℤ × World :=
  let r := ideWriteSectors (drives b).toDrive physical answers buffer start count
  (r.1,w.transfers drives physical answers fault b 0 r.2)

end Worlds

section Understanding

variable {d : IDEDrive} {physical : Word → Word} {t : Transfer}

/-- The number of sectors that a kind of drive can address. -/
def IDEDrive.reach (d : IDEDrive) : ℕ :=
  if d.atapi then 2 ^ 32 else if d.bigLba then 2 ^ 48 else 2 ^ 28

/-- Six bytes of a sector's number. -/
theorem bytes_48 (s : BitVec 64) :
    byteOf s 40 ++ byteOf s 32 ++ byteOf s 24 ++ byteOf s 16 ++ byteOf s 8 ++ byteOf s 0 =
      s.setWidth 48 := by
  apply BitVec.eq_of_getLsbD_eq
  intro i hi
  simp only [byteOf,BitVec.getLsbD_append,BitVec.getLsbD_extractLsb',BitVec.getLsbD_setWidth]
  grind

/-- Four bytes of a sector's number. -/
theorem bytes_32 (s : BitVec 64) :
    byteOf s 24 ++ byteOf s 16 ++ byteOf s 8 ++ byteOf s 0 = s.setWidth 32 := by
  apply BitVec.eq_of_getLsbD_eq
  intro i hi
  simp only [byteOf,BitVec.getLsbD_append,BitVec.getLsbD_extractLsb',BitVec.getLsbD_setWidth]
  grind

/-- Three bytes of a sector's number and four bits more. -/
theorem bytes_28 (s : BitVec 64) :
    (byteOf s 24).extractLsb' 0 4 ++ byteOf s 16 ++ byteOf s 8 ++ byteOf s 0 = s.setWidth 28 := by
  apply BitVec.eq_of_getLsbD_eq
  intro i hi
  simp only [byteOf,BitVec.getLsbD_append,BitVec.getLsbD_extractLsb',BitVec.getLsbD_setWidth]
  grind

/-- Two bytes of a number of sectors. -/
theorem bytes_16 (s : BitVec 64) : byteOf s 8 ++ byteOf s 0 = s.setWidth 16 := by
  apply BitVec.eq_of_getLsbD_eq
  intro i hi
  simp only [byteOf,BitVec.getLsbD_append,BitVec.getLsbD_extractLsb',BitVec.getLsbD_setWidth]
  grind

/-- The device register of a drive with 28 bits: four bits of the sector's
number, the drive, and that it is a sector's number. -/
theorem device_28 (slave : Bool) (n : BitVec 8) :
    ((if slave then 0xF0 else 0xE0) ||| n &&& 0x0F : BitVec 8).extractLsb' 0 4 =
        n.extractLsb' 0 4 ∧
      ((if slave then 0xF0 else 0xE0) ||| n &&& 0x0F : BitVec 8).getLsbD 4 = slave ∧
      ((if slave then 0xF0 else 0xE0) ||| n &&& 0x0F : BitVec 8).getLsbD 6 = true := by
  revert n
  cases slave <;> decide

/-- A number of sectors is a byte. -/
theorem count64_toNat (hpos : 0 < t.count) (hle : t.count ≤ 255) :
    (count64 t).toNat = t.count.toNat := by
  rw [count64,BitVec.toNat_ofInt]
  omega

/-- The table of a transfer. -/
def tableOf (d : IDEDrive) (physical : Word → Word) (t : Transfer) : List PRDTEntry :=
  let byteCount : Word := BitVec.ofInt 32 (t.count * d.sectorSize)
  ideEntries physical t.buffer ((byteCount + 65535) >>> 16).toNat 0 byteCount

/-- The writes before the bus master is started. -/
def prepared (d : IDEDrive) (physical : Word → Word) (t : Transfer) : List Out :=
  let stopped : List Out :=
    [.base 6 (if d.slave then 0x10 else 0x00),.bm 0 0,.bm 0 (if t.write then 0x00 else 0x08),
      .bm 2 0x06,.prdt (tableOf d physical t)]
  let commanded : List Out :=
    if d.atapi then [.base 7 0xA0,.data (packet t)] else [.base 7 (command d t)]
  stopped ++ (taskFile d t ++ commanded)

/-- What a transfer that succeeds has written. -/
theorem ideOuts_of_result {a : IDEAnswers} (hpos : 0 < t.count)
    (h : (ideSectorTransfer d.toDrive physical a t).1 = t.count) :
    ideOuts d physical t a = prepared d physical t ++ [Out.bm 0 (if t.write then 0x01 else 0x09)] ∧
      (ideSectorTransfer d.toDrive physical a t).2 = tableOf d physical t ∧
      (a.done && a.ok) = true := by
  have heio : ¬-VolumeCache.eio = t.count := by
    have hneg : -VolumeCache.eio < 0 := by decide
    omega
  have henomem : ¬-HandleTable.enomem = t.count := by
    have hneg : -HandleTable.enomem < 0 := by decide
    omega
  rw [ideSectorTransfer] at h ⊢
  rw [ideOuts,prepared,tableOf]
  generalize BitVec.ofInt 32 (t.count * d.sectorSize) = byteCount at h ⊢
  generalize ideEntries physical t.buffer ((byteCount + 65535) >>> 16).toNat 0 byteCount = table
    at h ⊢
  by_cases h₁ : (!a.lock) = true
  · rw [if_pos h₁] at h
    exact absurd h heio
  by_cases h₂ : (!a.notBusy) = true
  · rw [if_neg h₁,if_pos h₂] at h
    exact absurd h heio
  by_cases h₃ : prdtsAllocated < (byteCount + 65535) >>> 16
  · rw [if_neg h₁,if_neg h₂,if_pos h₃] at h
    exact absurd h henomem
  rw [if_neg h₁,if_neg h₂,if_neg h₃] at h ⊢
  simp only at h
  by_cases h₄ : (!a.ready) = true
  · rw [if_pos h₄] at h
    exact absurd h heio
  by_cases h₅ : (d.atapi && !a.packetNotBusy) = true
  · rw [if_neg h₄,if_pos h₅] at h
    exact absurd h heio
  by_cases h₆ : (d.atapi && !a.packetReady) = true
  · rw [if_neg h₄,if_neg h₅,if_pos h₆] at h
    exact absurd h heio
  by_cases h₇ : (!a.done) = true
  · rw [if_neg h₄,if_neg h₅,if_neg h₆,if_pos h₇] at h
    exact absurd h heio
  by_cases h₈ : (!a.ok) = true
  · rw [if_neg h₄,if_neg h₅,if_neg h₆,if_neg h₇,if_pos h₈] at h
    exact absurd h heio
  rw [Bool.not_eq_true'] at h₇ h₈
  rw [Bool.not_eq_false] at h₇ h₈
  refine ⟨?_,by rw [if_neg h₁,if_neg h₂,if_neg h₃],by rw [h₇,h₈]; rfl⟩
  simp only [if_neg h₄,h₇,h₈]
  cases hatapi : d.atapi with
  | true =>
    have hnotBusy : a.packetNotBusy = true := by simpa [hatapi] using h₅
    have hready : a.packetReady = true := by simpa [hatapi] using h₆
    simp [hnotBusy,hready]
  | false => simp

/-- The drive understands the transfer that is asked for. -/
theorem prepared_understood (physical : Word → Word) (hpos : 0 < t.count) (hle : t.count ≤ 255)
    (hreach : t.start.toNat < d.reach) (c : Channel) :
    let c' := (prepared d physical t).foldl Channel.out c
    (if d.atapi then c'.packetCommand else c'.ataCommand) =
        some ⟨t.write,t.start.toNat,t.count.toNat⟩ ∧
      c'.device.getLsbD 4 = d.slave ∧ c'.table = tableOf d physical t := by
  have hcount := count64_toNat hpos hle
  have hpos' : t.count.toNat ≠ 0 := by omega
  have hbyte : (byteOf (count64 t) 0).toNat = t.count.toNat := by
    rw [byteOf,BitVec.extractLsb'_toNat,hcount]
    omega
  rw [IDEDrive.reach] at hreach
  simp only [prepared,List.foldl_append,List.foldl_cons,List.foldl_nil]
  generalize tableOf d physical t = table
  cases ha : d.atapi with
  | true =>
    rw [ha,if_pos rfl] at hreach
    have hlba : (t.start.setWidth 32).toNat = t.start.toNat := by
      rw [BitVec.toNat_setWidth]
      omega
    have hn : ((0 : BitVec 8) ++ (0 : BitVec 8) ++ (0 : BitVec 8) ++ byteOf (count64 t) 0).toNat =
        t.count.toNat := by
      have hzero : ((0 : BitVec 8) ++ (0 : BitVec 8) ++ (0 : BitVec 8)).toNat = 0 := by decide
      rw [BitVec.toNat_append,hbyte,hzero,Nat.zero_shiftLeft,Nat.zero_or]
    simp only [taskFile,ha,if_true,List.foldl_cons,List.foldl_nil,Channel.out,
      Channel.packetCommand,packet,List.nil_append,bytes_32,hlba,hn]
    refine ⟨?_,?_,trivial⟩
    · cases t.write <;> rfl
    · cases d.slave <;> rfl
  | false =>
    rw [ha,if_neg Bool.false_ne_true] at hreach
    cases hb : d.bigLba with
    | true =>
      rw [hb,if_pos rfl] at hreach
      have hlba : (t.start.setWidth 48).toNat = t.start.toNat := by
        rw [BitVec.toNat_setWidth]
        omega
      have hn : (byteOf (count64 t) 8 ++ byteOf (count64 t) 0).toNat = t.count.toNat := by
        rw [bytes_16,BitVec.toNat_setWidth,hcount]
        omega
      simp only [taskFile,ha,hb,Bool.false_eq_true,if_false,if_true,List.foldl_cons,List.foldl_nil,
        Channel.out,Channel.ataCommand,Register.write,command,bytes_48,hlba,hn,if_neg hpos']
      refine ⟨?_,?_,trivial⟩
      · cases t.write <;> cases d.slave <;> rfl
      · cases d.slave <;> rfl
    | false =>
      rw [hb,if_neg Bool.false_ne_true] at hreach
      have hlba : (t.start.setWidth 28).toNat = t.start.toNat := by
        rw [BitVec.toNat_setWidth]
        omega
      obtain ⟨hnibble,hslave,hmode⟩ := device_28 d.slave (byteOf t.start 24)
      simp only [taskFile,ha,hb,Bool.false_eq_true,if_false,List.foldl_cons,
        List.foldl_nil,Channel.out,Channel.ataCommand,Register.write,command,hnibble,hslave,hmode,
        bytes_28,hlba,hbyte,if_neg hpos']
      refine ⟨?_,trivial,trivial⟩
      cases t.write <;> rfl

/-- The registers when the bus master is started. -/
def started (d : IDEDrive) (physical : Word → Word) (t : Transfer) (c : Channel) : Channel :=
  ((prepared d physical t).foldl Channel.out c).out (.bm 0 (if t.write then 0x01 else 0x09))

/-- What the drive and the bus master know then. -/
theorem started_spec (physical : Word → Word) (hpos : 0 < t.count) (hle : t.count ≤ 255)
    (hreach : t.start.toNat < d.reach) (c : Channel) :
    (if d.atapi then (started d physical t c).packetCommand
        else (started d physical t c).ataCommand) =
        some ⟨t.write,t.start.toNat,t.count.toNat⟩ ∧
      (started d physical t c).device.getLsbD 4 = d.slave ∧
      (started d physical t c).table = tableOf d physical t ∧
      (started d physical t c).busMaster.getLsbD 3 = !t.write := by
  obtain ⟨hcommand,hdevice,htable⟩ :=
    prepared_understood physical hpos hle hreach c
  rw [started]
  generalize (prepared d physical t).foldl Channel.out c = c' at hcommand hdevice htable ⊢
  refine ⟨hcommand,hdevice,htable,?_⟩
  have hbus : ∀ value,(c'.out (.bm 0 value)).busMaster = value := fun _ => rfl
  rw [hbus]
  cases t.write <;> decide

end Understanding

section Transfers

variable {d : IDEDrive} {drives : Bool → IDEDrive} {physical : Word → Word} {t : Transfer}
variable {a : Word} {n : ℕ}

/-- The bytes of a table that covers a range are placed one after the other. -/
theorem place_covers {rs : List Region} {off : ℕ} (h : Covers a n off rs) {k : ℕ}
    (hk : off + k < n) : place rs k = some (a + BitVec.ofNat 32 (off + k)) := by
  induction rs generalizing off k with
  | nil =>
    have hend : off = n := h
    omega
  | cons r rs ih =>
    obtain ⟨haddress,-,hlast,hrest⟩ := h
    rw [place]
    by_cases hin : k < r.bytes
    · rw [if_pos hin,haddress,BitVec.add_assoc,← BitVec.ofNat_add]
    · have hmore : ¬r.last = true := by
        intro he
        obtain rfl := hlast.mp he
        have hend : off + r.bytes = n := hrest
        omega
      rw [if_neg hin,if_neg hmore,ih hrest (k := k - r.bytes) (by omega)]
      congr 3
      omega

/-- Bytes that the bus master writes to a range. -/
theorem receive_covers {rs : List Region} (h : Covers a n 0 rs) (data : ℕ → BitVec 8)
    (m : Memory) {k : ℕ} (hk : k ≤ n) (hn : n ≤ 2 ^ 32) :
    receive rs data k m =
      fun x => if InRange a k x then data (x - a).toNat else m x := by
  induction k with
  | zero =>
    funext x
    rw [receive,if_neg (show ¬InRange a 0 x from Nat.not_lt_zero _)]
  | succ k ih =>
    have hplace : place rs k = some (a + BitVec.ofNat 32 k) := by
      have hp := place_covers h (k := k) (by omega)
      rwa [Nat.zero_add] at hp
    rw [receive,hplace]
    funext x
    simp only [ih (by omega),Function.update_apply]
    have hoff : (a + BitVec.ofNat 32 k - a).toNat = k := by
      rw [BitVec.add_comm,BitVec.add_sub_cancel,BitVec.toNat_ofNat]
      omega
    by_cases hx : x = a + BitVec.ofNat 32 k
    · subst hx
      have hlast : InRange a (k + 1) (a + BitVec.ofNat 32 k) := by
        rw [InRange,hoff]
        exact Nat.lt_succ_self k
      rw [if_pos rfl,if_pos hlast,hoff]
    · have hne : (x - a).toNat ≠ k := by
        intro he
        refine hx ?_
        rw [← he,BitVec.ofNat_toNat,BitVec.setWidth_eq,BitVec.add_comm,BitVec.sub_add_cancel]
      have hsame : InRange a k x ↔ InRange a (k + 1) x := by
        rw [InRange,InRange]
        omega
      simp only [if_neg hx,hsame]

/-- Writes that do not start the bus master only change the registers. -/
theorem foldl_quiet (act : World → World) (os : List Out) (w : World)
    (h : ∀ value,Out.bm 0 value ∈ os → value.getLsbD 0 = false) :
    os.foldl (World.out act) w = { w with channel := os.foldl Channel.out w.channel } := by
  induction os generalizing w with
  | nil => rfl
  | cons o os ih =>
    have hone : w.out act o = { w with channel := w.channel.out o } := by
      cases o with
      | base register value => rfl
      | data bytes => rfl
      | prdt table => rfl
      | bm register value =>
        cases register with
        | zero => rw [World.out,h value List.mem_cons_self,if_neg Bool.false_ne_true]
        | succ register => rfl
    rw [List.foldl_cons,hone,ih _ fun value hv => h value (List.mem_cons_of_mem o hv),
      List.foldl_cons]

/-- The bus master is not started before the command has been given. -/
theorem prepared_quiet (value : BitVec 8) (h : Out.bm 0 value ∈ prepared d physical t) :
    value.getLsbD 0 = false := by
  rw [prepared] at h
  cases ha : d.atapi <;> cases hb : d.bigLba <;> cases hw : t.write <;>
    simp_all [taskFile] <;> rcases h with rfl | rfl <;> rfl

/-- A transfer that succeeds has been carried out. -/
theorem transfer_eq {answers : ℕ → IDEAnswers} {fault : ℕ → World → World} {b : Bool} {i : ℕ}
    (hpos : 0 < t.count)
    (h : (ideSectorTransfer (drives b).toDrive physical (answers i) t).1 = t.count) (w : World) :
    w.transfer drives physical answers fault b i t =
      World.execute drives { w with channel := started (drives b) physical t w.channel } := by
  obtain ⟨hout,-,hok⟩ := ideOuts_of_result hpos h
  have hquiet (value : BitVec 8) (hv : .bm 0 value ∈ prepared (drives b) physical t) :
      value.getLsbD 0 = false := prepared_quiet value hv
  rw [World.transfer,hout,hok,List.foldl_append,foldl_quiet _ _ w hquiet,started]
  generalize (prepared (drives b) physical t).foldl Channel.out w.channel = c
  cases t.write <;> rfl

/-- A transfer that succeeds lies in the reach of the drive and has a buffer
whose addresses follow one another. -/
structure Sound (d : IDEDrive) (physical : Word → Word) (a : IDEAnswers) (t : Transfer) :
    Prop where
  /-- There is something to transfer. -/
  pos : 0 < t.count
  /-- It is not too much for one transfer. -/
  le : t.count ≤ d.maxBlockTransfer
  /-- The drive has the sectors. -/
  reach : t.start.toNat + t.count.toNat ≤ d.reach
  /-- The buffer. -/
  contiguous : Contiguous physical t.buffer (t.count * d.sectorSize).toNat
  /-- It succeeds. -/
  result : (ideSectorTransfer d.toDrive physical a t).1 = t.count

variable {answers : ℕ → IDEAnswers} {fault : ℕ → World → World} {b : Bool} {i : ℕ}

/-- The table of a transfer that succeeds covers its part of the buffer. -/
theorem Sound.covers {a : IDEAnswers} (h : Sound d physical a t) :
    Covers (physical t.buffer) (t.count.toNat * d.sectorSize) 0
      ((tableOf d physical t).map PRDTEntry.region) := by
  have hbytes : (t.count * d.sectorSize).toNat = t.count.toNat * d.sectorSize := by
    have hcast : ((t.count.toNat : ℕ) : ℤ) = t.count := Int.toNat_of_nonneg h.pos.le
    rw [← hcast,← Nat.cast_mul,Int.toNat_natCast,Int.toNat_natCast]
  obtain ⟨-,htable,-⟩ := ideOuts_of_result h.pos h.result
  obtain ⟨-,hcovers⟩ | ⟨hneg,-⟩ := ide_serves h.pos h.le h.contiguous a
  · rwa [hbytes,htable] at hcovers
  · have hpos := h.pos
    have hresult := h.result
    simp only at hneg
    omega

/-- A transfer has at most half a million bytes. -/
theorem Sound.bytes_le {a : IDEAnswers} (h : Sound d physical a t) :
    t.count.toNat * d.sectorSize ≤ 2 ^ 32 := by
  obtain ⟨-,hsize⟩ := sectorSize_spec d.toDrive
  obtain ⟨-,hmax⟩ := maxBlockTransfer_spec d.toDrive
  have hle := h.le
  have hcount : t.count.toNat ≤ 255 := by omega
  exact (Nat.mul_le_mul hcount hsize).trans (by norm_num)

/-- What the drive and the bus master know when such a transfer is started. -/
theorem Sound.started (hb : (drives b).slave = b) {a : IDEAnswers}
    (h : Sound (drives b) physical a t) (c : Channel) :
    (if (drives b).atapi then (started (drives b) physical t c).packetCommand
        else (started (drives b) physical t c).ataCommand) =
        some ⟨t.write,t.start.toNat,t.count.toNat⟩ ∧
      (DriveCommands.started (drives b) physical t c).device.getLsbD 4 = b ∧
      (DriveCommands.started (drives b) physical t c).table = tableOf (drives b) physical t ∧
      (DriveCommands.started (drives b) physical t c).busMaster.getLsbD 3 = !t.write := by
  obtain ⟨-,hmax⟩ := maxBlockTransfer_spec (drives b).toDrive
  have hpos := h.pos
  have hreach := h.reach
  have hspec := started_spec (d := drives b) physical hpos (h.le.trans hmax)
    (by omega) c
  rwa [hb] at hspec

/-- The bytes of the sectors from some sector on. -/
def sectorBytes (disk : ℕ → ℕ → BitVec 8) (size start k : ℕ) : BitVec 8 :=
  disk (start + k / size) (k % size)

/-- The selected drive has understood a transfer from it. -/
theorem execute_read {w : World} {s n : ℕ} (hd : w.channel.device.getLsbD 4 = b)
    (hc : (if (drives b).atapi then w.channel.packetCommand else w.channel.ataCommand) =
      some ⟨false,s,n⟩)
    (hm : w.channel.busMaster.getLsbD 3 = true) :
    w.execute drives =
      { w with
        memory := receive (w.channel.table.map PRDTEntry.region)
          (sectorBytes (w.disks b) (drives b).sectorSize s) (n * (drives b).sectorSize)
          w.memory } := by
  simp only [World.execute,hd,hc,hm]
  rfl

/-- The selected drive has understood a transfer to it. -/
theorem execute_write {w : World} {s n : ℕ} (hd : w.channel.device.getLsbD 4 = b)
    (hc : (if (drives b).atapi then w.channel.packetCommand else w.channel.ataCommand) =
      some ⟨true,s,n⟩)
    (hm : w.channel.busMaster.getLsbD 3 = false) :
    w.execute drives =
      { w with
        disks := Function.update w.disks b
          (send (w.channel.table.map PRDTEntry.region) w.memory (drives b).sectorSize
            ⟨true,s,n⟩ (w.disks b)) } := by
  simp only [World.execute,hd,hc,hm]
  rfl

/-- A transfer from the drive puts the bytes of its sectors into its part of the
buffer. -/
theorem transfer_read (fault : ℕ → World → World) (hb : (drives b).slave = b)
    (h : Sound (drives b) physical (answers i) t) (hw : t.write = false) (w : World) :
    (w.transfer drives physical answers fault b i t).disks = w.disks ∧
      (w.transfer drives physical answers fault b i t).memory = fun x =>
        if InRange (physical t.buffer) (t.count.toNat * (drives b).sectorSize) x then
          sectorBytes (w.disks b) (drives b).sectorSize t.start.toNat
            (x - physical t.buffer).toNat
        else w.memory x := by
  obtain ⟨hcommand,hdevice,htable,hdirection⟩ := h.started hb w.channel
  rw [hw] at hcommand hdirection
  rw [transfer_eq h.pos h.result,execute_read
    (w := { w with channel := DriveCommands.started (drives b) physical t w.channel })
    hdevice hcommand hdirection]
  simp only [htable]
  exact ⟨trivial,receive_covers h.covers _ w.memory le_rfl h.bytes_le⟩

/-- A transfer to the drive puts its part of the buffer into its sectors. -/
theorem transfer_write (fault : ℕ → World → World) (hb : (drives b).slave = b)
    (h : Sound (drives b) physical (answers i) t) (hw : t.write = true) (w : World) :
    (w.transfer drives physical answers fault b i t).memory = w.memory ∧
      (w.transfer drives physical answers fault b i t).disks =
        Function.update w.disks b fun s o =>
          if t.start.toNat ≤ s ∧ s < t.start.toNat + t.count.toNat ∧
              o < (drives b).sectorSize then
            w.memory (physical t.buffer +
              BitVec.ofNat 32 ((s - t.start.toNat) * (drives b).sectorSize + o))
          else w.disks b s o := by
  obtain ⟨hcommand,hdevice,htable,hdirection⟩ := h.started hb w.channel
  rw [hw] at hcommand hdirection
  rw [transfer_eq h.pos h.result,execute_write
    (w := { w with channel := DriveCommands.started (drives b) physical t w.channel })
    hdevice hcommand hdirection]
  simp only [htable]
  refine ⟨trivial,congrArg (Function.update w.disks b) ?_⟩
  funext s o
  rw [send]
  by_cases hin : t.start.toNat ≤ s ∧ s < t.start.toNat + t.count.toNat ∧
      o < (drives b).sectorSize
  · have hlt : (s - t.start.toNat) * (drives b).sectorSize + o <
        t.count.toNat * (drives b).sectorSize := by
      have hrow : (s - t.start.toNat + 1) * (drives b).sectorSize ≤
          t.count.toNat * (drives b).sectorSize := Nat.mul_le_mul_right _ (by omega)
      rw [Nat.succ_mul] at hrow
      omega
    have hplace := place_covers h.covers (k := (s - t.start.toNat) * (drives b).sectorSize + o)
      (by omega)
    rw [Nat.zero_add] at hplace
    rw [if_pos hin,if_pos hin,hplace]
  · rw [if_neg hin,if_neg hin]

end Transfers

section Requests

variable {drives : Bool → IDEDrive} {physical : Word → Word} {b : Bool}
variable {answers : ℕ → IDEAnswers} {fault : ℕ → World → World}
variable {buffer : Word} {start : BitVec 64} {count : ℕ}

/-- A request that the drive can serve: its sectors are in reach, and the
addresses of its buffer follow one another. -/
structure Fits (d : IDEDrive) (physical : Word → Word) (buffer : Word) (start : BitVec 64)
    (count : ℕ) : Prop where
  /-- The drive has the sectors. -/
  reach : start.toNat + count ≤ d.reach
  /-- The buffer lies in the memory. -/
  memory : buffer.toNat + count * d.sectorSize ≤ 2 ^ 32
  /-- The buffer. -/
  contiguous : Contiguous physical buffer (count * d.sectorSize)

/-- No drive has more sectors than this. -/
theorem reach_le (d : IDEDrive) : d.reach ≤ 2 ^ 48 := by
  rw [IDEDrive.reach]
  split_ifs <;> norm_num

/-- A transfer of a request, behind some of its sectors. -/
theorem Fits.part {d : IDEDrive} (h : Fits d physical buffer start count) {t : Transfer}
    {a : IDEAnswers} {o n : ℕ} (hbuffer : t.buffer = buffer + BitVec.ofInt 32 (o * d.sectorSize))
    (hstart : t.start = start + BitVec.ofInt 64 o) (hn : t.count = n) (hpos : 0 < n)
    (hle : t.count ≤ d.maxBlockTransfer) (hin : o + n ≤ count)
    (hresult : (ideSectorTransfer d.toDrive physical a t).1 = t.count) :
    Sound d physical a t ∧ t.start.toNat = start.toNat + o ∧
      physical t.buffer = physical buffer + BitVec.ofNat 32 (o * d.sectorSize) := by
  have hreach := h.reach
  have hmax := reach_le d
  have hstart' : t.start.toNat = start.toNat + o := by
    rw [hstart,BitVec.ofInt_natCast,BitVec.toNat_add,BitVec.toNat_ofNat]
    omega
  have hbuffer' : t.buffer = buffer + BitVec.ofNat 32 (o * d.sectorSize) := by
    rw [hbuffer,← Nat.cast_mul,BitVec.ofInt_natCast]
  have hend : o * d.sectorSize + n * d.sectorSize ≤ count * d.sectorSize := by
    rw [← Nat.add_mul]
    exact Nat.mul_le_mul_right _ hin
  have hbytes : (t.count * d.sectorSize).toNat = n * d.sectorSize := by
    rw [hn,← Nat.cast_mul,Int.toNat_natCast]
  have hsize : 0 < n * d.sectorSize := Nat.mul_pos hpos (sectorSize_spec d.toDrive).1
  refine ⟨⟨by omega,hle,by omega,?_,hresult⟩,hstart',?_⟩
  · rw [hbytes,hbuffer']
    exact contiguous_part h.contiguous hend
  · rw [hbuffer']
    exact h.contiguous _ (by omega)

/-- How far an address lies behind the beginning of a part of a range. -/
theorem toNat_sub_part (a x : Word) (o : ℕ) (h : o < 2 ^ 32) :
    (x - (a + BitVec.ofNat 32 o)).toNat = (2 ^ 32 - o + (x - a).toNat) % 2 ^ 32 := by
  have hsub : x - (a + BitVec.ofNat 32 o) = x - a - BitVec.ofNat 32 o := by
    generalize BitVec.ofNat 32 o = y
    bv_omega
  rw [hsub,BitVec.toNat_sub,BitVec.toNat_ofNat,Nat.mod_eq_of_lt h]

/-- An address lies in a part of a range. -/
theorem inRange_part {a x : Word} {o n : ℕ} (h : o + n ≤ 2 ^ 32) :
    InRange (a + BitVec.ofNat 32 o) n x ↔ o ≤ (x - a).toNat ∧ (x - a).toNat < o + n := by
  have hk := (x - a).isLt
  rw [InRange]
  rcases Nat.eq_zero_or_pos n with rfl | hpos
  · omega
  · rw [toNat_sub_part a x o (by omega)]
    omega

/-- The bytes of a part of some sectors. -/
theorem sectorBytes_part {disk : ℕ → ℕ → BitVec 8} {size start o k : ℕ} (hs : 0 < size)
    (h : o * size ≤ k) :
    sectorBytes disk size (start + o) (k - o * size) = sectorBytes disk size start k := by
  obtain ⟨r,rfl⟩ := Nat.exists_eq_add_of_le h
  rw [sectorBytes,sectorBytes,Nat.add_sub_cancel_left,Nat.mul_add_mod_self_right,
    Nat.add_comm (o * size),Nat.add_mul_div_right _ _ hs]
  congr 1
  omega

/-- The number of sectors of some transfers that follow one another. -/
theorem total_consecutive {d : Drive} {write : Bool} {ts : List Transfer} {o : ℤ}
    (h : Consecutive d write buffer start o ts) : 0 ≤ total ts := by
  induction ts generalizing o with
  | nil => exact le_rfl
  | cons t ts ih =>
    obtain ⟨-,-,-,hpos,-,hrest⟩ := h
    have htail := ih hrest
    have hsum : total (t::ts) = t.count + total ts := List.sum_cons
    omega

/-- Transfers from the drive that all succeed put the bytes of their sectors
into their part of the buffer. -/
theorem transfers_read (fault : ℕ → World → World) (hb : (drives b).slave = b)
    (h : Fits (drives b) physical buffer start count) {ts : List Transfer} {o i n : ℕ} (w : World)
    (hc : Consecutive (drives b).toDrive false buffer start o ts) (hn : total ts = n)
    (hin : o + n ≤ count)
    (hresult : ∀ k t,ts[k]? = some t →
      (ideSectorTransfer (drives b).toDrive physical (answers (i + k)) t).1 = t.count) :
    (w.transfers drives physical answers fault b i ts).disks = w.disks ∧
      (w.transfers drives physical answers fault b i ts).memory = fun x =>
        if InRange (physical buffer + BitVec.ofNat 32 (o * (drives b).sectorSize))
            (n * (drives b).sectorSize) x then
          sectorBytes (w.disks b) (drives b).sectorSize start.toNat (x - physical buffer).toNat
        else w.memory x := by
  obtain ⟨hsize,-⟩ := sectorSize_spec (drives b).toDrive
  induction ts generalizing o i n w with
  | nil =>
    have hzero : (n : ℤ) = 0 := hn.symm
    obtain rfl : n = 0 := by omega
    refine ⟨rfl,funext fun x => ?_⟩
    rw [if_neg fun hx => ?_]
    · rfl
    · rw [InRange,Nat.zero_mul] at hx
      exact Nat.not_lt_zero _ hx
  | cons t ts ih =>
    obtain ⟨hwrite,hbuffer,hstart,hpos,hle,hrest⟩ := hc
    obtain ⟨m,hm⟩ := Int.eq_ofNat_of_zero_le hpos.le
    obtain ⟨l,hl⟩ := Int.eq_ofNat_of_zero_le (total_consecutive hrest)
    have hsum : total (t::ts) = t.count + total ts := List.sum_cons
    obtain ⟨hsound,hstart',hplace⟩ :=
      h.part (a := answers i) hbuffer hstart hm (by omega) hle (by omega) (hresult 0 t rfl)
    obtain ⟨hdisks,hmemory⟩ := transfer_read fault hb hsound hwrite w
    have hrest' : Consecutive (drives b).toDrive false buffer start ((o + m : ℕ) : ℤ) ts := by
      rw [Nat.cast_add,← hm]
      exact hrest
    obtain ⟨hdisks',hmemory'⟩ := ih (w.transfer drives physical answers fault b i t) hrest' hl
      (by omega) fun k t' ht => by
        rw [show i + 1 + k = i + (k + 1) by omega]
        exact hresult (k + 1) t' ht
    rw [World.transfers]
    refine ⟨hdisks'.trans hdisks,hmemory'.trans (funext fun x => ?_)⟩
    have hnml : n = m + l := by omega
    have hend : (o + n) * (drives b).sectorSize ≤ count * (drives b).sectorSize :=
      Nat.mul_le_mul_right _ hin
    have hmem := h.memory
    rw [hdisks,hmemory,hplace,hstart',hm,Int.toNat_natCast]
    simp only [hnml,Nat.add_mul] at hend ⊢
    generalize hO : o * (drives b).sectorSize = O at hend
    generalize m * (drives b).sectorSize = M at hend
    generalize l * (drives b).sectorSize = L at hend
    have hrestIn := inRange_part (a := physical buffer) (x := x)
      (show O + M + L ≤ 2 ^ 32 by omega)
    have hfirstIn := inRange_part (a := physical buffer) (x := x)
      (show O + M ≤ 2 ^ 32 by omega)
    have hallIn := inRange_part (a := physical buffer) (x := x)
      (show O + (M + L) ≤ 2 ^ 32 by omega)
    simp only [hrestIn,hfirstIn,hallIn]
    by_cases hfirst : O ≤ (x - physical buffer).toNat ∧ (x - physical buffer).toNat < O + M
    · have hoff : (x - (physical buffer + BitVec.ofNat 32 O)).toNat =
          (x - physical buffer).toNat - O := by
        rw [toNat_sub_part _ _ _ (by omega)]
        omega
      rw [if_neg (by omega),if_pos hfirst,if_pos (by omega),hoff,← hO]
      exact sectorBytes_part hsize (hO ▸ hfirst.1)
    · by_cases hlater : O + M ≤ (x - physical buffer).toNat ∧
          (x - physical buffer).toNat < O + M + L
      · rw [if_pos hlater,if_pos (by omega)]
      · rw [if_neg hlater,if_neg hfirst,if_neg (by omega)]

/-- Transfers to the drive that all succeed put their part of the buffer into
their sectors. -/
theorem transfers_write (fault : ℕ → World → World) (hb : (drives b).slave = b)
    (h : Fits (drives b) physical buffer start count) {ts : List Transfer} {o i n : ℕ} (w : World)
    (hc : Consecutive (drives b).toDrive true buffer start o ts) (hn : total ts = n)
    (hin : o + n ≤ count)
    (hresult : ∀ k t,ts[k]? = some t →
      (ideSectorTransfer (drives b).toDrive physical (answers (i + k)) t).1 = t.count) :
    (w.transfers drives physical answers fault b i ts).memory = w.memory ∧
      (w.transfers drives physical answers fault b i ts).disks =
        Function.update w.disks b fun s k =>
          if start.toNat + o ≤ s ∧ s < start.toNat + o + n ∧ k < (drives b).sectorSize then
            w.memory (physical buffer +
              BitVec.ofNat 32 ((s - start.toNat) * (drives b).sectorSize + k))
          else w.disks b s k := by
  induction ts generalizing o i n w with
  | nil =>
    have hzero : (n : ℤ) = 0 := hn.symm
    refine ⟨rfl,?_⟩
    rw [World.transfers,eq_comm,Function.update_eq_self_iff]
    funext s k
    rw [if_neg (by omega)]
  | cons t ts ih =>
    obtain ⟨hwrite,hbuffer,hstart,hpos,hle,hrest⟩ := hc
    obtain ⟨m,hm⟩ := Int.eq_ofNat_of_zero_le hpos.le
    obtain ⟨l,hl⟩ := Int.eq_ofNat_of_zero_le (total_consecutive hrest)
    have hsum : total (t::ts) = t.count + total ts := List.sum_cons
    obtain ⟨hsound,hstart',hplace⟩ :=
      h.part (a := answers i) hbuffer hstart hm (by omega) hle (by omega) (hresult 0 t rfl)
    obtain ⟨hmemory,hdisks⟩ := transfer_write fault hb hsound hwrite w
    have hrest' : Consecutive (drives b).toDrive true buffer start ((o + m : ℕ) : ℤ) ts := by
      rw [Nat.cast_add,← hm]
      exact hrest
    obtain ⟨hmemory',hdisks'⟩ := ih (w.transfer drives physical answers fault b i t) hrest' hl
      (by omega) fun k t' ht => by
        rw [show i + 1 + k = i + (k + 1) by omega]
        exact hresult (k + 1) t' ht
    rw [World.transfers]
    refine ⟨hmemory'.trans hmemory,?_⟩
    rw [hdisks',hmemory,hdisks,Function.update_idem]
    refine congrArg (Function.update w.disks b) (funext fun s => funext fun k => ?_)
    rw [Function.update_self,hplace,hstart',hm,Int.toNat_natCast]
    have hnml : n = m + l := by omega
    by_cases hfirst : start.toNat + o ≤ s ∧ s < start.toNat + o + m ∧
        k < (drives b).sectorSize
    · have hoff : o * (drives b).sectorSize +
          ((s - (start.toNat + o)) * (drives b).sectorSize + k) =
          (s - start.toNat) * (drives b).sectorSize + k := by
        rw [← Nat.add_assoc,← Nat.add_mul]
        congr 2
        omega
      rw [if_neg (by omega),if_pos hfirst,if_pos (by omega),BitVec.add_assoc,
        ← BitVec.ofNat_add,hoff]
    · by_cases hlater : start.toNat + (o + m) ≤ s ∧ s < start.toNat + (o + m) + l ∧
          k < (drives b).sectorSize
      · rw [if_pos hlater,if_pos (by omega)]
      · rw [if_neg hlater,if_neg hfirst,if_neg (by omega)]

/-- A request that succeeds consists of transfers that do, and that cover it. -/
theorem request_transfers (write : Bool) (h : Fits (drives b) physical buffer start count)
    {r : ℤ × List Transfer}
    (hr : r = sectors (drives b).toDrive
      (fun i t => (ideSectorTransfer (drives b).toDrive physical (answers i) t).1) write buffer
      start count)
    (hok : r.1 = count) :
    Consecutive (drives b).toDrive write buffer start ((0 : ℕ) : ℤ) r.2 ∧ total r.2 = count ∧
      ∀ k t,r.2[k]? = some t →
        (ideSectorTransfer (drives b).toDrive physical (answers (0 + k)) t).1 = t.count := by
  have hsize : 1 ≤ (drives b).sectorSize := (sectorSize_spec (drives b).toDrive).1
  have hcount : (count : ℤ) ≤ 2 ^ 32 := by
    have hmul := Nat.le_mul_of_pos_right count hsize
    have hmem := h.memory
    norm_num
    omega
  have hsplits : Splits (drives b).toDrive
      (fun i t => (ideSectorTransfer (drives b).toDrive physical (answers i) t).1) 0 0 0 count write
      buffer start r := by
    rw [hr]
    exact sectors_splits (fun i t hpos hle => ide_result hpos hle (answers i))
      (Int.natCast_nonneg count) hcount
  have hall : ∀ k t,r.2[k]? = some t →
      (ideSectorTransfer (drives b).toDrive physical (answers (0 + k)) t).1 = t.count := by
    intro k t ht
    by_contra hne
    have hfailed := hsplits.failed k t ht hne
    obtain ⟨o,-,-,hpos,hle,-⟩ := mem_consecutive hsplits.consecutive ht
    have hresult : (ideSectorTransfer (drives b).toDrive physical (answers (0 + k)) t).1 = t.count ∨
        (ideSectorTransfer (drives b).toDrive physical (answers (0 + k)) t).1 < 0 :=
      ide_result hpos hle (answers (0 + k))
    obtain hgood | hneg := hresult
    · exact hne hgood
    · rw [← hfailed,hok] at hneg
      omega
  exact ⟨hsplits.consecutive,(hsplits.all hall).2,hall⟩

/-- A disk with addresses of 48 bits, and a CD drive as the slave. -/
def diskAndCd (b : Bool) : IDEDrive :=
  if b then ⟨⟨true,0⟩,true,false⟩ else ⟨⟨false,16⟩,false,true⟩

/-- Empty memory and drives whose bytes tell their sector. -/
def freshWorld : World :=
  ⟨fun _ => 0,fun _ s _ => BitVec.ofNat 8 s,⟨0,⟨0,0⟩,⟨0,0⟩,⟨0,0⟩,⟨0,0⟩,0,0,[],0,[]⟩⟩

/-- A request for forty sectors of the disk. -/
theorem forty_fits : Fits (diskAndCd false) id 0x100000 7 40 :=
  ⟨by decide,by decide,fun _ _ => rfl⟩

end Requests

end WootOs.DriveCommands
