import WootOs.ByteStore
import WootOs.MachineInt

/-!
# The write-back buffer cache of a drive

BufferedVolume keeps bufferCount buffers of sectorsPerBuffer sectors each over
one drive. Every access looks up the buffer that contains its sector, takes an
unused or the least recently used one on a miss, writes a dirty victim back
and loads the wanted sectors. The drive may reject a request past its end and
may fail any other one, as told by a list of outcomes; both leave the drive
and the destination as they were. Fresh DMA memory has arbitrary contents.
-/

namespace WootOs.VolumeCache

open ByteStore MachineInt

/-- Error numbers of the shared header. -/
def eio : ℤ := 5

/-- Error returned when no buffer can be made available. -/
def enomem : ℤ := 12

/-- Error returned when the drive has no sector size. -/
def einval : ℤ := 22

/-- A drive with its contents and the outcomes of its next requests. -/
structure Drive where
  /-- Bytes in one sector. -/
  sectorSize : ℕ
  /-- Number of sectors. -/
  sectorCount : ℕ
  /-- The bytes on the drive. -/
  data : Store
  /-- Outcome of each further request in range, true for a failure; a request
  after the last listed outcome succeeds. -/
  faults : List Bool

/-- Consume the outcome of one request that is in range. -/
def Drive.next (d : Drive) : Bool × Drive :=
  match d.faults with
  | [] => (true,d)
  | fault :: faults => (!fault,{ d with faults := faults })

/-- Read count sectors, or fail and hand over nothing. -/
def Drive.readSectors (d : Drive) (start count : ℕ) : Option (List UInt8) × Drive :=
  if start + count ≤ d.sectorCount then
    match d.next with
    | (true,d') => (some (slice d.data (start * d.sectorSize) (count * d.sectorSize)),d')
    | (false,d') => (none,d')
  else (none,d)

/-- Write count sectors, or fail and change no byte. -/
def Drive.writeSectors (d : Drive) (bytes : List UInt8) (start count : ℕ) : Bool × Drive :=
  if start + count ≤ d.sectorCount then
    match d.next with
    | (true,d') => (true,{ d' with data := patch d.data (start * d.sectorSize) bytes })
    | (false,d') => (false,d')
  else (false,d)

/-- One buffer of the cache; the defaults are those of a new buffer. -/
structure BlockBuffer where
  /-- Its memory, addressed by the offset into the buffer; none until allocated. -/
  buffer : Option Store := none
  /-- First of the sectors it holds. -/
  firstSector : ℕ := 0
  /-- Whether it answers for its sectors. -/
  used : Bool := false
  /-- Whether it differs from the drive. -/
  dirty : Bool := false
  /-- Sequence number of its last access. -/
  time : ℕ := 0

/-- The volume object, together with the drive and the access sequencer that
it shares with the other volumes. -/
structure BufferedVolume where
  /-- The drive below. -/
  drive : Drive
  /-- Next value of the access sequencer. -/
  lru : ℕ
  /-- Sectors in one buffer. -/
  sectorsPerBuffer : ℕ
  /-- The buffers; their number is bufferCount. -/
  buffers : List BlockBuffer
  /-- What newly allocated DMA memory happens to hold. -/
  dma : Store

namespace BufferedVolume

/-- Bytes in one buffer, a product of two 32-bit sizes. -/
def blockSize (v : BufferedVolume) : ℕ :=
  unsigned 32 (v.sectorsPerBuffer * v.drive.sectorSize : ℕ)

/-- First used buffer whose sectors include the given one. -/
def getContainingBuffer (v : BufferedVolume) (sector : ℕ) : Option ℕ :=
  v.buffers.findIdx? fun b => b.used && decide (b.firstSector ≤ sector) &&
    decide (sector < b.firstSector + v.sectorsPerBuffer)

/-- Write a dirty buffer back; a used buffer without memory is an error. -/
def flushBuffer (v : BufferedVolume) (bufIdx : ℕ) : Bool × BufferedVolume :=
  match v.buffers[bufIdx]? with
  | none => (false,v)
  | some b =>
    if !b.used || !b.dirty then (true,v) else
    match b.buffer with
    | none => (false,v)
    | some mem =>
      match v.drive.writeSectors (slice mem 0 (v.sectorsPerBuffer * v.drive.sectorSize))
        b.firstSector v.sectorsPerBuffer with
      | (false,d) => (false,{ v with drive := d })
      | (true,d) =>
        (true,{ v with drive := d, buffers := v.buffers.set bufIdx { b with dirty := false } })

/-- Scan for the smallest access time, keeping the first index that has it. -/
def lruScan : List BlockBuffer → ℕ → ℕ → ℕ → ℕ
  | [],_,minIdx,_ => minIdx
  | b :: bs,i,minIdx,minTime =>
    if b.time < minTime then lruScan bs (i + 1) i b.time else lruScan bs (i + 1) minIdx minTime

/-- Take the first unused buffer, else flush and reuse the least recent one. -/
def allocateBuffer (v : BufferedVolume) : Option ℕ × BufferedVolume :=
  match v.buffers.findIdx? fun b => !b.used with
  | some i =>
    (some i,{ v with buffers := v.buffers.modify i fun b => { b with used := true } })
  | none =>
    let minIdx := lruScan v.buffers 0 0 (2 ^ 64 - 1)
    match v.buffers[minIdx]? with
    | none => (none,v)
    | some b =>
      if b.dirty then
        match v.flushBuffer minIdx with
        | (true,v') => (some minIdx,v')
        | (false,v') => (none,v')
      else (some minIdx,v)

/-- Give the buffer memory and mark it used, flush it if it is still dirty,
then read the aligned run of sectors that contains the given one. -/
def loadBuffer (v : BufferedVolume) (bufIdx : ℕ) (sector : ℤ) : Bool × BufferedVolume :=
  if v.drive.sectorSize = 0 then (false,v) else
  let first := unsigned 64 (v.sectorsPerBuffer * sector.tdiv v.sectorsPerBuffer)
  let v := { v with buffers := v.buffers.modify bufIdx fun b =>
    { b with buffer := some (b.buffer.getD v.dma), used := true } }
  let dirty := ((v.buffers[bufIdx]?).map BlockBuffer.dirty).getD false
  match if dirty then v.flushBuffer bufIdx else (true,v) with
  | (false,v) => (false,v)
  | (true,v) =>
    match v.drive.readSectors first v.sectorsPerBuffer with
    | (none,d) => (false,{ v with drive := d })
    | (some bytes,d) =>
      (true,{ v with drive := d, buffers := v.buffers.modify bufIdx fun b =>
        { b with buffer := b.buffer.map fun mem => patch mem 0 bytes, firstSector := first } })

/-- The buffer for one sector, allocated and loaded on a miss. -/
def fetchBuffer (v : BufferedVolume) (sector : ℤ) : Except ℤ ℕ × BufferedVolume :=
  match v.getContainingBuffer (unsigned 64 sector) with
  | some i => (.ok i,v)
  | none =>
    match v.allocateBuffer with
    | (none,v) => (.error (-enomem),v)
    | (some i,v) =>
      match v.loadBuffer i sector with
      | (false,v) => (.error (-eio),v)
      | (true,v) => (.ok i,v)

/-- Stamp a buffer with the next sequence number. -/
def touch (v : BufferedVolume) (i : ℕ) : BufferedVolume :=
  { v with
    lru := (v.lru + 1) % 2 ^ 64
    buffers := v.buffers.modify i fun b => { b with time := v.lru } }

/-- Move bytes between one buffer and the caller's memory, from the memory
when writing. The bytes moved are returned; a null pointer moves nothing. -/
def move (v : BufferedVolume) (i : ℕ) (buffer : Option (List UInt8)) (offset count : ℕ)
    (write : Bool) : List UInt8 × BufferedVolume :=
  match buffer with
  | none => ([],v)
  | some src =>
    if write then
      (src.take count,{ v with buffers := v.buffers.modify i fun b =>
        { b with buffer := b.buffer.map fun mem => patch mem offset (src.take count),
                 dirty := true } })
    else
      (slice (((v.buffers[i]?).bind BlockBuffer.buffer).getD v.dma) offset count,v)

/-- The transfer loop: error code if one occurred, bytes moved and new state.
Every round moves at least one byte, so bytesLeft rounds are enough. -/
def accessLoop (write : Bool) : ℕ → BufferedVolume → Option (List UInt8) → ℤ → ℤ →
    Option ℤ × List UInt8 × BufferedVolume
  | 0,v,_,_,_ => (none,[],v)
  | fuel + 1,v,buffer,bytesLeft,position =>
    if bytesLeft ≤ 0 then (none,[],v) else
    let inBlockOffset := unsigned 64 position % v.blockSize
    let bytesToXfer := min bytesLeft ((v.blockSize : ℤ) - inBlockOffset)
    match v.fetchBuffer (position.tdiv v.drive.sectorSize) with
    | (.error e,v) => (some e,[],v)
    | (.ok i,v) =>
      let moved := (v.touch i).move i buffer inBlockOffset bytesToXfer.toNat write
      let rest := accessLoop write fuel moved.2 (buffer.map (List.drop bytesToXfer.toNat))
        (bytesLeft - bytesToXfer) (position + bytesToXfer)
      (rest.1,moved.1 ++ rest.2.1,rest.2.2)

/-- Clip the request to the volume, in the mixed signed and unsigned 64-bit
arithmetic of the source, and transfer what is left. -/
def access (v : BufferedVolume) (buffer : Option (List UInt8)) (n position : ℤ)
    (write : Bool) : ℤ × List UInt8 × BufferedVolume :=
  if v.drive.sectorSize = 0 then (-einval,[],v) else
  let volSize := unsigned 64 (v.drive.sectorCount * v.drive.sectorSize : ℕ)
  let n := if volSize < unsigned 64 (position + n) then signed 64 (volSize - position) else n
  if n ≤ 0 then (0,[],v) else
  match accessLoop write n.toNat v buffer n position with
  | (some e,out,v) => (e,out,v)
  | (none,out,v) => (n,out,v)

/-- Flush the buffers in index order, each one whether or not others failed. -/
def flushFrom (v : BufferedVolume) : List ℕ → Bool × BufferedVolume
  | [] => (true,v)
  | i :: is =>
    let head := v.flushBuffer i
    let tail := head.2.flushFrom is
    (head.1 && tail.1,tail.2)

/-- Flush every buffer. -/
def flushBuffers (v : BufferedVolume) : Bool × BufferedVolume :=
  v.flushFrom (List.range v.buffers.length)

/-- Read n bytes at an unsigned position; the count is returned as a 32-bit
signed number. -/
def read (v : BufferedVolume) (position n : ℕ) : ℤ × List UInt8 × BufferedVolume :=
  let r := v.access (some []) n (signed 64 position) false
  (signed 32 r.1,r.2)

/-- Write the given bytes at an unsigned position. -/
def write (v : BufferedVolume) (src : List UInt8) (position : ℕ) :
    ℤ × List UInt8 × BufferedVolume :=
  let r := v.access (some src) src.length (signed 64 position) true
  (signed 32 r.1,r.2)

/-- Write all dirty buffers back. -/
def synchronize (v : BufferedVolume) : Bool × BufferedVolume := v.flushBuffers

/-- A volume as its constructor leaves it: every buffer unused. -/
def new (drive : Drive) (lru sectorsPerBuffer bufferCount : ℕ) (dma : Store) :
    BufferedVolume :=
  ⟨drive,lru,sectorsPerBuffer,List.replicate bufferCount {},dma⟩

end BufferedVolume

end WootOs.VolumeCache
