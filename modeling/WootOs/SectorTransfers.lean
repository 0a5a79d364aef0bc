import WootOs.ByteMemory
import WootOs.HandleTable
import WootOs.MachineInt
import WootOs.VolumeCache

/-!
# Transfers of sectors

ReadSectors and WriteSectors of the IDE and AHCI drives divide a request into
transfers of at most MaxBlockTransfer sectors, which is a byte that the drive has
told, or one. A transfer describes its part of the buffer to the controller by a
table of regions: of 64 KiB each for IDE, where a count of zero means 64 KiB, and
of MaxBlockTransfer sectors each for AHCI, where the count is one less than the
size. What the controller answers in a transfer is an input here.
-/

namespace WootOs.SectorTransfers

open ByteMemory HandleTable MachineInt
open NamedObjects (ebusy)
open VolumeCache (eio)

section Drives

/-- What the constructors of the drives are told. -/
structure Drive where
  /-- ATAPI. -/
  atapi : Bool
  /-- MaximumBlockTransfer, as the drive identifies itself. -/
  maximumBlockTransfer : BitVec 8

/-- SectorSize. -/
def Drive.sectorSize (d : Drive) : ℕ := if d.atapi then 2048 else 512

/-- MaxBlockTransfer. -/
def Drive.maxBlockTransfer (d : Drive) : ℤ :=
  if d.maximumBlockTransfer ≠ 0 then d.maximumBlockTransfer.toNat else 1

/-- The arguments of sectorTransfer. -/
structure Transfer where
  /-- write. -/
  write : Bool
  /-- buffer. -/
  buffer : Word
  /-- start. -/
  start : BitVec 64
  /-- count. -/
  count : ℤ

/-- IDEDrive::PRDTEntry. -/
structure PRDTEntry where
  /-- BufferAddress. -/
  bufferAddress : Word
  /-- ByteCount. -/
  byteCount : BitVec 16
  /-- Reserved. -/
  reserved : BitVec 15
  /-- Last. -/
  last : Bool

/-- What happens in a transfer of an IDE drive. -/
structure IDEAnswers where
  /-- The controller's lock has been acquired. -/
  lock : Bool
  /-- The controller is not busy. -/
  notBusy : Bool
  /-- The drive is ready. -/
  ready : Bool
  /-- The controller is not busy before a packet. -/
  packetNotBusy : Bool
  /-- The packet may be sent. -/
  packetReady : Bool
  /-- The interrupt has come in time. -/
  done : Bool
  /-- The status shows no error. -/
  ok : Bool

/-- HBA_PRDT_ENTRY. -/
structure HBAPRDTEntry where
  /-- DBA. -/
  dba : Word
  /-- DBAU. -/
  dbau : Word
  /-- PRDBC. -/
  prdbc : BitVec 22
  /-- I. -/
  i : Bool

/-- What happens in a transfer of an AHCI drive. -/
structure AHCIAnswers where
  /-- StopCommandEngine has succeeded. -/
  stop : Bool
  /-- StartCommandEngine has succeeded. -/
  start : Bool
  /-- The drive is not busy. -/
  notBusy : Bool
  /-- The interrupt has come in time. -/
  done : Bool
  /-- The task file shows no error. -/
  ok : Bool

variable (d : Drive) (physical : Word → Word)

/-- The loop of IDEDrive::sectorTransfer that sets up the table. -/
def ideEntries (buffer : Word) : ℕ → ℕ → Word → List PRDTEntry
  | 0,_,_ => []
  | n+1,i,bytesLeft =>
    { bufferAddress := physical (BitVec.ofNat 32 (65536 * i) + buffer)
      byteCount := if bytesLeft ≤ 65536 then bytesLeft.setWidth 16 else 0
      reserved := 0
      last := bytesLeft ≤ 65536 } :: ideEntries buffer n (i + 1) (bytesLeft - 65536)

/-- IDEDrive::PRDTsAllocated. -/
def prdtsAllocated : Word := 8

/-- IDEDrive::sectorTransfer, and the table that it sets up. -/
def ideSectorTransfer (a : IDEAnswers) (t : Transfer) : ℤ × List PRDTEntry :=
  let byteCount : Word := BitVec.ofInt 32 (t.count * d.sectorSize)
  let prdtCount : Word := (byteCount + 65535) >>> 16
  if !a.lock then (-eio,[])
  else if !a.notBusy then (-eio,[])
  else if prdtsAllocated < prdtCount then (-enomem,[])
  else
    (if !a.ready then -eio
      else if d.atapi && !a.packetNotBusy then -eio
      else if d.atapi && !a.packetReady then -eio
      else if !a.done then -eio
      else if !a.ok then -eio
      else signed 32 t.count,
      ideEntries physical t.buffer prdtCount.toNat 0 byteCount)

/-- The loop of AHCIDrive::sectorTransfer that sets up the table. -/
def ahciEntries (bytesPerPRDT : Word) : ℕ → Word → Word → List HBAPRDTEntry
  | 0,_,_ => []
  | n+1,bytesLeft,bufPtr =>
    if bytesLeft = 0 then []
    else
      let byteCount := if bytesPerPRDT ≤ bytesLeft then bytesPerPRDT else bytesLeft
      { dba := bufPtr
        dbau := 0
        prdbc := (byteCount - 1).setWidth 22
        i := bytesLeft ≤ bytesPerPRDT } ::
          ahciEntries bytesPerPRDT n (bytesLeft - byteCount) (bufPtr + byteCount)

/-- AHCIDrive::Port::MaxPRDTs. -/
def maxPRDTs : Word := 256

/-- AHCIDrive::sectorTransfer, and the table that it sets up. -/
def ahciSectorTransfer (a : AHCIAnswers) (t : Transfer) : ℤ × List HBAPRDTEntry :=
  let prdtCount : Word :=
    BitVec.ofInt 32 ((t.count + d.maxBlockTransfer - 1).tdiv d.maxBlockTransfer)
  let bytesLeft : Word := BitVec.ofInt 32 (t.count * d.sectorSize)
  let bytesPerPRDT : Word := BitVec.ofInt 32 (d.sectorSize * d.maxBlockTransfer)
  if t.count = 0 then (0,[])
  else if !a.stop then (-ebusy,[])
  else if maxPRDTs < prdtCount then (-enomem,[])
  else
    (if !a.start then -ebusy
      else if !a.notBusy then -ebusy
      else if !a.done then -ebusy
      else if !a.ok then -eio
      else signed 32 t.count,
      ahciEntries bytesPerPRDT prdtCount.toNat bytesLeft (physical t.buffer))

/-- The number of transfers, in 64 bits. -/
def blocks (count : ℤ) : ℤ :=
  (signed 64 (d.maxBlockTransfer *
    (signed 64 (count + (d.maxBlockTransfer - 1))).tdiv d.maxBlockTransfer)).tdiv
      d.maxBlockTransfer

/-- The loop of ReadSectors and WriteSectors, with what sectorTransfer returns the first time,
the second time and so on, and the transfers that it asks for. -/
def sectorsFrom (sectorTransfer : ℕ → Transfer → ℤ) (write : Bool) :
    ℕ → ℕ → Word → BitVec 64 → ℤ → ℤ → ℤ × List Transfer
  | 0,_,_,_,_,st => (st,[])
  | left+1,i,buf,start,count,st =>
    let t : Transfer := ⟨write,buf,start,min count d.maxBlockTransfer⟩
    let sr := sectorTransfer i t
    if sr < 0 then (sr,[t])
    else if count - sr = 0 ∨ sr ≠ t.count then (st + sr,[t])
    else
      let r := sectorsFrom sectorTransfer write left (i + 1)
        (buf + BitVec.ofInt 32 (sr * d.sectorSize)) (start + BitVec.ofInt 64 sr) (count - sr)
        (st + sr)
      (r.1,t :: r.2)

/-- ReadSectors and WriteSectors. -/
def sectors (sectorTransfer : ℕ → Transfer → ℤ) (write : Bool) (buffer : Word)
    (start : BitVec 64) (count : ℤ) : ℤ × List Transfer :=
  sectorsFrom d sectorTransfer write (blocks d count).toNat 0 buffer start count 0

/-- IDEDrive::ReadSectors. -/
def ideReadSectors (answers : ℕ → IDEAnswers) (buffer : Word) (start : BitVec 64) (count : ℤ) :
    ℤ × List Transfer :=
  sectors d (fun i t => (ideSectorTransfer d physical (answers i) t).1) false buffer start count

/-- IDEDrive::WriteSectors. -/
def ideWriteSectors (answers : ℕ → IDEAnswers) (buffer : Word) (start : BitVec 64) (count : ℤ) :
    ℤ × List Transfer :=
  sectors d (fun i t => (ideSectorTransfer d physical (answers i) t).1) true buffer start count

/-- AHCIDrive::ReadSectors. -/
def ahciReadSectors (answers : ℕ → AHCIAnswers) (buffer : Word) (start : BitVec 64)
    (count : ℤ) : ℤ × List Transfer :=
  sectors d (fun i t => (ahciSectorTransfer d physical (answers i) t).1) false buffer start count

/-- AHCIDrive::WriteSectors. -/
def ahciWriteSectors (answers : ℕ → AHCIAnswers) (buffer : Word) (start : BitVec 64)
    (count : ℤ) : ℤ × List Transfer :=
  sectors d (fun i t => (ahciSectorTransfer d physical (answers i) t).1) true buffer start count

end Drives

section Regions

/-- What an entry of a table tells the controller. -/
structure Region where
  /-- Its address. -/
  address : Word
  /-- Its size. -/
  bytes : ℕ
  /-- It is marked as the last. -/
  last : Bool

/-- An entry for IDE, where zero means 64 KiB. -/
def PRDTEntry.region (e : PRDTEntry) : Region :=
  ⟨e.bufferAddress,if e.byteCount = 0 then 65536 else e.byteCount.toNat,e.last⟩

/-- An entry for AHCI, where the count is one less than the size. -/
def HBAPRDTEntry.region (e : HBAPRDTEntry) : Region := ⟨e.dba,e.prdbc.toNat + 1,e.i⟩

/-- Regions follow one another up to some size, and only the last is marked so. -/
def Covers (a : Word) (total : ℕ) : ℕ → List Region → Prop
  | off,[] => off = total
  | off,r::rs => r.address = a + BitVec.ofNat 32 off ∧ 0 < r.bytes ∧ (r.last = true ↔ rs = []) ∧
    Covers a total (off + r.bytes) rs

/-- Addresses that follow one another do so physically. -/
def Contiguous (physical : Word → Word) (buffer : Word) (n : ℕ) : Prop :=
  ∀ k,k < n → physical (buffer + BitVec.ofNat 32 k) = physical buffer + BitVec.ofNat 32 k

variable {d : Drive} {physical : Word → Word} {t : Transfer} {buffer : Word}

/-- The table of an IDE drive covers what is left. -/
theorem ideEntries_covers {n i : ℕ} {left : Word} (hn : (left.toNat + 65535) / 65536 = n)
    (hsmall : 65536 * i + left.toNat ≤ 2 ^ 31)
    (hphysical : Contiguous physical buffer (65536 * i + left.toNat)) :
    Covers (physical buffer) (65536 * i + left.toNat) (65536 * i)
      ((ideEntries physical buffer n i left).map PRDTEntry.region) := by
  induction n generalizing i left with
  | zero =>
    rw [ideEntries]
    exact (show 65536 * i = _ by omega)
  | succ n ih =>
    have hle : left ≤ 65536 ↔ left.toNat ≤ 65536 := BitVec.le_def
    have haddress : physical (BitVec.ofNat 32 (65536 * i) + buffer) =
        physical buffer + BitVec.ofNat 32 (65536 * i) := by
      rw [BitVec.add_comm]
      exact hphysical _ (by omega)
    rw [ideEntries,List.map_cons]
    by_cases hlast : left.toNat ≤ 65536
    · obtain rfl : n = 0 := by omega
      have hbytes : (if left.setWidth 16 = 0 then 65536 else (left.setWidth 16).toNat) =
          left.toNat := by
        have hmod : (left.setWidth 16).toNat = left.toNat % 65536 := BitVec.toNat_setWidth ..
        split_ifs with hzero
        · rw [hzero] at hmod
          have h0 : (0 : BitVec 16).toNat = 0 := rfl
          omega
        · have hne : (left.setWidth 16).toNat ≠ 0 := fun he => hzero (BitVec.eq_of_toNat_eq he)
          omega
      refine ⟨haddress,?_,?_,?_⟩
      · simp only [PRDTEntry.region,if_pos (hle.mpr hlast),hbytes]
        omega
      · simp only [PRDTEntry.region,decide_eq_true_iff,ideEntries,List.map_nil]
        exact ⟨fun _ => trivial,fun _ => hle.mpr hlast⟩
      · simp only [PRDTEntry.region,if_pos (hle.mpr hlast),hbytes]
        rfl
    · have hnot : ¬left ≤ 65536 := fun hm => hlast (hle.mp hm)
      have hrest : (left - 65536).toNat = left.toNat - 65536 := by bv_omega
      have hsum : 65536 * (i + 1) + (left - 65536).toNat = 65536 * i + left.toNat := by omega
      refine ⟨haddress,?_,?_,?_⟩
      · simp only [PRDTEntry.region,if_neg hnot,if_true]
        decide
      · obtain ⟨n',rfl⟩ : ∃ n',n = n' + 1 := ⟨n-1,by omega⟩
        simp only [PRDTEntry.region,decide_eq_true_iff,ideEntries,List.map_cons]
        exact ⟨fun hm => absurd hm hnot,fun hm => by cases hm⟩
      · have hcovers := ih (i := i + 1)
          (show ((left - 65536).toNat + 65535) / 65536 = n by omega) (by omega)
          (by rw [hsum]; exact hphysical)
        rw [hsum] at hcovers
        simp only [PRDTEntry.region,if_neg hnot,if_true]
        exact hcovers

end Regions

section Tables

variable {d : Drive} {physical : Word → Word} {t : Transfer}

/-- The table of an AHCI drive covers what is left. -/
theorem ahciEntries_covers {per : Word} (hper : 0 < per.toNat) (hlarge : per.toNat ≤ 2 ^ 22)
    {a ptr left : Word} {n off : ℕ} (hn : left.toNat ≤ n * per.toNat)
    (hptr : ptr = a + BitVec.ofNat 32 off) (hsmall : off + left.toNat ≤ 2 ^ 31) :
    Covers a (off + left.toNat) off
      ((ahciEntries per n left ptr).map HBAPRDTEntry.region) := by
  induction n generalizing ptr left off with
  | zero =>
    rw [ahciEntries]
    exact (show off = _ by omega)
  | succ n ih =>
    rw [ahciEntries]
    by_cases hzero : left = 0
    · rw [if_pos hzero,hzero]
      exact rfl
    · have hpos : 0 < left.toNat :=
        Nat.pos_of_ne_zero fun he => hzero (BitVec.eq_of_toNat_eq he)
      have hle : left ≤ per ↔ left.toNat ≤ per.toNat := BitVec.le_def
      have hcount : (if per ≤ left then per else left).toNat = min per.toNat left.toNat := by
        split_ifs with hge
        · rw [BitVec.le_def] at hge
          omega
        · rw [BitVec.le_def] at hge
          omega
      rw [if_neg hzero]
      simp only
      generalize (if per ≤ left then per else left) = byteCount at hcount ⊢
      have hbytes : ((byteCount - 1).setWidth 22).toNat + 1 = byteCount.toNat := by
        have hone : (byteCount - 1).toNat = byteCount.toNat - 1 := by bv_omega
        rw [BitVec.toNat_setWidth,hone,Nat.mod_eq_of_lt (by omega)]
        omega
      have hrest : (left - byteCount).toNat = left.toNat - byteCount.toNat := by bv_omega
      have hnext : ptr + byteCount = a + BitVec.ofNat 32 (off + byteCount.toNat) := by
        rw [hptr,BitVec.ofNat_add,BitVec.ofNat_toNat,BitVec.setWidth_eq,BitVec.add_assoc]
      rw [Nat.succ_mul] at hn
      have hcovers := ih (show (left - byteCount).toNat ≤ n * per.toNat by omega) hnext (by omega)
      rw [show off + byteCount.toNat + (left - byteCount).toNat = off + left.toNat by omega]
        at hcovers
      rw [List.map_cons]
      refine ⟨hptr,?_,?_,?_⟩
      · simp only [HBAPRDTEntry.region,hbytes]
        omega
      · simp only [HBAPRDTEntry.region,decide_eq_true_iff,List.map_eq_nil_iff]
        rw [hle]
        constructor
        · intro hlast
          have hend : left - byteCount = 0 := by
            refine BitVec.eq_of_toNat_eq ?_
            rw [hrest,hcount]
            exact (show _ = 0 by omega)
          cases n with
          | zero => rfl
          | succ n => rw [ahciEntries,if_pos hend]
        · intro hnil
          by_contra hmore
          have hne : left - byteCount ≠ 0 := by
            intro he
            rw [he] at hrest
            have h0 : (0 : Word).toNat = 0 := rfl
            omega
          cases n with
          | zero => omega
          | succ n =>
            rw [ahciEntries,if_neg hne] at hnil
            cases hnil
      · simp only [HBAPRDTEntry.region,hbytes]
        exact hcovers

/-- A sector size. -/
theorem sectorSize_spec (d : Drive) : 0 < d.sectorSize ∧ d.sectorSize ≤ 2048 := by
  rw [Drive.sectorSize]
  split_ifs <;> decide

/-- MaxBlockTransfer is a positive byte. -/
theorem maxBlockTransfer_spec (d : Drive) : 1 ≤ d.maxBlockTransfer ∧ d.maxBlockTransfer ≤ 255 := by
  have hlt := d.maximumBlockTransfer.isLt
  rw [Drive.maxBlockTransfer]
  split_ifs with hzero
  · have hpos : d.maximumBlockTransfer.toNat ≠ 0 := fun he => hzero (BitVec.eq_of_toNat_eq he)
    omega
  · omega

/-- The bytes of a transfer. -/
theorem bytes_spec (hpos : 0 < t.count) (hle : t.count ≤ d.maxBlockTransfer) :
    (BitVec.ofInt 32 (t.count * d.sectorSize)).toNat = (t.count * d.sectorSize).toNat ∧
      0 < (t.count * d.sectorSize).toNat ∧ (t.count * d.sectorSize).toNat ≤ 522240 := by
  obtain ⟨hs,hs'⟩ := sectorSize_spec d
  obtain ⟨-,hm⟩ := maxBlockTransfer_spec d
  have hmul : t.count * d.sectorSize ≤ 255 * 2048 :=
    mul_le_mul (hle.trans hm) (by exact_mod_cast hs') (by positivity) (by norm_num)
  have hmul' : 0 < t.count * d.sectorSize := mul_pos hpos (by exact_mod_cast hs)
  refine ⟨?_,by omega,by omega⟩
  rw [BitVec.toNat_ofInt]
  omega

/-- What is expected of a transfer: it returns its count and has a table for its bytes, or it
returns an error, and has such a table or none. -/
def Serves (d : Drive) (physical : Word → Word) (t : Transfer) (r : ℤ × List Region) : Prop :=
  (r.1 = t.count ∧ Covers (physical t.buffer) (t.count * d.sectorSize).toNat 0 r.2) ∨
    (r.1 < 0 ∧
      (r.2 = [] ∨ Covers (physical t.buffer) (t.count * d.sectorSize).toNat 0 r.2))

/-- The count comes back as an int. -/
theorem signed_count (hpos : 0 < t.count) (hle : t.count ≤ d.maxBlockTransfer) :
    signed 32 t.count = t.count := by
  obtain ⟨-,hm⟩ := maxBlockTransfer_spec d
  exact signed_of_range (by norm_num; omega) (by norm_num; omega)

/-- A transfer of an IDE drive. -/
theorem ide_serves (hpos : 0 < t.count) (hle : t.count ≤ d.maxBlockTransfer)
    (hphysical : Contiguous physical t.buffer (t.count * d.sectorSize).toNat) (a : IDEAnswers) :
    Serves d physical t ((ideSectorTransfer d physical a t).1,
      (ideSectorTransfer d physical a t).2.map PRDTEntry.region) := by
  obtain ⟨hbytes,hpos',hsmall⟩ := bytes_spec hpos hle
  have heio : -eio < 0 := by decide
  rw [Serves,ideSectorTransfer]
  simp only [signed_count hpos hle]
  generalize BitVec.ofInt 32 (t.count * d.sectorSize) = byteCount at hbytes ⊢
  generalize (t.count * d.sectorSize).toNat = total at *
  have hsum : (byteCount + 65535).toNat = total + 65535 := by bv_omega
  have hcount : ((byteCount + 65535) >>> 16).toNat = (total + 65535) / 65536 := by
    rw [BitVec.toNat_ushiftRight,Nat.shiftRight_eq_div_pow,hsum]
  have hroom : ¬prdtsAllocated < (byteCount + 65535) >>> 16 := by
    rw [BitVec.lt_def,hcount,show prdtsAllocated.toNat = 8 from rfl]
    omega
  have hcovers := ideEntries_covers (i := 0) (n := ((byteCount + 65535) >>> 16).toNat)
    (by rw [hbytes,hcount]) (by omega)
    (show Contiguous physical t.buffer (65536 * 0 + byteCount.toNat) by
      rw [Nat.mul_zero,Nat.zero_add,hbytes]; exact hphysical)
  rw [Nat.mul_zero,Nat.zero_add,hbytes] at hcovers
  rw [if_neg hroom]
  cases a.lock with
  | false => exact .inr ⟨heio,.inl rfl⟩
  | true =>
    cases a.notBusy with
    | false => exact .inr ⟨heio,.inl rfl⟩
    | true =>
      simp only [Bool.not_true,Bool.false_eq_true,if_false]
      split_ifs
      all_goals first
        | exact .inr ⟨heio,.inr hcovers⟩
        | exact .inl ⟨rfl,hcovers⟩

/-- A transfer of an AHCI drive. -/
theorem ahci_serves (hpos : 0 < t.count) (hle : t.count ≤ d.maxBlockTransfer) (a : AHCIAnswers) :
    Serves d physical t ((ahciSectorTransfer d physical a t).1,
      (ahciSectorTransfer d physical a t).2.map HBAPRDTEntry.region) := by
  obtain ⟨hbytes,hpos',hsmall⟩ := bytes_spec hpos hle
  obtain ⟨hm,hm'⟩ := maxBlockTransfer_spec d
  have hfull : t.count * d.sectorSize ≤ d.maxBlockTransfer * d.sectorSize :=
    mul_le_mul_of_nonneg_right hle (by positivity)
  have hperInt : d.sectorSize * d.maxBlockTransfer = d.maxBlockTransfer * d.sectorSize :=
    mul_comm ..
  obtain ⟨hper,hperpos,hpersmall⟩ :=
    bytes_spec (d := d) (t := { t with count := d.maxBlockTransfer }) (by exact hm) le_rfl
  have heio : -eio < 0 := by decide
  have hebusy : -ebusy < 0 := by decide
  have hone : (t.count + d.maxBlockTransfer - 1).tdiv d.maxBlockTransfer = 1 := by
    rw [Int.tdiv_eq_ediv_of_nonneg (by omega)]
    exact (Int.ediv_eq_iff_of_pos (by omega)).mpr ⟨by omega,by omega⟩
  simp only at hper hperpos hpersmall
  rw [Serves,ahciSectorTransfer]
  simp only [signed_count hpos hle,hone,hperInt]
  have hle' : (t.count * d.sectorSize).toNat ≤ (d.maxBlockTransfer * d.sectorSize).toNat := by
    omega
  generalize BitVec.ofInt 32 (t.count * d.sectorSize) = byteCount at hbytes ⊢
  generalize BitVec.ofInt 32 (d.maxBlockTransfer * d.sectorSize) = per at hper ⊢
  generalize (t.count * d.sectorSize).toNat = total at *
  generalize (d.maxBlockTransfer * d.sectorSize).toNat = most at *
  have hcovers : Covers (physical t.buffer) (0 + byteCount.toNat) 0
      ((ahciEntries per (BitVec.ofInt 32 1).toNat byteCount (physical t.buffer)).map
        HBAPRDTEntry.region) :=
    ahciEntries_covers (by omega) (by omega)
      (by rw [show (BitVec.ofInt 32 1).toNat = 1 from rfl]; omega) (BitVec.add_zero _).symm
      (by omega)
  rw [Nat.zero_add,hbytes] at hcovers
  rw [if_neg (show t.count ≠ 0 by omega),if_neg (show ¬maxPRDTs < BitVec.ofInt 32 1 by decide)]
  cases a.stop with
  | false => exact .inr ⟨hebusy,.inl rfl⟩
  | true =>
    simp only [Bool.not_true,Bool.false_eq_true,if_false]
    split_ifs
    all_goals first
      | exact .inr ⟨hebusy,.inr hcovers⟩
      | exact .inr ⟨heio,.inr hcovers⟩
      | exact .inl ⟨rfl,hcovers⟩

end Tables

section Splitting

variable {d : Drive} {physical : Word → Word} {f : ℕ → Transfer → ℤ} {write : Bool}
variable {buffer : Word} {start : BitVec 64} {count : ℤ}

/-- Transfers that follow one another from a sector of the request on. -/
def Consecutive (d : Drive) (write : Bool) (buffer : Word) (start : BitVec 64) :
    ℤ → List Transfer → Prop
  | _,[] => True
  | off,t::ts => t.write = write ∧ t.buffer = buffer + BitVec.ofInt 32 (off * d.sectorSize) ∧
    t.start = start + BitVec.ofInt 64 off ∧ 0 < t.count ∧ t.count ≤ d.maxBlockTransfer ∧
    Consecutive d write buffer start (off + t.count) ts

/-- The sectors of some transfers. -/
def total (ts : List Transfer) : ℤ := (ts.map Transfer.count).sum

/-- The request is divided into transfers that follow one another. If all of them succeed they
cover it, and their number is returned; the error of one that fails is returned. -/
structure Splits (d : Drive) (f : ℕ → Transfer → ℤ) (i : ℕ) (off st count : ℤ)
    (write : Bool) (buffer : Word) (start : BitVec 64) (r : ℤ × List Transfer) : Prop where
  /-- They follow one another. -/
  consecutive : Consecutive d write buffer start off r.2
  /-- They do not go further than the request. -/
  within : total r.2 ≤ count
  /-- All of them succeed. -/
  all : (∀ n t,r.2[n]? = some t → f (i + n) t = t.count) → r.1 = st + count ∧ total r.2 = count
  /-- One of them fails. -/
  failed : ∀ n t,r.2[n]? = some t → f (i + n) t ≠ t.count → r.1 = f (i + n) t

/-- The loop divides what is left. -/
theorem sectorsFrom_splits (hf : ∀ n t,0 < t.count → t.count ≤ d.maxBlockTransfer →
    f n t = t.count ∨ f n t < 0) {left i : ℕ} {off st : ℤ} (hcount : 0 ≤ count)
    (hleft : count ≤ left * d.maxBlockTransfer) (hpos : left = 0 ∨ 0 < count) :
    Splits d f i off st count write buffer start
      (sectorsFrom d f write left i (buffer + BitVec.ofInt 32 (off * d.sectorSize))
        (start + BitVec.ofInt 64 off) count st) := by
  obtain ⟨hm,-⟩ := maxBlockTransfer_spec d
  induction left generalizing i off st count with
  | zero =>
    obtain rfl : count = 0 := by
      rw [Nat.cast_zero,zero_mul] at hleft
      omega
    exact ⟨trivial,le_rfl,fun _ => ⟨(add_zero st).symm,rfl⟩,fun n t ht => by cases ht⟩
  | succ left ih =>
    have hpos' : 0 < count := hpos.resolve_left (Nat.succ_ne_zero left)
    rw [sectorsFrom]
    simp only
    have hmin : 0 < min count d.maxBlockTransfer := lt_min hpos' (by omega)
    have hmin' : min count d.maxBlockTransfer ≤ d.maxBlockTransfer := min_le_right ..
    have hmin'' : min count d.maxBlockTransfer ≤ count := min_le_left ..
    have hsr := hf i ⟨write,buffer + BitVec.ofInt 32 (off * d.sectorSize),
      start + BitVec.ofInt 64 off,min count d.maxBlockTransfer⟩ hmin hmin'
    generalize ht : (⟨write,buffer + BitVec.ofInt 32 (off * d.sectorSize),
      start + BitVec.ofInt 64 off,min count d.maxBlockTransfer⟩ : Transfer) = t at hsr ⊢
    have htcount : t.count = min count d.maxBlockTransfer := by rw [←ht]
    have hone : Consecutive d write buffer start off [t] := by
      rw [←ht]
      exact ⟨rfl,rfl,rfl,hmin,hmin',trivial⟩
    have hfirst : ∀ n t',([t] : List Transfer)[n]? = some t' → n = 0 ∧ t' = t := by
      intro n t' hn
      cases n with
      | zero => exact ⟨rfl,(Option.some_inj.mp hn).symm⟩
      | succ n => cases hn
    have htotal : total [t] = t.count := add_zero _
    by_cases hneg : f i t < 0
    · rw [if_pos hneg]
      refine ⟨hone,by rw [htotal,htcount]; exact hmin'',fun hall => ?_,fun n t' hn _ => ?_⟩
      · have hgood : f i t = t.count := hall 0 t rfl
        omega
      · obtain ⟨rfl,rfl⟩ := hfirst n t' hn
        rfl
    · have hgood : f i t = t.count := hsr.resolve_right hneg
      rw [if_neg hneg,hgood,←htcount]
      by_cases hend : count - t.count = 0 ∨ t.count ≠ t.count
      · have hall : t.count = count := by
          obtain hend | hend := hend
          · omega
          · exact absurd rfl hend
        rw [if_pos hend]
        refine ⟨hone,by rw [htotal,hall],fun _ => ⟨by rw [hall],htotal.trans hall⟩,
          fun n t' hn hne => ?_⟩
        obtain ⟨rfl,rfl⟩ := hfirst n t' hn
        exact absurd hgood hne
      · rw [not_or] at hend
        have hfull : t.count = d.maxBlockTransfer := by omega
        have hleft' : count - t.count ≤ left * d.maxBlockTransfer := by
          rw [Nat.cast_succ,add_mul,one_mul] at hleft
          omega
        have hrest : Splits d f (i + 1) (off + t.count) (st + t.count) (count - t.count) write
            buffer start _ := ih (by omega) hleft' (.inr (by omega))
        have hbuf : buffer + BitVec.ofInt 32 (off * d.sectorSize) +
            BitVec.ofInt 32 (t.count * d.sectorSize) =
              buffer + BitVec.ofInt 32 ((off + t.count) * d.sectorSize) := by
          rw [add_mul,BitVec.ofInt_add,BitVec.add_assoc]
        have hstart : start + BitVec.ofInt 64 off + BitVec.ofInt 64 t.count =
            start + BitVec.ofInt 64 (off + t.count) := by
          rw [BitVec.ofInt_add,BitVec.add_assoc]
        rw [if_neg (not_or.mpr hend),hbuf,hstart]
        generalize sectorsFrom d f write left (i + 1) (buffer + BitVec.ofInt 32
          ((off + t.count) * d.sectorSize)) (start + BitVec.ofInt 64 (off + t.count))
          (count - t.count) (st + t.count) = r at hrest ⊢
        have hsum : total (t :: r.2) = t.count + total r.2 := List.sum_cons
        have hwithin := hrest.within
        refine ⟨?_,by rw [hsum]; omega,fun hall => ?_,fun n t' hn hne => ?_⟩
        · rw [←ht] at hrest ⊢
          exact ⟨rfl,rfl,rfl,hmin,hmin',hrest.consecutive⟩
        · obtain ⟨hr,hr'⟩ := hrest.all fun n t' hn => by
            rw [show i + 1 + n = i + (n + 1) by omega]
            exact hall (n + 1) t' hn
          rw [hsum,hr,hr']
          exact ⟨by omega,by omega⟩
        · cases n with
          | zero =>
            obtain rfl := Option.some_inj.mp hn
            exact absurd hgood hne
          | succ n =>
            rw [show i + (n + 1) = i + 1 + n by omega] at hne ⊢
            exact hrest.failed n t' hn hne

/-- The number of transfers is enough, and none is for nothing. -/
theorem blocks_spec (hcount : 0 ≤ count) (hsmall : count ≤ 2 ^ 32) :
    0 ≤ blocks d count ∧ count ≤ blocks d count * d.maxBlockTransfer ∧
      (blocks d count = 0 ∨ 0 < count) := by
  obtain ⟨hm,hm'⟩ := maxBlockTransfer_spec d
  have hsum : signed 64 (count + (d.maxBlockTransfer - 1)) = count + (d.maxBlockTransfer - 1) :=
    signed_of_range (by norm_num; omega) (by norm_num; omega)
  have hinner : (count + (d.maxBlockTransfer - 1)).tdiv d.maxBlockTransfer =
      (count + (d.maxBlockTransfer - 1)) / d.maxBlockTransfer :=
    Int.tdiv_eq_ediv_of_nonneg (by omega)
  rw [blocks,hsum,hinner]
  generalize d.maxBlockTransfer = m at *
  have hdiv : m * ((count + (m - 1)) / m) + (count + (m - 1)) % m = count + (m - 1) :=
    Int.mul_ediv_add_emod ..
  have hmod := Int.emod_nonneg (count + (m - 1)) (show m ≠ 0 by omega)
  have hmod' := Int.emod_lt_of_pos (count + (m - 1)) (show 0 < m by omega)
  have hnonneg : 0 ≤ (count + (m - 1)) / m := Int.ediv_nonneg (by omega) (by omega)
  have hprod : signed 64 (m * ((count + (m - 1)) / m)) = m * ((count + (m - 1)) / m) := by
    have hmul : 0 ≤ m * ((count + (m - 1)) / m) := mul_nonneg (by omega) hnonneg
    exact signed_of_range (by norm_num; omega) (by norm_num; omega)
  rw [hprod,Int.mul_tdiv_cancel_left _ (show m ≠ 0 by omega)]
  refine ⟨hnonneg,?_,?_⟩
  · rw [mul_comm]
    omega
  · by_cases hzero : count = 0
    · left
      rw [hzero,zero_add]
      exact Int.ediv_eq_zero_of_lt (by omega) (by omega)
    · right
      omega

/-- ReadSectors and WriteSectors divide their requests. -/
theorem sectors_splits (hf : ∀ n t,0 < t.count → t.count ≤ d.maxBlockTransfer →
    f n t = t.count ∨ f n t < 0) (hcount : 0 ≤ count) (hsmall : count ≤ 2 ^ 32) :
    Splits d f 0 0 0 count write buffer start (sectors d f write buffer start count) := by
  obtain ⟨hnonneg,henough,hpos⟩ := blocks_spec (d := d) hcount hsmall
  have hcast : (((blocks d count).toNat : ℕ) : ℤ) = blocks d count := Int.toNat_of_nonneg hnonneg
  have hrun : Splits d f 0 0 0 count write buffer start (sectorsFrom d f write
      (blocks d count).toNat 0 (buffer + BitVec.ofInt 32 (0 * d.sectorSize))
      (start + BitVec.ofInt 64 0) count 0) :=
    sectorsFrom_splits hf hcount (by rw [hcast]; exact henough) (by omega)
  rw [zero_mul,show BitVec.ofInt 32 0 = 0#32 from rfl,show BitVec.ofInt 64 0 = 0#64 from rfl,
    BitVec.add_zero,BitVec.add_zero] at hrun
  exact hrun

end Splitting

section Service

variable {d : Drive} {physical : Word → Word} {write : Bool} {buffer : Word} {start : BitVec 64}
variable {count : ℤ}

/-- The request is served: it is divided as it should be, and each transfer has a table for its
part of the buffer. -/
structure Served (d : Drive) (physical : Word → Word)
    (transfer : ℕ → Transfer → ℤ × List Region) (write : Bool) (buffer : Word) (start : BitVec 64)
    (count : ℤ) (r : ℤ × List Transfer) : Prop where
  /-- The transfers. -/
  splits : Splits d (fun i t => (transfer i t).1) 0 0 0 count write buffer start r
  /-- The tables. -/
  serves : ∀ n t,r.2[n]? = some t → Serves d physical t (transfer n t)

/-- A transfer of a request lies in it. -/
theorem mem_consecutive {ts : List Transfer} {off : ℤ}
    (h : Consecutive d write buffer start off ts) {n : ℕ} {t : Transfer}
    (ht : ts[n]? = some t) : ∃ o,off ≤ o ∧ o + t.count ≤ off + total ts ∧ 0 < t.count ∧
      t.count ≤ d.maxBlockTransfer ∧ t.buffer = buffer + BitVec.ofInt 32 (o * d.sectorSize) := by
  induction ts generalizing off n with
  | nil => cases ht
  | cons t' ts ih =>
    obtain ⟨-,hbuffer,-,hpos,hle,hrest⟩ := h
    have hsum : total (t' :: ts) = t'.count + total ts := List.sum_cons
    have hnonneg : 0 ≤ total ts := by
      clear ih ht hsum
      generalize off + t'.count = off' at hrest
      induction ts generalizing off' with
      | nil => exact le_rfl
      | cons t'' ts ih =>
        obtain ⟨-,-,-,hpos'',-,hrest''⟩ := hrest
        have hsum : total (t'' :: ts) = t''.count + total ts := List.sum_cons
        have htail := ih _ hrest''
        omega
    cases n with
    | zero =>
      obtain rfl := Option.some_inj.mp ht
      exact ⟨off,le_rfl,by omega,hpos,hle,hbuffer⟩
    | succ n =>
      obtain ⟨o,ho,ho',hrest'⟩ := ih hrest ht
      exact ⟨o,by omega,by omega,hrest'⟩

/-- A part of a contiguous buffer is contiguous. -/
theorem contiguous_part {n o k : ℕ} (h : Contiguous physical buffer n) (hk : o + k ≤ n) :
    Contiguous physical (buffer + BitVec.ofNat 32 o) k := by
  intro j hj
  rw [BitVec.add_assoc,←BitVec.ofNat_add,h _ (by omega),h o (by omega),BitVec.ofNat_add,
    BitVec.add_assoc]

/-- A request is served if its transfers are. -/
theorem sectors_served {transfer : ℕ → Transfer → ℤ × List Region}
    (hserves : ∀ i (t : Transfer),0 < t.count → t.count ≤ d.maxBlockTransfer →
      Contiguous physical t.buffer (t.count * d.sectorSize).toNat →
      Serves d physical t (transfer i t))
    (hresult : ∀ i (t : Transfer),0 < t.count → t.count ≤ d.maxBlockTransfer →
      (transfer i t).1 = t.count ∨ (transfer i t).1 < 0)
    (hcount : 0 ≤ count) (hbuffer : buffer.toNat + count * d.sectorSize ≤ 2 ^ 32)
    (hphysical : Contiguous physical buffer (count * d.sectorSize).toNat) :
    Served d physical transfer write buffer start count
      (sectors d (fun i t => (transfer i t).1) write buffer start count) := by
  obtain ⟨hs,-⟩ := sectorSize_spec d
  have hs' : (1 : ℤ) ≤ d.sectorSize := by exact_mod_cast hs
  have hsmall : count ≤ 2 ^ 32 := by
    have hmul := mul_le_mul_of_nonneg_left hs' hcount
    omega
  have hsplits : Splits d (fun i t => (transfer i t).1) 0 0 0 count write buffer start
      (sectors d (fun i t => (transfer i t).1) write buffer start count) :=
    sectors_splits hresult hcount hsmall
  refine ⟨hsplits,fun n t ht => ?_⟩
  obtain ⟨o,ho,ho',hpos,hle,htb⟩ := mem_consecutive hsplits.consecutive ht
  have hwithin := hsplits.within
  refine hserves n t hpos hle ?_
  have hoff : BitVec.ofInt 32 (o * d.sectorSize) = BitVec.ofNat 32 (o * d.sectorSize).toNat := by
    have hnonneg : 0 ≤ o * d.sectorSize := mul_nonneg ho (by omega)
    conv_lhs => rw [←Int.toNat_of_nonneg hnonneg]
    exact BitVec.ofInt_natCast ..
  rw [htb,hoff]
  refine contiguous_part hphysical ?_
  have hend : o * d.sectorSize + t.count * d.sectorSize ≤ count * d.sectorSize := by
    rw [←add_mul]
    exact mul_le_mul_of_nonneg_right (by omega) (by omega)
  have hnonneg : 0 ≤ o * d.sectorSize := mul_nonneg ho (by omega)
  have hnonneg' : 0 ≤ t.count * d.sectorSize := mul_nonneg hpos.le (by omega)
  omega

/-- What an IDE transfer returns, wherever the buffer is. -/
theorem ide_result {t : Transfer} (hpos : 0 < t.count) (hle : t.count ≤ d.maxBlockTransfer)
    (a : IDEAnswers) : (ideSectorTransfer d physical a t).1 = t.count ∨
      (ideSectorTransfer d physical a t).1 < 0 := by
  have hsame : (ideSectorTransfer d physical a t).1 = (ideSectorTransfer d id a t).1 := by
    simp only [ideSectorTransfer]
    split_ifs <;> rfl
  rw [hsame]
  obtain ⟨h,-⟩ | ⟨h,-⟩ := ide_serves hpos hle (show Contiguous id t.buffer _ from fun _ _ => rfl) a
  · exact .inl h
  · exact .inr h

/-- What an AHCI transfer returns. -/
theorem ahci_result {t : Transfer} (hpos : 0 < t.count) (hle : t.count ≤ d.maxBlockTransfer)
    (a : AHCIAnswers) : (ahciSectorTransfer d physical a t).1 = t.count ∨
      (ahciSectorTransfer d physical a t).1 < 0 := by
  have hserves : Serves d physical t _ := ahci_serves hpos hle a
  obtain ⟨h,-⟩ | ⟨h,-⟩ := hserves
  · exact .inl h
  · exact .inr h

/-- The transfers of an IDE drive, with what their tables tell the controller. -/
def ideTransfer (d : Drive) (physical : Word → Word) (answers : ℕ → IDEAnswers) (i : ℕ)
    (t : Transfer) : ℤ × List Region :=
  ((ideSectorTransfer d physical (answers i) t).1,
    (ideSectorTransfer d physical (answers i) t).2.map PRDTEntry.region)

/-- The transfers of an AHCI drive, with what their tables tell the controller. -/
def ahciTransfer (d : Drive) (physical : Word → Word) (answers : ℕ → AHCIAnswers) (i : ℕ)
    (t : Transfer) : ℤ × List Region :=
  ((ahciSectorTransfer d physical (answers i) t).1,
    (ahciSectorTransfer d physical (answers i) t).2.map HBAPRDTEntry.region)

/-- A disk with transfers of sixteen sectors. -/
def disk : Drive := ⟨false,16⟩

/-- Nothing goes wrong on an IDE drive. -/
def ideFine : ℕ → IDEAnswers := fun _ => ⟨true,true,true,true,true,true,true⟩

/-- Nothing goes wrong on an AHCI drive. -/
def ahciFine : ℕ → AHCIAnswers := fun _ => ⟨true,true,true,true,true⟩

end Service

end WootOs.SectorTransfers
