import WootOs.PartitionIsolation

/-!
# Finding the partitions of a drive

The first sector of a drive may hold a table of four entries. The end of every
entry is checked in 32 bits before the volumes are made; an entry whose end
wraps passes the check and becomes a volume past the end of the drive. The
buffer of the first sector is given back on every path.
-/

namespace WootOs.PartitionTable

open ByteStore VolumeCache PartitionIsolation

/-- An entry of the table, without the cylinder addresses, which nobody reads. -/
structure MBRTableEntry where
  /-- Bit seven marks the active partition. -/
  flags : UInt8
  /-- Kind of partition. -/
  id : UInt8
  /-- First sector, zero for an empty entry. -/
  startLBA : ℕ
  /-- Number of sectors. -/
  lbaCount : ℕ

/-- Read entry i of the table in the first sector. -/
def entryAt (firstSector : Store) (i : ℕ) : MBRTableEntry :=
  let pos := 0x1BE + 16 * i
  ⟨firstSector pos,firstSector (pos + 4),word firstSector 4 (pos + 8),word firstSector 4 (pos + 12)⟩

/-- The table. -/
def table (firstSector : Store) : List MBRTableEntry := (List.range 4).map (entryAt firstSector)

/-- What the loop over the table has found. -/
structure Scan where
  /-- No entry ends past the drive. -/
  mbrOk : Bool := true
  /-- Active partitions. -/
  activeCount : ℕ := 0
  /-- Entries that are not empty. -/
  entryCount : ℕ := 0

/-- The loop that checks the table; it stops at the first bad entry. -/
def checkEntries (sectorCount : ℕ) : List MBRTableEntry → Scan → Scan
  | [],s => s
  | e :: es,s =>
    if e.startLBA = 0 then checkEntries sectorCount es s else
    let s := if e.flags &&& 0x80 ≠ 0 then { s with activeCount := s.activeCount + 1 } else s
    if (e.startLBA + e.lbaCount) % 2 ^ 32 > sectorCount then { s with mbrOk := false }
    else checkEntries sectorCount es { s with entryCount := s.entryCount + 1 }

/-- The loop that makes the volumes. -/
def makeVolumes (memory : Store) : List MBRTableEntry → List PartVolume
  | [] => []
  | e :: es =>
    if e.startLBA = 0 then makeVolumes memory es
    else PartVolume.new e.startLBA e.lbaCount memory :: makeVolumes memory es

/-- What the detection returns and leaves. -/
structure Detection where
  /-- Result: volumes found, or an error. -/
  result : ℤ
  /-- The volumes made. -/
  volumes : List PartVolume
  /-- DMA buffers in use. -/
  dma : ℕ

/-- The bytes read into the buffer. -/
def buffer (bytes : List UInt8) : Store := fun a => bytes.getD a 0

/-- Whether the table is taken for one of partitions. -/
def mbrOk (drive : Drive) (firstSector : Store) : Bool :=
  let mbrt := entryAt firstSector 0
  let s := checkEntries drive.sectorCount (table firstSector) {}
  let mbrOk := s.mbrOk
  let mbrOk := if drive.sectorSize ≠ 512 ∧ mbrt.id = 0xCD then false else mbrOk
  let mbrOk := if mbrt.id = 0xEE then false else mbrOk
  if s.entryCount = 0 ∨ s.activeCount > 1 then false else mbrOk

/-- Look for partitions while some DMA buffers are in use; memory is what the
buffers of new volumes happen to hold. -/
def detect (drive : Drive) (dma : ℕ) (memory : Store) : Detection :=
  if drive.sectorSize < 512 then ⟨0,[],dma⟩ else
  let dma := dma + 1
  match (drive.readSectors 0 1).1 with
  | none => ⟨-eio,[],dma - 1⟩
  | some bytes =>
    let firstSector := buffer bytes
    if firstSector 510 ≠ 0x55 ∨ firstSector 511 ≠ 0xAA then ⟨0,[],dma - 1⟩
    else if mbrOk drive firstSector = false then
      ⟨1,[PartVolume.new 0 drive.sectorCount memory],dma - 1⟩
    else
      let volumes := makeVolumes memory (table firstSector)
      ⟨volumes.length,volumes,dma - 1⟩

/-- The entries in use. -/
def inUse (es : List MBRTableEntry) : List MBRTableEntry := es.filter fun e => e.startLBA ≠ 0

/-- What a detection should leave: volumes that end on the drive, the whole
drive or one for each entry in use, and no buffer. -/
structure Sound (drive : Drive) (dma : ℕ) (memory : Store) : Prop where
  /-- Every volume ends on the drive. -/
  inside : ∀ v ∈ (detect drive dma memory).volumes,
    v.firstSector + v.sectorCount ≤ drive.sectorCount
  /-- No volume, one for the whole drive, or one for each entry in use. -/
  shape : (detect drive dma memory).volumes = [] ∨
    (detect drive dma memory).volumes = [PartVolume.new 0 drive.sectorCount memory] ∨
    ∃ bytes, (drive.readSectors 0 1).1 = some bytes ∧
      (detect drive dma memory).volumes =
        (inUse (table (buffer bytes))).map fun e => PartVolume.new e.startLBA e.lbaCount memory
  /-- The buffer was given back. -/
  released : (detect drive dma memory).dma = dma

/-- A first sector whose table is taken as a partition table. -/
structure Accepted (drive : Drive) (firstSector : Store) : Prop where
  /-- The signature is there. -/
  signature : firstSector 510 = 0x55 ∧ firstSector 511 = 0xAA
  /-- Every entry in use passes the 32-bit check. -/
  ends : ∀ e ∈ inUse (table firstSector),
    (e.startLBA + e.lbaCount) % 2 ^ 32 ≤ drive.sectorCount
  /-- Not a hybrid disc image. -/
  disc : drive.sectorSize = 512 ∨ (entryAt firstSector 0).id ≠ 0xCD
  /-- Not a newer kind of table. -/
  kind : (entryAt firstSector 0).id ≠ 0xEE
  /-- Some entry is in use. -/
  some : inUse (table firstSector) ≠ []
  /-- At most one of them is active. -/
  active : ((inUse (table firstSector)).filter fun e => e.flags &&& 0x80 ≠ 0).length ≤ 1

section

variable {drive : Drive} {dma : ℕ} {memory firstSector : Store} {es : List MBRTableEntry}

/-- The second loop makes a volume for every entry in use. -/
theorem makeVolumes_eq (memory : Store) (es : List MBRTableEntry) :
    makeVolumes memory es =
      (inUse es).map fun e => PartVolume.new e.startLBA e.lbaCount memory := by
  induction es with
  | nil => rfl
  | cons e es ih =>
    by_cases he : e.startLBA = 0
    · rw [makeVolumes,if_pos he,ih]
      simp [inUse,he]
    · rw [makeVolumes,if_neg he,ih]
      simp [inUse,he]

/-- The first loop looks at the entries in use, up to the first bad one. -/
theorem checkEntries_spec (n : ℕ) (es : List MBRTableEntry) : ∀ s : Scan,
    ((checkEntries n es s).mbrOk = true ↔ s.mbrOk = true ∧
      ∀ e ∈ inUse es, (e.startLBA + e.lbaCount) % 2 ^ 32 ≤ n) ∧
    ((checkEntries n es s).mbrOk = true →
      (checkEntries n es s).entryCount = s.entryCount + (inUse es).length ∧
      (checkEntries n es s).activeCount =
        s.activeCount + ((inUse es).filter fun e => e.flags &&& 0x80 ≠ 0).length) := by
  induction es with
  | nil =>
    intro s
    simp [checkEntries,inUse]
  | cons e es ih =>
    intro s
    by_cases he : e.startLBA = 0
    · rw [checkEntries,if_pos he]
      have hin : inUse (e :: es) = inUse es := by simp [inUse,he]
      rw [hin]
      exact ih s
    · rw [checkEntries,if_neg he]
      have hin : inUse (e :: es) = e :: inUse es := by simp [inUse,he]
      obtain ⟨s',hs',hok,hcount,hactive⟩ : ∃ s',
          (if e.flags &&& 0x80 ≠ 0 then { s with activeCount := s.activeCount + 1 } else s) = s' ∧
          s'.mbrOk = s.mbrOk ∧ s'.entryCount = s.entryCount ∧
          s'.activeCount = s.activeCount + if e.flags &&& 0x80 ≠ 0 then 1 else 0 := by
        refine ⟨_,rfl,?_⟩
        split <;> simp
      rw [hin]
      simp only [hs']
      by_cases hbad : (e.startLBA + e.lbaCount) % 2 ^ 32 > n
      · rw [if_pos hbad]
        refine ⟨⟨nofun,fun h => ?_⟩,nofun⟩
        have := h.2 e (by simp)
        omega
      · rw [if_neg hbad]
        obtain ⟨hiff,hcounts⟩ := ih { s' with entryCount := s'.entryCount + 1 }
        refine ⟨?_,fun h => ?_⟩
        · rw [hiff,hok,List.forall_mem_cons]
          have hgood := Nat.le_of_not_lt hbad
          exact ⟨fun h => ⟨h.1,hgood,h.2⟩,fun h => ⟨h.1,h.2.2⟩⟩
        · obtain ⟨he,ha⟩ := hcounts h
          rw [he,ha,hactive,List.length_cons]
          dsimp only
          refine ⟨by omega,?_⟩
          by_cases hf : e.flags &&& 0x80 ≠ 0
          · rw [List.filter_cons_of_pos (by simpa using hf),if_pos hf,List.length_cons]
            omega
          · rw [List.filter_cons_of_neg (by simpa using hf),if_neg hf,Nat.add_zero]

/-- The table is taken as told. -/
theorem accepted_iff (hsig : firstSector 510 = 0x55 ∧ firstSector 511 = 0xAA) :
    Accepted drive firstSector ↔ mbrOk drive firstSector = true := by
  obtain ⟨hiff,hcounts⟩ := checkEntries_spec drive.sectorCount (table firstSector) {}
  simp only [true_and,Nat.zero_add] at hiff hcounts
  constructor
  · intro h
    have hok := hiff.mpr h.ends
    obtain ⟨hentries,hactive⟩ := hcounts hok
    have hsome : (inUse (table firstSector)).length ≠ 0 := by
      simpa using h.some
    have hdisc : ¬(drive.sectorSize ≠ 512 ∧ (entryAt firstSector 0).id = 0xCD) :=
      fun hd => h.disc.elim hd.1 fun hid => hid hd.2
    have hcount : ¬((checkEntries drive.sectorCount (table firstSector) {}).entryCount = 0 ∨
        (checkEntries drive.sectorCount (table firstSector) {}).activeCount > 1) := by
      have := h.active
      omega
    simp only [mbrOk,if_neg hcount,if_neg h.kind,if_neg hdisc,hok]
  · intro h
    rw [mbrOk] at h
    split at h
    · exact absurd h (by simp)
    · next hcount =>
      split at h
      · exact absurd h (by simp)
      · next hkind =>
        split at h
        · exact absurd h (by simp)
        · next hdisc =>
          obtain ⟨hentries,hactive⟩ := hcounts h
          refine ⟨hsig,hiff.mp h,?_,hkind,?_,by omega⟩
          · by_cases hsize : drive.sectorSize = 512
            · exact .inl hsize
            · exact .inr fun hid => hdisc ⟨hsize,hid⟩
          · intro hnil
            rw [hnil] at hentries
            exact hcount (.inl hentries)

/-- What was detected on a drive whose first sector was read. -/
theorem detect_read {bytes : List UInt8} (hsize : ¬drive.sectorSize < 512)
    (hread : (drive.readSectors 0 1).1 = some bytes) :
    (Accepted drive (buffer bytes) ∧
      (detect drive dma memory).volumes = makeVolumes memory (table (buffer bytes))) ∨
    (¬Accepted drive (buffer bytes) ∧ ((detect drive dma memory).volumes = [] ∨
      (detect drive dma memory).volumes = [PartVolume.new 0 drive.sectorCount memory])) := by
  rw [detect,if_neg hsize]
  simp only [hread]
  by_cases hsig : buffer bytes 510 ≠ 0x55 ∨ buffer bytes 511 ≠ 0xAA
  · rw [if_pos hsig]
    refine .inr ⟨fun h => ?_,.inl rfl⟩
    exact hsig.elim (fun hne => hne h.signature.1) fun hne => hne h.signature.2
  · rw [if_neg hsig]
    have hboth : buffer bytes 510 = 0x55 ∧ buffer bytes 511 = 0xAA := by
      simpa only [not_or,not_not] using hsig
    by_cases hok : mbrOk drive (buffer bytes) = false
    · rw [if_pos hok]
      refine .inr ⟨fun h => ?_,.inr rfl⟩
      rw [(accepted_iff hboth).mp h] at hok
      exact absurd hok (by simp)
    · rw [if_neg hok]
      exact .inl ⟨(accepted_iff hboth).mpr (by simpa using hok),rfl⟩

/-- The buffer is given back whatever is found. -/
theorem detect_dma : (detect drive dma memory).dma = dma := by
  rw [detect]
  split
  · rfl
  · split
    · rfl
    · dsimp only
      split
      · rfl
      · split <;> rfl

/-- Without a first sector there is no volume. -/
theorem detect_unread (hread : (drive.readSectors 0 1).1 = none) :
    (detect drive dma memory).volumes = [] := by
  rw [detect]
  split
  · rfl
  · rw [hread]

end

/-- A detection is sound exactly if the first sector's table, where it is taken
for one of partitions, has no entry in use that ends past the drive. -/
theorem detect_sound_iff (drive : Drive) (dma : ℕ) (memory : Store)
    (hsize : 512 ≤ drive.sectorSize) :
    Sound drive dma memory ↔ ∀ bytes, (drive.readSectors 0 1).1 = some bytes →
      Accepted drive (buffer bytes) →
      ∀ e ∈ inUse (table (buffer bytes)), e.startLBA + e.lbaCount ≤ drive.sectorCount := by
  have hsize' : ¬drive.sectorSize < 512 := by omega
  constructor
  · intro h bytes hread hacc e he
    rcases @detect_read _ dma memory _ hsize' hread with ⟨-,hvol⟩ | ⟨hnot,-⟩
    · rw [makeVolumes_eq] at hvol
      exact h.inside _ (by rw [hvol]; exact List.mem_map_of_mem he)
    · exact absurd hacc hnot
  · intro h
    cases hread : (drive.readSectors 0 1).1 with
    | none =>
      have hnil := @detect_unread _ dma memory hread
      exact ⟨by rw [hnil]; simp,.inl hnil,detect_dma⟩
    | some bytes =>
      rcases @detect_read _ dma memory _ hsize' hread with
        ⟨hacc,hvol⟩ | ⟨-,hvol | hvol⟩
      · rw [makeVolumes_eq] at hvol
        refine ⟨?_,.inr (.inr ⟨bytes,hread,hvol⟩),detect_dma⟩
        rw [hvol]
        intro v hv
        obtain ⟨e,he,rfl⟩ := List.mem_map.mp hv
        exact h bytes hread hacc e he
      · exact ⟨by rw [hvol]; simp,.inl hvol,detect_dma⟩
      · refine ⟨?_,.inr (.inl hvol),detect_dma⟩
        rw [hvol]
        intro v hv
        rw [List.mem_singleton.mp hv]
        simp [PartVolume.new]

/-- A drive of a thousand sectors whose table has one entry in use. -/
def tableDrive (startLBA lbaCount : ℕ) : Drive :=
  ⟨512,1000,patch (patch (patch (fun _ => 0) 0x1C6 (leBytes 4 startLBA)) 0x1CA
    (leBytes 4 lbaCount)) 510 [0x55,0xAA],[]⟩

/-- A table with a partition that ends on the drive. -/
theorem detect_sound_one : Sound (tableDrive 63 900) 0 fun _ => 0 := by
  refine (detect_sound_iff _ _ _ (by decide)).mpr ?_
  intro bytes hread _
  obtain rfl : slice (tableDrive 63 900).data 0 512 = bytes := Option.some.inj hread
  decide +kernel

/-- An entry that starts at the last 32-bit sector and has two sectors: its end
wraps to one. -/
theorem wrapped_entry_leaves_drive : ¬Sound (tableDrive 0xFFFFFFFF 2) 0 fun _ => 0 := by
  intro h
  have hall : ((detect (tableDrive 0xFFFFFFFF 2) 0 fun _ => 0).volumes.all fun v =>
      v.firstSector + v.sectorCount ≤ 1000) = false := by decide +kernel
  refine absurd hall ?_
  rw [Bool.not_eq_false,List.all_eq_true]
  intro v hv
  exact decide_eq_true (h.inside v hv)

end WootOs.PartitionTable
