import WootOs.VolumeCacheRuns

/-!
# Two partitions of one drive

A PartVolume is a cached volume whose positions are shifted by its first
sector. Its cache has sixteen buffers of sixteen sectors, aligned to the drive
and not to the partition. Two partitions with disjoint sectors therefore stay
apart exactly when no aligned run of sixteen sectors holds sectors of both:
otherwise one cache writes back stale bytes of the other partition.
-/

namespace WootOs.PartitionIsolation

open ByteStore MachineInt VolumeCache VolumeCache.BufferedVolume VolumeCacheCoherence
open VolumeCacheTransfer VolumeCacheRuns

/-- A partition with its own buffers; drive and sequencer are shared. -/
structure PartVolume where
  /-- First sector on the drive. -/
  firstSector : ℕ
  /-- Number of sectors. -/
  sectorCount : ℕ
  /-- The buffers of its cache. -/
  buffers : List BlockBuffer
  /-- What its newly allocated DMA memory happens to hold. -/
  dma : Store

/-- A partition as its constructor leaves it: sixteen unused buffers. -/
def PartVolume.new (firstSector sectorCount : ℕ) (dma : Store) : PartVolume :=
  ⟨firstSector,sectorCount,List.replicate 16 {},dma⟩

/-- The cached volume below a partition. -/
def PartVolume.volume (p : PartVolume) (drive : Drive) (lru : ℕ) : BufferedVolume :=
  ⟨drive,lru,16,p.buffers,p.dma⟩

/-- Read and Write add the partition's offset to an unsigned 64-bit position. -/
def PartVolume.shift (p : PartVolume) (sectorSize : ℕ) : Request → Request
  | .read position n => .read (unsigned 64 (position + p.firstSector * sectorSize : ℕ)) n
  | .write src position => .write src (unsigned 64 (position + p.firstSector * sectorSize : ℕ))
  | .synchronize => .synchronize

/-- A call confined to the partition's own bytes. -/
def PartVolume.Confined (p : PartVolume) (sectorSize : ℕ) : Request → Prop
  | .read position n => n < 2 ^ 32 ∧ position + n ≤ p.sectorCount * sectorSize
  | .write src position => src.length < 2 ^ 32 ∧ position + src.length ≤ p.sectorCount * sectorSize
  | .synchronize => True

/-- Some sector of the partition lies in the k-th aligned run of the drive. -/
def PartVolume.Touches (p : PartVolume) (k : ℕ) : Prop :=
  ∃ s, p.firstSector ≤ s ∧ s < p.firstSector + p.sectorCount ∧ s / 16 = k

/-- The two partitions. -/
inductive Side where
  /-- The partition whose calls are removed. -/
  | a
  /-- The partition that is watched. -/
  | b
  deriving DecidableEq

/-- The drive, the access sequencer and the two partitions. -/
structure System where
  /-- The shared drive. -/
  drive : Drive
  /-- The shared sequencer. -/
  lru : ℕ
  /-- Partition A. -/
  partA : PartVolume
  /-- Partition B. -/
  partB : PartVolume

/-- One call of a partition, with no drive request failing. -/
def System.step (s : System) (side : Side) (r : Request) : Reply × System :=
  match side with
  | .a =>
    let out := perform (s.partA.volume s.drive s.lru) [] (s.partA.shift s.drive.sectorSize r)
    (out.1,{ s with drive := out.2.drive, lru := out.2.lru,
                    partA := { s.partA with buffers := out.2.buffers } })
  | .b =>
    let out := perform (s.partB.volume s.drive s.lru) [] (s.partB.shift s.drive.sectorSize r)
    (out.1,{ s with drive := out.2.drive, lru := out.2.lru,
                    partB := { s.partB with buffers := out.2.buffers } })

/-- An interleaving of calls: what B was told, and the final state. -/
def System.run (s : System) : List (Side × Request) → List Reply × System
  | [] => ([],s)
  | (side,r) :: calls =>
    let head := s.step side r
    let tail := head.2.run calls
    (if side = .b then head.1 :: tail.1 else tail.1,tail.2)

/-- Only B's calls. -/
def onlyB (calls : List (Side × Request)) : List (Side × Request) :=
  calls.filter fun c => c.1 = .b

/-- Every call of the interleaving stays in its own partition. -/
def System.Confined (s : System) (calls : List (Side × Request)) : Prop :=
  ∀ c ∈ calls, (match c.1 with | .a => s.partA | .b => s.partB).Confined s.drive.sectorSize c.2

/-- A's calls make no difference to B: neither to what B is told nor to what
the drive finally holds in B's sectors, once both have synchronized. -/
def System.Isolated (s : System) : Prop :=
  ∀ calls, s.Confined calls →
    ∀ last, last = [(Side.a,Request.synchronize),(Side.b,Request.synchronize)] ∨
      last = [(Side.b,Request.synchronize),(Side.a,Request.synchronize)] →
    (s.run (calls ++ last)).1 = (s.run (onlyB (calls ++ last))).1 ∧
    ∀ a, s.partB.firstSector * s.drive.sectorSize ≤ a →
      a < (s.partB.firstSector + s.partB.sectorCount) * s.drive.sectorSize →
      (s.run (calls ++ last)).2.drive.data a = (s.run (onlyB (calls ++ last))).2.drive.data a

/-- Two new partitions with disjoint sectors on one drive that fails no
request of theirs. -/
structure Layout (W C : ℕ) (s : System) : Prop where
  /-- Sizes the arithmetic can represent. -/
  geometry : Geometry 16 W C 16
  /-- No request of either cache reaches past the end of the drive. -/
  complete : ∀ k, s.partA.Touches k ∨ s.partB.Touches k → 16 * k + 16 ≤ C
  /-- Sector size. -/
  size : s.drive.sectorSize = W
  /-- Sector count. -/
  count : s.drive.sectorCount = C
  /-- No request fails. -/
  infallible : s.drive.faults = []
  /-- A's buffers are new. -/
  freshA : s.partA.buffers = List.replicate 16 {}
  /-- B's buffers are new. -/
  freshB : s.partB.buffers = List.replicate 16 {}
  /-- A lies on the drive. -/
  insideA : s.partA.firstSector + s.partA.sectorCount ≤ C
  /-- B lies on the drive. -/
  insideB : s.partB.firstSector + s.partB.sectorCount ≤ C
  /-- The sectors are disjoint. -/
  disjoint : s.partA.firstSector + s.partA.sectorCount ≤ s.partB.firstSector ∨
    s.partB.firstSector + s.partB.sectorCount ≤ s.partA.firstSector

section

variable {W C : ℕ} {P : ℕ → Prop} {p : PartVolume}

/-- A confined call fits the arithmetic and stays in the partition's runs. -/
theorem Confined.fits_within (g : Geometry 16 W C 16) (hcomplete : ∀ k, p.Touches k → 16 * k + 16 ≤ C)
    (hin : p.firstSector + p.sectorCount ≤ C) {r : Request} (h : p.Confined W r) :
    (p.shift W r).Fits (C * W) ∧ (p.shift W r).Within 16 W C p.Touches := by
  have hr := g.range
  have hend : p.firstSector * W + p.sectorCount * W ≤ C * W := by
    rw [←Nat.add_mul]; exact Nat.mul_le_mul_right W hin
  have hreach : ∀ pos n, pos + n ≤ p.sectorCount * W →
      Reach 16 W C p.Touches (pos + p.firstSector * W)
        (clip (C * W) n (pos + p.firstSector * W)) := by
    intro pos n hn a hl hu
    rw [clip] at hu
    have hsec : a / (16 * W) = a / W / 16 := by
      rw [Nat.div_div_eq_div_mul,Nat.mul_comm]
    have hlow : p.firstSector ≤ a / W := (Nat.le_div_iff_mul_le g.bytes).mpr (by omega)
    have hhigh : a / W < p.firstSector + p.sectorCount := by
      rw [Nat.div_lt_iff_lt_mul g.bytes,Nat.add_mul]; omega
    have htouch : p.Touches (a / (16 * W)) := ⟨a / W,hlow,hhigh,hsec.symm⟩
    exact ⟨htouch,hcomplete _ htouch⟩
  have hu64 : ∀ pos n, pos + n ≤ p.sectorCount * W →
      unsigned 64 ((pos + p.firstSector * W : ℕ) : ℤ) = pos + p.firstSector * W := by
    intro pos n hn
    exact unsigned_natCast (by omega)
  cases r with
  | read position n =>
    simp only [PartVolume.shift,Request.Fits,Request.Within,hu64 _ _ h.2]
    exact ⟨⟨h.1,by have := h.2; omega⟩,hreach _ _ h.2⟩
  | write src position =>
    simp only [PartVolume.shift,Request.Fits,Request.Within,hu64 _ _ h.2]
    exact ⟨⟨h.1,by have := h.2; omega⟩,hreach _ _ h.2⟩
  | synchronize => exact ⟨trivial,trivial⟩

open Classical in
/-- Changing the drive outside a volume's runs changes what it shows only
there. -/
theorem shows_withDrive {v : BufferedVolume} {arr : Store} {S N : ℕ}
    (h : Shows S W C N P v arr) (g : Geometry S W C N) {d : Drive} {t : ℕ}
    (hd : ∀ a, P (a / (S * W)) → d.data a = v.drive.data a)
    (hs : d.sectorSize = W) (hc : d.sectorCount = C) :
    Shows S W C N P { v with drive := d, lru := t }
      (fun a => if P (a / (S * W)) then arr a else d.data a) := by
  refine ⟨h.perBuffer,hs,hc,h.length,h.aligned,h.distinct,?_,h.resting,?_⟩
  · intro i b hb hu
    obtain ⟨k,hk,hP,-⟩ := h.aligned hb hu
    obtain ⟨mem,hm,harr⟩ := h.cached hb hu
    refine ⟨mem,hm,?_⟩
    intro o ho
    have hrun : (b.firstSector * W + o) / (S * W) = k := by
      rw [hk]; exact (run_offset g.sectors g.bytes).mpr ⟨o,ho,rfl⟩
    simp only [hrun,hP,if_true]
    exact harr o ho
  · intro a ha
    by_cases hP : P (a / (S * W))
    · simp only [hP,if_true]
      rw [hd a hP]
      exact h.settled a ha
    · simp only [hP,if_false]

/-- Confined replies and effects depend on the array in the partition only. -/
theorem reply_congr {arr arr' : Store} (g : Geometry 16 W C 16) (hcomplete : ∀ k, p.Touches k → 16 * k + 16 ≤ C)
    (hin : p.firstSector + p.sectorCount ≤ C) {r : Request} (hr : p.Confined W r)
    (harr : ∀ a, p.Touches (a / (16 * W)) → arr a = arr' a) :
    flatReply (C * W) arr (p.shift W r) = flatReply (C * W) arr' (p.shift W r) := by
  have hw := (Confined.fits_within g hcomplete hin hr).2
  cases r with
  | read position n =>
    simp only [PartVolume.shift,flatReply,Reply.mk.injEq,true_and]
    apply slice_congr
    intro i hi
    exact harr _ (hw _ (by omega) (by omega)).1
  | write src position => rfl
  | synchronize => rfl

/-- The relation looks at buffers, sizes and drive only. -/
theorem shows_volume {arr : Store} {v : BufferedVolume} (h : Shows 16 W C 16 P v arr)
    (p : PartVolume) (hb : p.buffers = v.buffers) : Shows 16 W C 16 P (p.volume v.drive v.lru) arr := by
  obtain ⟨first,count,buffers,dma⟩ := p
  obtain rfl : buffers = v.buffers := hb
  exact ⟨rfl,h.size,h.count,h.length,h.aligned,h.distinct,h.cached,h.resting,h.settled⟩

end

/-- The two states of one interleaving, with A's calls and without: each cache
shows an array, and in B's runs B's arrays agree. -/
structure Separate (W C : ℕ) (A B : PartVolume) (s t : System) (arrS arrT : Store) : Prop where
  /-- Where A lies. -/
  placeA : s.partA.firstSector = A.firstSector ∧ s.partA.sectorCount = A.sectorCount
  /-- Where B lies. -/
  placeB : s.partB.firstSector = B.firstSector ∧ s.partB.sectorCount = B.sectorCount
  /-- Where B lies without A. -/
  placeT : t.partB.firstSector = B.firstSector ∧ t.partB.sectorCount = B.sectorCount
  /-- A's cache shows some array. -/
  showsA : ∃ arrA, Shows 16 W C 16 A.Touches (s.partA.volume s.drive s.lru) arrA
  /-- B's cache shows an array. -/
  showsB : Shows 16 W C 16 B.Touches (s.partB.volume s.drive s.lru) arrS
  /-- B's cache without A shows an array. -/
  showsT : Shows 16 W C 16 B.Touches (t.partB.volume t.drive t.lru) arrT
  /-- The two agree where B looks. -/
  agree : ∀ a, B.Touches (a / (16 * W)) → arrS a = arrT a

/-- Shifting depends on the place only. -/
theorem shift_congr {p q : PartVolume} (h : p.firstSector = q.firstSector) (W : ℕ) (r : Request) :
    p.shift W r = q.shift W r := by
  cases r <;> simp only [PartVolume.shift,h]

section

variable {W C : ℕ} {A B : PartVolume} {s t : System} {arrS arrT : Store}

/-- One call on a partition of an infallible drive. -/
theorem perform_partition {p q : PartVolume} {d : Drive} {lru : ℕ} {arr : Store} {r : Request}
    (g : Geometry 16 W C 16) (hcomplete : ∀ k, q.Touches k → 16 * k + 16 ≤ C)
    (hin : q.firstSector + q.sectorCount ≤ C) (hplace : p.firstSector = q.firstSector)
    (h : Shows 16 W C 16 q.Touches (p.volume d lru) arr) (hr : q.Confined W r) :
    Served 16 W C 16 q.Touches arr (p.volume d lru) [] (p.shift d.sectorSize r) [] := by
  obtain rfl : d.sectorSize = W := h.size
  obtain ⟨hfit,hwithin⟩ := Confined.fits_within g hcomplete hin hr
  rw [shift_congr hplace]
  obtain ⟨l,hs⟩ := perform_spec g h [] _ hfit hwithin (by
    cases q.shift d.sectorSize r <;> simp [Request.Safe])
  obtain rfl : l = [] := (List.append_eq_nil_iff.mp hs.consumed.symm).1
  exact hs

/-- The volume of the other partition after the drive changed. -/
theorem other_shows {p q : PartVolume} {d d' : Drive} {lru : ℕ} {arr : Store} (lru' : ℕ)
    (g : Geometry 16 W C 16) (h : Shows 16 W C 16 q.Touches (p.volume d lru) arr)
    (hd : ∀ a, q.Touches (a / (16 * W)) → d'.data a = d.data a)
    (hs : d'.sectorSize = W) (hc : d'.sectorCount = C) :
    ∃ arr', Shows 16 W C 16 q.Touches (p.volume d' lru') arr' ∧
      ∀ a, q.Touches (a / (16 * W)) → arr' a = arr a := by
  classical
  exact ⟨_,shows_withDrive h g hd hs hc,fun a ha => if_pos ha⟩

/-- A call of A keeps the states apart and leaves B's runs on the drive. -/
theorem step_a (g : Geometry 16 W C 16) (hcomplete : ∀ k, A.Touches k → 16 * k + 16 ≤ C)
    (hin : A.firstSector + A.sectorCount ≤ C) (hdis : ∀ k, ¬(A.Touches k ∧ B.Touches k))
    (h : Separate W C A B s t arrS arrT) {r : Request} (hr : A.Confined W r) :
    (∃ arrS', Separate W C A B (s.step .a r).2 t arrS' arrT) ∧
    ∀ a, B.Touches (a / (16 * W)) → (s.step .a r).2.drive.data a = s.drive.data a := by
  obtain ⟨arrA,hA⟩ := h.showsA
  have hs := perform_partition g hcomplete hin h.placeA.1 hA hr
  have hframe : ∀ a, B.Touches (a / (16 * W)) → (s.step .a r).2.drive.data a = s.drive.data a :=
    fun a ha => hs.frame a (fun hAk => hdis _ ⟨hAk,ha⟩)
  obtain ⟨arrS',hB,heq⟩ := other_shows (s.step .a r).2.lru g h.showsB hframe
    hs.shows.size hs.shows.count
  refine ⟨⟨arrS',h.placeA,h.placeB,h.placeT,⟨_,shows_volume hs.shows _ rfl⟩,hB,h.showsT,?_⟩,hframe⟩
  intro a ha
  rw [heq a ha,h.agree a ha]

/-- A call of B is answered alike in both states and keeps them apart. -/
theorem step_b (g : Geometry 16 W C 16) (hcomplete : ∀ k, B.Touches k → 16 * k + 16 ≤ C)
    (hin : B.firstSector + B.sectorCount ≤ C) (hdis : ∀ k, ¬(A.Touches k ∧ B.Touches k))
    (h : Separate W C A B s t arrS arrT) {r : Request} (hr : B.Confined W r) :
    (s.step .b r).1 = (t.step .b r).1 ∧
    (∃ arrS' arrT', Separate W C A B (s.step .b r).2 (t.step .b r).2 arrS' arrT') ∧
    (r = .synchronize → ∀ a, B.Touches (a / (16 * W)) →
      (s.step .b r).2.drive.data a = (t.step .b r).2.drive.data a) := by
  have hs := perform_partition g hcomplete hin h.placeB.1 h.showsB hr
  have ht := perform_partition g hcomplete hin h.placeT.1 h.showsT hr
  have hsize : s.drive.sectorSize = W := h.showsB.size
  have hsize' : t.drive.sectorSize = W := h.showsT.size
  have hshift : s.partB.shift s.drive.sectorSize r = B.shift W r := by
    rw [hsize,shift_congr h.placeB.1]
  have hshift' : t.partB.shift t.drive.sectorSize r = B.shift W r := by
    rw [hsize',shift_congr h.placeT.1]
  have hreply : (s.step .b r).1 = (t.step .b r).1 := by
    calc (s.step .b r).1 = (flatReply (C * W) arrS (s.partB.shift s.drive.sectorSize r)).narrow :=
          hs.complete (by simp)
      _ = (flatReply (C * W) arrT (t.partB.shift t.drive.sectorSize r)).narrow := by
          rw [hshift,hshift',reply_congr g hcomplete hin hr h.agree]
      _ = (t.step .b r).1 := (ht.complete (by simp)).symm
  have happlied : ∀ a, B.Touches (a / (16 * W)) →
      applied arrS (s.step .b r).1.bytes (s.partB.shift s.drive.sectorSize r) a =
        applied arrT (t.step .b r).1.bytes (t.partB.shift t.drive.sectorSize r) a := by
    intro a ha
    rw [hreply,hshift,hshift']
    cases r with
    | read position n => exact h.agree a ha
    | write src position =>
      simp only [PartVolume.shift,applied,patch]
      split
      · rfl
      · exact h.agree a ha
    | synchronize => exact h.agree a ha
  obtain ⟨arrA,hA⟩ := h.showsA
  obtain ⟨arrA',hA',-⟩ := other_shows (s.step .b r).2.lru g hA
    (fun a ha => hs.frame a (fun hBk => hdis _ ⟨ha,hBk⟩)) hs.shows.size hs.shows.count
  refine ⟨hreply,⟨_,_,h.placeA,h.placeB,h.placeT,⟨arrA',hA'⟩,shows_volume hs.shows _ rfl,
    shows_volume ht.shows _ rfl,happlied⟩,?_⟩
  rintro rfl a ha
  calc (s.step .b .synchronize).2.drive.data a = arrS a := congrFun (hs.synced rfl (by simp)) a
    _ = arrT a := h.agree a ha
    _ = (t.step .b .synchronize).2.drive.data a := (congrFun (ht.synced rfl (by simp)) a).symm

/-- A run in two parts. -/
theorem System.run_append (calls calls' : List (Side × Request)) :
    ∀ s : System, s.run (calls ++ calls') =
      ((s.run calls).1 ++ ((s.run calls).2.run calls').1,((s.run calls).2.run calls').2) := by
  induction calls with
  | nil => intro s; rfl
  | cons c cs ih =>
    intro s
    obtain ⟨side,r⟩ := c
    cases side <;> simp [System.run,ih]

/-- A whole interleaving is answered alike with and without A's calls. -/
theorem run_separate (g : Geometry 16 W C 16)
    (hcomplete : ∀ k, A.Touches k ∨ B.Touches k → 16 * k + 16 ≤ C)
    (hinA : A.firstSector + A.sectorCount ≤ C) (hinB : B.firstSector + B.sectorCount ≤ C)
    (hdis : ∀ k, ¬(A.Touches k ∧ B.Touches k)) (calls : List (Side × Request)) :
    ∀ {s t : System} {arrS arrT : Store}, Separate W C A B s t arrS arrT →
    (∀ c ∈ calls, (match c.1 with | .a => A | .b => B).Confined W c.2) →
    (s.run calls).1 = (t.run (onlyB calls)).1 ∧
    ∃ arrS' arrT', Separate W C A B (s.run calls).2 (t.run (onlyB calls)).2 arrS' arrT' := by
  induction calls with
  | nil => intro s t arrS arrT h _; exact ⟨rfl,arrS,arrT,h⟩
  | cons c cs ih =>
    intro s t arrS arrT h hconf
    obtain ⟨side,r⟩ := c
    have hhead := hconf (side,r) (by simp)
    have htail : ∀ c ∈ cs, (match c.1 with | .a => A | .b => B).Confined W c.2 :=
      fun c hc => hconf c (by simp [hc])
    cases side with
    | a =>
      obtain ⟨⟨arrS',h'⟩,-⟩ := step_a g (fun k hk => hcomplete k (.inl hk)) hinA hdis h hhead
      exact ih h' htail
    | b =>
      obtain ⟨hreply,⟨arrS',arrT',h'⟩,-⟩ :=
        step_b g (fun k hk => hcomplete k (.inr hk)) hinB hdis h hhead
      obtain ⟨hout,hsep⟩ := ih h' htail
      refine ⟨?_,hsep⟩
      show (s.step .b r).1 :: ((s.step .b r).2.run cs).1 =
        (t.step .b r).1 :: ((t.step .b r).2.run (onlyB cs)).1
      rw [hreply,hout]

end

/-- New partitions start apart. -/
theorem separate_new {W C : ℕ} {s : System} (h : Layout W C s) :
    Separate W C s.partA s.partB s s s.drive.data s.drive.data := by
  obtain ⟨⟨W',C',data,faults⟩,lru,⟨fa,ca,ba,da⟩,⟨fb,cb,bb,db⟩⟩ := s
  obtain rfl : W' = W := h.size
  obtain rfl : C' = C := h.count
  obtain rfl : faults = [] := h.infallible
  obtain rfl : ba = List.replicate 16 {} := h.freshA
  obtain rfl : bb = List.replicate 16 {} := h.freshB
  exact ⟨⟨rfl,rfl⟩,⟨rfl,rfl⟩,⟨rfl,rfl⟩,⟨data,shows_new data da [] lru⟩,shows_new data db [] lru,
    shows_new data db [] lru,fun _ _ => rfl⟩

/-- Two partitions do not influence each other when no aligned run of sixteen
sectors holds sectors of both. -/
theorem partitions_isolated {W C : ℕ} {s : System} (h : Layout W C s)
    (hdis : ∀ k, ¬(s.partA.Touches k ∧ s.partB.Touches k)) : s.Isolated := by
  intro calls hconf last hlast
  have g := h.geometry
  have hsize : s.drive.sectorSize = W := h.size
  obtain ⟨hout,arrS,arrT,hsep⟩ := run_separate g h.complete h.insideA h.insideB hdis calls
    (separate_new h) (by simpa only [System.Confined,hsize] using hconf)
  have hB := fun {u t : System} {arrS arrT : Store}
    (hsep : Separate W C s.partA s.partB u t arrS arrT) =>
    step_b g (fun k hk => h.complete k (.inr hk)) h.insideB hdis hsep (r := .synchronize) trivial
  have hA := fun {u t : System} {arrS arrT : Store}
    (hsep : Separate W C s.partA s.partB u t arrS arrT) =>
    step_a g (fun k hk => h.complete k (.inl hk)) h.insideA hdis hsep (r := .synchronize) trivial
  have hrun : ∀ a, s.partB.firstSector * s.drive.sectorSize ≤ a →
      a < (s.partB.firstSector + s.partB.sectorCount) * s.drive.sectorSize →
      s.partB.Touches (a / (16 * W)) := by
    rw [hsize]
    intro a hl hu
    exact ⟨a / W,(Nat.le_div_iff_mul_le g.bytes).mpr hl,(Nat.div_lt_iff_lt_mul g.bytes).mpr hu,
      by rw [Nat.div_div_eq_div_mul,Nat.mul_comm]⟩
  have honly : onlyB (calls ++ last) = onlyB calls ++ [(.b,.synchronize)] := by
    rcases hlast with rfl | rfl <;> simp [onlyB]
  rw [honly,System.run_append,System.run_append,hout]
  rcases hlast with rfl | rfl
  · obtain ⟨⟨arrS',hsep'⟩,-⟩ := hA hsep
    obtain ⟨hreply,-,hdata⟩ := hB hsep'
    exact ⟨by simp [System.run,hreply],fun a hl hu => hdata rfl a (hrun a hl hu)⟩
  · obtain ⟨hreply,⟨arrS',arrT',hsep'⟩,hdata⟩ := hB hsep
    obtain ⟨-,hframe⟩ := hA hsep'
    exact ⟨by simp [System.run,hreply],
      fun a hl hu => (hframe a (hrun a hl hu)).trans (hdata rfl a (hrun a hl hu))⟩
/-- Two new partitions of a drive of one-byte sectors, each holding its own
address. -/
def unitSystem (count firstA countA firstB countB : ℕ) : System :=
  ⟨⟨1,count,fun a => UInt8.ofNat a,[]⟩,0,PartVolume.new firstA countA fun _ => 0,
    PartVolume.new firstB countB fun _ => 0⟩

/-- Unit partitions are laid out once their runs lie on the drive. -/
theorem layout_unitSystem {count firstA countA firstB countB : ℕ} (hrange : count ≤ 2 ^ 62)
    (hA : firstA + countA ≤ firstB) (hB : firstB + countB ≤ count) (hwhole : 16 ∣ count) :
    Layout 1 count (unitSystem count firstA countA firstB countB) where
  geometry := ⟨by decide,by decide,by decide,by decide,by omega⟩
  complete := by
    obtain ⟨q,rfl⟩ := hwhole
    rintro k (⟨s,hl,hu,rfl⟩ | ⟨s,hl,hu,rfl⟩) <;>
      simp only [unitSystem,PartVolume.new] at hl hu <;> omega
  size := rfl
  count := rfl
  infallible := rfl
  freshA := rfl
  freshB := rfl
  insideA := by simp only [unitSystem,PartVolume.new]; omega
  insideB := hB
  disjoint := .inl hA

/-- Partitions that start at multiples of sixteen sectors are apart. -/
theorem partitions_isolated_aligned : (unitSystem 48 0 10 16 20).Isolated := by
  refine partitions_isolated
    (layout_unitSystem (by decide) (by decide) (by decide) (by decide)) ?_
  rintro k ⟨⟨s,hl,hu,rfl⟩,⟨s',hl',hu',he⟩⟩
  simp only [unitSystem,PartVolume.new] at hl hu hl' hu'
  omega

/-- Both partitions share the only run. A loads it, B writes its first byte
and synchronizes, and A's later write-back restores the old byte. -/
theorem shared_run_loses_write :
    Layout 1 16 (unitSystem 16 0 8 8 8) ∧ ¬(unitSystem 16 0 8 8 8).Isolated := by
  refine ⟨layout_unitSystem (by decide) (by decide) (by decide) (by decide),?_⟩
  intro h
  have hconf : (unitSystem 16 0 8 8 8).Confined
      [(.a,.read 0 1),(.b,.write [99] 0),(.b,.synchronize),(.a,.write [1] 0)] := by
    simp [System.Confined,PartVolume.Confined,unitSystem,PartVolume.new]
  have hdata := (h _ hconf _ (.inl rfl)).2 8 (by decide) (by decide)
  exact absurd hdata (by decide)

end WootOs.PartitionIsolation
