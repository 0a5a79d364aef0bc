import WootOs.VolumeCache

/-!
# What a cached volume shows

The abstraction relation between the cache with its drive and one flat byte
array. Every used buffer holds the array's bytes for its run of sectors, no
run is held twice, and the drive holds the array wherever no dirty buffer
covers it. Flushing, evicting, loading and transferring keep the relation;
the drive changes only in runs of an allowed set, which is what separates two
volumes on one drive.
-/

namespace WootOs.VolumeCacheCoherence

open ByteStore MachineInt VolumeCache VolumeCache.BufferedVolume

/-- Sizes the 32- and 64-bit arithmetic of the cache can represent: S sectors
of W bytes in a buffer, C sectors on the drive and N buffers. -/
structure Geometry (S W C N : ℕ) : Prop where
  /-- A buffer holds at least one sector. -/
  sectors : 0 < S
  /-- A sector holds at least one byte. -/
  bytes : 0 < W
  /-- There is a buffer. -/
  buffers : 0 < N
  /-- A buffer fits the 32-bit address space. -/
  fits : S * W < 2 ^ 32
  /-- Positions on the drive are far from the signed 64-bit limit. -/
  range : C * W + 2 ^ 32 ≤ 2 ^ 63

/-- The volume shows the array arr and uses only runs of the set P. -/
structure Shows (S W C N : ℕ) (P : ℕ → Prop) (v : BufferedVolume) (arr : Store) : Prop where
  /-- Sectors in a buffer. -/
  perBuffer : v.sectorsPerBuffer = S
  /-- Bytes in a sector. -/
  size : v.drive.sectorSize = W
  /-- Sectors on the drive. -/
  count : v.drive.sectorCount = C
  /-- Number of buffers. -/
  length : v.buffers.length = N
  /-- A used buffer holds one whole run of sectors, of the allowed ones. -/
  aligned : ∀ {i : ℕ} {b : BlockBuffer}, v.buffers[i]? = some b → b.used = true →
    ∃ k, b.firstSector = S * k ∧ P k ∧ S * k + S ≤ C
  /-- No run is held by two used buffers. -/
  distinct : ∀ {i j : ℕ} {b c : BlockBuffer}, v.buffers[i]? = some b →
    v.buffers[j]? = some c → b.used = true → c.used = true → b.firstSector = c.firstSector → i = j
  /-- A used buffer holds the array's bytes. -/
  cached : ∀ {i : ℕ} {b : BlockBuffer}, v.buffers[i]? = some b → b.used = true →
    ∃ mem, b.buffer = some mem ∧ ∀ o < S * W, mem o = arr (b.firstSector * W + o)
  /-- An unused buffer has nothing to write back. -/
  resting : ∀ {i : ℕ} {b : BlockBuffer}, v.buffers[i]? = some b → b.used = false → b.dirty = false
  /-- The drive holds the array wherever no dirty buffer covers it. -/
  settled : ∀ a, (∀ (i : ℕ) (b : BlockBuffer), v.buffers[i]? = some b → b.used = true →
    b.dirty = true → b.firstSector ≠ S * (a / (S * W))) → v.drive.data a = arr a

/-- Modifying a present element is setting it. -/
theorem modify_eq_set {α : Type*} {l : List α} {i : ℕ} {b : α} (f : α → α)
    (h : l[i]? = some b) : l.modify i f = l.set i (f b) := by
  apply List.ext_getElem?
  intro j
  rw [List.getElem?_modify,List.getElem?_set]
  by_cases hj : i = j
  · subst hj
    have hi : i < l.length := (List.getElem?_eq_some_iff.mp h).1
    rw [if_pos rfl,if_pos hi,h,Option.map_eq_map,Option.map_some,if_pos rfl]
  · simp [hj]

/-- What may stand at an index after one element was set. -/
theorem getElem?_set_cases {α : Type*} {l : List α} {i j : ℕ} {b c : α}
    (h : (l.set i c)[j]? = some b) : (j = i ∧ b = c) ∨ (j ≠ i ∧ l[j]? = some b) := by
  rw [List.getElem?_set] at h
  by_cases hj : i = j
  · subst hj
    rw [if_pos rfl] at h
    split at h
    · exact Or.inl ⟨rfl,(Option.some.inj h).symm⟩
    · simp at h
  · rw [if_neg hj] at h
    exact Or.inr ⟨fun e => hj e.symm,h⟩

/-- Setting an element to itself changes nothing. -/
theorem set_self {α : Type*} {l : List α} {i : ℕ} {b : α} (h : l[i]? = some b) :
    l.set i b = l := by
  apply List.ext_getElem?
  intro j
  rw [List.getElem?_set]
  split
  · next hj =>
    subst hj
    rw [h,if_pos (List.getElem?_eq_some_iff.mp h).1]
  · rfl

/-- An address lies in run k when its offset from the run's start is small. -/
theorem run_offset {S W k a : ℕ} (hS : 0 < S) (hW : 0 < W) :
    a / (S * W) = k ↔ ∃ o < S * W, a = S * k * W + o := by
  have hZ : 0 < S * W := Nat.mul_pos hS hW
  have hk : S * k * W = S * W * k := by ring
  constructor
  · rintro rfl
    exact ⟨a % (S * W),Nat.mod_lt _ hZ,by rw [hk]; exact (Nat.div_add_mod a (S * W)).symm⟩
  · rintro ⟨o,ho,rfl⟩
    rw [hk,Nat.mul_add_div hZ,Nat.div_eq_of_lt ho,Nat.add_zero]

/-- One request in range either succeeds, consuming no failure, or consumes
exactly one. The drive is otherwise as before. -/
theorem next_cases (d : Drive) :
    d.next.2.data = d.data ∧ d.next.2.sectorSize = d.sectorSize ∧
    d.next.2.sectorCount = d.sectorCount ∧
    ((d.next.1 = true ∧ ∃ l, l.length ≤ 1 ∧ true ∉ l ∧ d.faults = l ++ d.next.2.faults) ∨
      (d.next.1 = false ∧ d.faults = true :: d.next.2.faults)) := by
  unfold Drive.next
  split
  · next h => exact ⟨rfl,rfl,rfl,.inl ⟨rfl,[],by simp,by simp,by simp [h]⟩⟩
  · next fault faults h =>
    cases fault with
    | false => exact ⟨rfl,rfl,rfl,.inl ⟨rfl,[false],by simp,by simp,by simp [h]⟩⟩
    | true => exact ⟨rfl,rfl,rfl,.inr ⟨rfl,by simp [h]⟩⟩

section

variable {S W C N : ℕ} {P : ℕ → Prop} {v : BufferedVolume} {arr : Store}

/-- The relation does not look at the outcomes still to come. -/
theorem Shows.withDrive (h : Shows S W C N P v arr) {d : Drive}
    (hd : d.data = v.drive.data) (hs : d.sectorSize = v.drive.sectorSize)
    (hc : d.sectorCount = v.drive.sectorCount) :
    Shows S W C N P { v with drive := d } arr where
  perBuffer := h.perBuffer
  size := hs.trans h.size
  count := hc.trans h.count
  length := h.length
  aligned := h.aligned
  distinct := h.distinct
  cached := h.cached
  resting := h.resting
  settled := fun a ha => by rw [hd]; exact h.settled a ha

/-- A dirty buffer whose bytes were written to the drive becomes clean. -/
theorem Shows.cleaned (h : Shows S W C N P v arr) (g : Geometry S W C N) {i : ℕ}
    {b : BlockBuffer} {mem : Store} {d : Drive} (hb : v.buffers[i]? = some b)
    (hu : b.used = true) (hm : b.buffer = some mem)
    (hd : d.data = patch v.drive.data (b.firstSector * W) (slice mem 0 (S * W)))
    (hs : d.sectorSize = v.drive.sectorSize) (hc : d.sectorCount = v.drive.sectorCount) :
    Shows S W C N P
      { v with drive := d, buffers := v.buffers.set i { b with dirty := false } } arr := by
  obtain ⟨k,hk,-,-⟩ := h.aligned hb hu
  obtain ⟨mem',hm',harr⟩ := h.cached hb hu
  obtain rfl : mem = mem' := by rw [hm] at hm'; exact Option.some.inj hm'
  refine ⟨h.perBuffer,hs.trans h.size,hc.trans h.count,by simp [h.length],?_,?_,?_,?_,?_⟩
  · intro j c hc hcu
    rcases getElem?_set_cases hc with ⟨rfl,rfl⟩ | ⟨-,hold⟩
    · exact h.aligned (b:=b) hb hu
    · exact h.aligned hold hcu
  · intro j j' c c' hc hc' hcu hcu' hf
    rcases getElem?_set_cases hc with ⟨rfl,rfl⟩ | ⟨-,hold⟩ <;>
      rcases getElem?_set_cases hc' with ⟨rfl,rfl⟩ | ⟨-,hold'⟩
    · rfl
    · exact h.distinct (b:=b) hb hold' hu hcu' hf
    · exact h.distinct (c:=b) hold hb hcu hu hf
    · exact h.distinct hold hold' hcu hcu' hf
  · intro j c hc hcu
    rcases getElem?_set_cases hc with ⟨rfl,rfl⟩ | ⟨-,hold⟩
    · exact h.cached (b:=b) hb hu
    · exact h.cached hold hcu
  · intro j c hc hcu
    rcases getElem?_set_cases hc with ⟨rfl,rfl⟩ | ⟨-,hold⟩
    · rfl
    · exact h.resting hold hcu
  · intro a ha
    by_cases hrun : a / (S * W) = k
    · -- inside the run just written: the drive now holds the buffer's bytes
      obtain ⟨o,ho,rfl⟩ := (run_offset g.sectors g.bytes).mp hrun
      rw [hd,hk,patch_in (by omega) (by simpa using ho),Nat.add_sub_cancel_left,
        slice_getD ho,Nat.zero_add,harr o ho,hk]
    · have hout : a < b.firstSector * W ∨ b.firstSector * W + (slice mem 0 (S * W)).length ≤ a := by
        by_contra hin
        apply hrun
        rw [run_offset g.sectors g.bytes]
        refine ⟨a - S * k * W,?_,?_⟩ <;> simp only [slice_length,hk] at hin <;> omega
      rw [hd,patch_out hout]
      apply h.settled
      intro j c hc hcu hcd he
      by_cases hj : j = i
      · subst hj
        rw [hb] at hc
        obtain rfl := Option.some.inj hc
        rw [hk] at he
        exact hrun (Nat.eq_of_mul_eq_mul_left g.sectors he).symm
      · exact ha j c (by rw [List.getElem?_set,if_neg (fun e => hj e.symm)]; exact hc) hcu hcd he

/-- A clean or unused buffer is not written. -/
theorem flushBuffer_clean {i : ℕ} {b : BlockBuffer} (hb : v.buffers[i]? = some b)
    (hc : b.used = true → b.dirty = false) : v.flushBuffer i = (true,v) := by
  have hidle : (!b.used || !b.dirty) = true := by
    cases hu : b.used with
    | false => rfl
    | true => simp [hc hu]
  simp only [flushBuffer,hb,hidle,if_true]

/-- A used dirty buffer is written to its sectors; the outcome of the request
decides whether it becomes clean. -/
theorem flushBuffer_dirty {i : ℕ} {b : BlockBuffer} {mem : Store}
    (hb : v.buffers[i]? = some b) (hu : b.used = true) (hd : b.dirty = true)
    (hm : b.buffer = some mem)
    (hin : b.firstSector + v.sectorsPerBuffer ≤ v.drive.sectorCount) :
    v.flushBuffer i = if v.drive.next.1 then
      (true,{ v with
        drive := { v.drive.next.2 with
          data := patch v.drive.data (b.firstSector * v.drive.sectorSize)
            (slice mem 0 (v.sectorsPerBuffer * v.drive.sectorSize)) }
        buffers := v.buffers.set i { b with dirty := false } })
      else (false,{ v with drive := v.drive.next.2 }) := by
  simp only [flushBuffer,hb,hu,hd,hm,Drive.writeSectors,if_pos hin,Bool.not_true,Bool.or_false,
    Bool.false_eq_true,if_false]
  rcases v.drive.next with ⟨ok,d⟩
  cases ok <;> rfl

/-- Flushing one buffer: the shown array stays, a failure consumed one failed
request, and the drive changes in allowed runs only. -/
theorem flushBuffer_spec (g : Geometry S W C N) (h : Shows S W C N P v arr) {i : ℕ}
    {b : BlockBuffer} (hb : v.buffers[i]? = some b) :
    Shows S W C N P (v.flushBuffer i).2 arr ∧
    (∃ l, v.drive.faults = l ++ (v.flushBuffer i).2.drive.faults ∧
      ((v.flushBuffer i).1 = false ↔ true ∈ l)) ∧
    (∀ a, ¬P (a / (S * W)) → (v.flushBuffer i).2.drive.data a = v.drive.data a) ∧
    (v.flushBuffer i).2.buffers =
      if (v.flushBuffer i).1 then v.buffers.set i { b with dirty := false } else v.buffers := by
  by_cases hud : b.used = true ∧ b.dirty = true
  · obtain ⟨hu,hd⟩ := hud
    obtain ⟨k,hk,hP,hC⟩ := h.aligned hb hu
    obtain ⟨mem,hm,-⟩ := h.cached hb hu
    have hin : b.firstSector + v.sectorsPerBuffer ≤ v.drive.sectorCount := by
      rw [h.perBuffer,h.count,hk]; exact hC
    rw [flushBuffer_dirty hb hu hd hm hin]
    obtain ⟨hdata,hsize,hcount,⟨hok,l,-,hnot,hl⟩ | ⟨hok,hl⟩⟩ := next_cases v.drive
    · rw [hok]
      refine ⟨?_,⟨l,hl,by simpa using hnot⟩,?_,by simp⟩
      · apply h.cleaned g hb hu hm
        · simp only [h.perBuffer,h.size]
        · exact hsize
        · exact hcount
      · intro a ha
        apply patch_out
        by_contra hin
        apply ha
        have hrun : a / (S * W) = k := by
          rw [run_offset g.sectors g.bytes]
          refine ⟨a - S * k * W,?_,?_⟩ <;>
            simp only [slice_length,hk,h.size,h.perBuffer] at hin <;> omega
        rw [hrun]
        exact hP
    · rw [hok]
      exact ⟨h.withDrive hdata hsize hcount,⟨[true],by simpa using hl,by simp⟩,
        fun a _ => by simp [hdata],by simp⟩
  · have hclean : b.dirty = false := by
      cases hu : b.used with
      | false => exact h.resting hb hu
      | true => simpa [hu] using hud
    have hself : { b with dirty := false } = b := by rw [←hclean]
    rw [flushBuffer_clean hb (fun _ => hclean),hself,set_self hb]
    exact ⟨h,⟨[],by simp,by simp⟩,fun _ _ => rfl,rfl⟩

/-- A clean buffer that was filled from the drive shows a run held by no other
used buffer. -/
theorem Shows.loaded (h : Shows S W C N P v arr) (g : Geometry S W C N) {i k : ℕ}
    {b : BlockBuffer} {m : Store} {d : Drive} (hb : v.buffers[i]? = some b)
    (hclean : b.dirty = false) (hP : P k) (hC : S * k + S ≤ C)
    (hmiss : ∀ (j : ℕ) (c : BlockBuffer), v.buffers[j]? = some c → c.used = true →
      c.firstSector ≠ S * k)
    (hmem : ∀ o < S * W, m o = v.drive.data (S * k * W + o))
    (hd : d.data = v.drive.data) (hs : d.sectorSize = v.drive.sectorSize)
    (hc : d.sectorCount = v.drive.sectorCount) :
    Shows S W C N P
      { v with
        drive := d
        buffers := v.buffers.set i
          { b with buffer := some m, firstSector := S * k, used := true } } arr := by
  have hdirty : ∀ (j : ℕ) (c : BlockBuffer), v.buffers[j]? = some c → c.used = true →
      c.dirty = true → j ≠ i := by
    rintro j c hj - hcd rfl
    rw [hb] at hj
    obtain rfl := Option.some.inj hj
    rw [hclean] at hcd
    cases hcd
  refine ⟨h.perBuffer,hs.trans h.size,hc.trans h.count,by simp [h.length],?_,?_,?_,?_,?_⟩
  · intro j c hj hcu
    rcases getElem?_set_cases hj with ⟨rfl,rfl⟩ | ⟨-,hold⟩
    · exact ⟨k,rfl,hP,hC⟩
    · exact h.aligned hold hcu
  · intro j j' c c' hj hj' hcu hcu' hf
    rcases getElem?_set_cases hj with ⟨rfl,rfl⟩ | ⟨-,hold⟩ <;>
      rcases getElem?_set_cases hj' with ⟨rfl,rfl⟩ | ⟨-,hold'⟩
    · rfl
    · exact absurd hf.symm (hmiss _ _ hold' hcu')
    · exact absurd hf (hmiss _ _ hold hcu)
    · exact h.distinct hold hold' hcu hcu' hf
  · intro j c hj hcu
    rcases getElem?_set_cases hj with ⟨rfl,rfl⟩ | ⟨-,hold⟩
    · refine ⟨m,rfl,?_⟩
      intro o ho
      rw [hmem o ho]
      apply h.settled
      intro j c hj hcu hcd he
      have hrun : (S * k * W + o) / (S * W) = k := (run_offset g.sectors g.bytes).mpr ⟨o,ho,rfl⟩
      rw [hrun] at he
      exact hmiss j c hj hcu he
    · exact h.cached hold hcu
  · intro j c hj hcu
    rcases getElem?_set_cases hj with ⟨rfl,rfl⟩ | ⟨-,hold⟩
    · cases hcu
    · exact h.resting hold hcu
  · intro a ha
    rw [hd]
    apply h.settled
    intro j c hj hcu hcd
    have hji := hdirty j c hj hcu hcd
    exact ha j c (by rw [List.getElem?_set,if_neg (fun e => hji e.symm)]; exact hj) hcu hcd

/-- Loading a clean buffer asks the drive for the aligned run of the sector. -/
theorem loadBuffer_clean {i s : ℕ} {b : BlockBuffer} (hb : v.buffers[i]? = some b)
    (hclean : b.dirty = false) (hW : v.drive.sectorSize ≠ 0)
    (hfit : v.sectorsPerBuffer * (s / v.sectorsPerBuffer) < 2 ^ 64)
    (hin : v.sectorsPerBuffer * (s / v.sectorsPerBuffer) + v.sectorsPerBuffer ≤
      v.drive.sectorCount) :
    v.loadBuffer i s = if v.drive.next.1 then
      (true,{ v with
        drive := v.drive.next.2
        buffers := v.buffers.set i { b with
          buffer := some (patch (b.buffer.getD v.dma) 0 (slice v.drive.data
            (v.sectorsPerBuffer * (s / v.sectorsPerBuffer) * v.drive.sectorSize)
            (v.sectorsPerBuffer * v.drive.sectorSize)))
          firstSector := v.sectorsPerBuffer * (s / v.sectorsPerBuffer)
          used := true } })
      else (false,{ v with
        drive := v.drive.next.2
        buffers := v.buffers.set i
          { b with buffer := some (b.buffer.getD v.dma), used := true } }) := by
  have hi : i < v.buffers.length := (List.getElem?_eq_some_iff.mp hb).1
  have hfirst : unsigned 64 ((v.sectorsPerBuffer : ℤ) * (s : ℤ).tdiv v.sectorsPerBuffer) =
      v.sectorsPerBuffer * (s / v.sectorsPerBuffer) := by
    rw [←Int.ofNat_tdiv,←Int.natCast_mul]
    exact unsigned_natCast hfit
  obtain ⟨mem,first,used,dirty,time⟩ := b
  obtain rfl : dirty = false := hclean
  have hget : (v.buffers.set i ⟨some (mem.getD v.dma),first,true,false,time⟩)[i]? =
      some ⟨some (mem.getD v.dma),first,true,false,time⟩ := List.getElem?_set_self hi
  rw [loadBuffer,if_neg hW]
  simp only [hfirst,modify_eq_set _ hb,hget,Option.map_some,Option.getD_some,
    Bool.false_eq_true,if_false,Drive.readSectors,if_pos hin]
  rcases v.drive.next with ⟨ok,d⟩
  cases ok
  · rfl
  · simp only [modify_eq_set _ hget,List.set_set,Option.map_some,if_true]

/-- A buffer found for a sector is used and holds the sector. -/
theorem getContainingBuffer_some {s i : ℕ} (h : v.getContainingBuffer s = some i) :
    ∃ b, v.buffers[i]? = some b ∧ b.used = true ∧ b.firstSector ≤ s ∧
      s < b.firstSector + v.sectorsPerBuffer := by
  obtain ⟨hi,hb,-⟩ := List.findIdx?_eq_some_iff_getElem.mp h
  simp only [Bool.and_eq_true,decide_eq_true_eq] at hb
  exact ⟨v.buffers[i],List.getElem?_eq_getElem hi,hb.1.1,hb.1.2,hb.2⟩

/-- Without a hit no used buffer holds the sector. -/
theorem getContainingBuffer_none {s j : ℕ} {c : BlockBuffer}
    (h : v.getContainingBuffer s = none) (hj : v.buffers[j]? = some c)
    (hu : c.used = true) : ¬(c.firstSector ≤ s ∧ s < c.firstSector + v.sectorsPerBuffer) := by
  have hc := List.findIdx?_eq_none_iff.mp h c (List.mem_of_getElem? hj)
  simpa [hu] using hc

/-- Number of buffers never taken into use. -/
def unused (v : BufferedVolume) : ℕ := v.buffers.countP fun b => !b.used

/-- Taking an unused buffer into use leaves one fewer. -/
theorem unused_set {i : ℕ} {b c : BlockBuffer} (hb : v.buffers[i]? = some b)
    (hu : b.used = false) (hc : c.used = true) :
    (v.buffers.set i c).countP (fun b => !b.used) + 1 = unused v := by
  obtain ⟨hi,rfl⟩ := List.getElem?_eq_some_iff.mp hb
  have hpos : 0 < unused v :=
    List.countP_pos_iff.mpr ⟨v.buffers[i],List.getElem_mem hi,by simp [hu]⟩
  have hset := List.countP_set (p := fun b : BlockBuffer => !b.used) (a := c) hi
  simp only [hu,hc,Bool.not_true,Bool.not_false,Bool.false_eq_true,if_true,if_false] at hset
  rw [hset]
  unfold unused at hpos ⊢
  omega

/-- The least recently used index is one of the list. -/
theorem lruScan_lt (bs : List BlockBuffer) (i m t n : ℕ) (hn : i + bs.length = n) (hm : m < n) :
    lruScan bs i m t < n := by
  induction bs generalizing i m t with
  | nil => exact hm
  | cons b bs ih =>
    rw [List.length_cons] at hn
    rw [lruScan]
    split
    · exact ih (i + 1) i _ (by omega) (by omega)
    · exact ih (i + 1) m _ (by omega) hm

/-- What one operation did to the drive: the outcomes it consumed, and that
only allowed runs changed. -/
structure Effect (S W : ℕ) (P : ℕ → Prop) (v v' : BufferedVolume) (l : List Bool) : Prop where
  /-- The listed outcomes were consumed. -/
  consumed : v.drive.faults = l ++ v'.drive.faults
  /-- Bytes outside the allowed runs are unchanged. -/
  frame : ∀ a, ¬P (a / (S * W)) → v'.drive.data a = v.drive.data a

theorem Effect.refl (S W : ℕ) (P : ℕ → Prop) (v : BufferedVolume) : Effect S W P v v [] :=
  ⟨rfl,fun _ _ => rfl⟩

theorem Effect.trans {v' v'' : BufferedVolume} {l l' : List Bool} (h : Effect S W P v v' l)
    (h' : Effect S W P v' v'' l') : Effect S W P v v'' (l ++ l') where
  consumed := by rw [h.consumed,h'.consumed,List.append_assoc]
  frame := fun a ha => (h'.frame a ha).trans (h.frame a ha)

/-- On a miss no used buffer holds the run of the sector. -/
theorem Shows.miss (h : Shows S W C N P v arr) (g : Geometry S W C N) {s : ℕ}
    (hnone : v.getContainingBuffer s = none) (j : ℕ) (c : BlockBuffer)
    (hj : v.buffers[j]? = some c) (hu : c.used = true) : c.firstSector ≠ S * (s / S) := by
  intro he
  have hmod := Nat.div_add_mod s S
  have hlt := Nat.mod_lt s g.sectors
  apply getContainingBuffer_none hnone hj hu
  rw [h.perBuffer,he]
  constructor <;> omega

/-- On a hit the buffer holds exactly the run of the sector. -/
theorem Shows.hit (h : Shows S W C N P v arr) (g : Geometry S W C N) {s i : ℕ}
    (hsome : v.getContainingBuffer s = some i) :
    ∃ b, v.buffers[i]? = some b ∧ b.used = true ∧ b.firstSector = S * (s / S) := by
  obtain ⟨b,hb,hu,hl,hr⟩ := getContainingBuffer_some hsome
  obtain ⟨k,hk,-,-⟩ := h.aligned hb hu
  refine ⟨b,hb,hu,?_⟩
  rw [hk,h.perBuffer] at hr
  rw [hk] at hl ⊢
  have hdiv : s / S = k := by
    rw [Nat.div_eq_iff g.sectors,Nat.mul_comm k S]
    omega
  rw [hdiv]

/-- A sector of a whole run is small enough for every conversion. -/
theorem Geometry.sector_lt (g : Geometry S W C N) {s : ℕ} (hC : S * (s / S) + S ≤ C) :
    s < C ∧ C < 2 ^ 63 := by
  have hmod := Nat.div_add_mod s S
  have hlt := Nat.mod_lt s g.sectors
  have hcw : C * 1 ≤ C * W := Nat.mul_le_mul_left C g.bytes
  have hr := g.range
  constructor <;> omega

/-- Filling a clean buffer on a miss, by the outcome of the read request. A
failed request leaves a used buffer as it was. -/
theorem loadBuffer_spec (g : Geometry S W C N) (h : Shows S W C N P v arr) {i s : ℕ}
    {b : BlockBuffer} (hb : v.buffers[i]? = some b) (hclean : b.dirty = false)
    (hP : P (s / S)) (hC : S * (s / S) + S ≤ C)
    (hmiss : ∀ (j : ℕ) (c : BlockBuffer), v.buffers[j]? = some c → c.used = true →
      c.firstSector ≠ S * (s / S)) :
    ∃ l, Effect S W P v (v.loadBuffer i s).2 l ∧
      ((v.loadBuffer i s).1 = true → true ∉ l ∧ l.length ≤ 1 ∧
        Shows S W C N P (v.loadBuffer i s).2 arr ∧
        ∃ c, (v.loadBuffer i s).2.buffers = v.buffers.set i c ∧ c.used = true ∧
          c.firstSector = S * (s / S)) ∧
      ((v.loadBuffer i s).1 = false → l = [true] ∧
        (b.used = true → Shows S W C N P (v.loadBuffer i s).2 arr)) := by
  have hsec := g.sector_lt hC
  have hW : v.drive.sectorSize ≠ 0 := by rw [h.size]; exact g.bytes.ne'
  have hfit : v.sectorsPerBuffer * (s / v.sectorsPerBuffer) < 2 ^ 64 := by
    rw [h.perBuffer]; omega
  have hin : v.sectorsPerBuffer * (s / v.sectorsPerBuffer) + v.sectorsPerBuffer ≤
      v.drive.sectorCount := by
    rw [h.perBuffer,h.count]; exact hC
  rw [loadBuffer_clean hb hclean hW hfit hin]
  obtain ⟨hdata,hsize,hcount,⟨hok,l,hlen,hnot,hl⟩ | ⟨hok,hl⟩⟩ := next_cases v.drive
  · rw [hok]
    refine ⟨l,⟨hl,fun a _ => congrFun hdata a⟩,fun _ => ⟨hnot,hlen,?_,_,rfl,rfl,?_⟩,by simp⟩
    · have hbase := h.loaded g (d := v.drive.next.2) (m := patch (b.buffer.getD v.dma) 0
        (slice v.drive.data (S * (s / S) * W) (S * W))) hb hclean hP hC hmiss
        (by
          intro o ho
          rw [patch_in (by omega) (by simpa using ho),Nat.sub_zero,slice_getD ho])
        hdata hsize hcount
      simpa only [h.perBuffer,h.size,if_true] using hbase
    · simp only [h.perBuffer]
  · rw [hok]
    refine ⟨[true],⟨by simpa using hl,fun a _ => congrFun hdata a⟩,by simp,fun _ => ⟨rfl,?_⟩⟩
    intro hu
    obtain ⟨mem,hm,-⟩ := h.cached hb hu
    have hself : { b with buffer := some (b.buffer.getD v.dma), used := true } = b := by
      rw [hm,Option.getD_some,←hm,←hu]
    simp only [hself,set_self hb,Bool.false_eq_true,if_false]
    exact h.withDrive hdata hsize hcount

/-- Outcomes of a call that do not fail a load into an unused buffer: as long
as there are unused buffers every miss takes one and makes one request. -/
def SafeFaults (v : BufferedVolume) : Prop := true ∉ v.drive.faults.take (unused v)

/-- Loading marks its buffer used, so it may have been marked before. -/
theorem loadBuffer_marked (hW : v.drive.sectorSize ≠ 0) (i : ℕ) (sector : ℤ) :
    BufferedVolume.loadBuffer
      { v with buffers := v.buffers.modify i fun b => { b with used := true } } i sector =
    v.loadBuffer i sector := by
  simp only [loadBuffer,if_neg hW,List.modify_modify_eq]
  rfl

/-- A miss that finds an unused buffer: its load is the first request of the
call, which does not fail, and fills the buffer. -/
theorem fetchUnused_spec (g : Geometry S W C N) (h : Shows S W C N P v arr) {s i : ℕ}
    (hP : P (s / S)) (hC : S * (s / S) + S ≤ C) (hsafe : SafeFaults v)
    (hmiss : ∀ (j : ℕ) (c : BlockBuffer), v.buffers[j]? = some c → c.used = true →
      c.firstSector ≠ S * (s / S))
    (hfree : v.buffers.findIdx? (fun b => !b.used) = some i) :
    ∃ l b, Effect S W P v (v.loadBuffer i s).2 l ∧ (v.loadBuffer i s).1 = true ∧ true ∉ l ∧
      Shows S W C N P (v.loadBuffer i s).2 arr ∧ SafeFaults (v.loadBuffer i s).2 ∧
      (v.loadBuffer i s).2.buffers[i]? = some b ∧ b.used = true ∧
      b.firstSector = S * (s / S) := by
  obtain ⟨hi,hu,-⟩ := List.findIdx?_eq_some_iff_getElem.mp hfree
  have hb : v.buffers[i]? = some v.buffers[i] := List.getElem?_eq_getElem hi
  have hidle : v.buffers[i].used = false := by simpa using hu
  have hpos : 0 < unused v := List.countP_pos_iff.mpr ⟨_,List.getElem_mem hi,hu⟩
  obtain ⟨l,heff,hgood,hbad⟩ := loadBuffer_spec g h hb (h.resting hb hidle) hP hC hmiss
  unfold SafeFaults at hsafe
  rw [heff.consumed] at hsafe
  cases hok : (v.loadBuffer i s).1 with
  | false =>
    obtain ⟨rfl,-⟩ := hbad hok
    obtain ⟨u,hu'⟩ := Nat.exists_eq_succ_of_ne_zero hpos.ne'
    rw [hu'] at hsafe
    exact absurd (by simp) hsafe
  | true =>
    obtain ⟨hnot,hlen,hshow,c,hset,hcu,hcf⟩ := hgood hok
    have hdrop : unused (v.loadBuffer i s).2 + 1 = unused v := by
      rw [unused,hset]
      exact unused_set hb hidle hcu
    refine ⟨l,c,heff,rfl,hnot,hshow,?_,?_,hcu,hcf⟩
    · intro hmem
      apply hsafe
      rw [List.take_append,List.mem_append]
      right
      exact (List.take_subset_take_left _ (by omega)) hmem
    · rw [hset]
      exact List.getElem?_set_self hi

/-- Without unused buffers no outcome can do harm. -/
theorem safeFaults_of_full (hfull : unused v = 0) : SafeFaults v := by
  rw [SafeFaults,hfull]
  simp

/-- Reusing a used clean buffer: a failed load leaves it in place. -/
theorem fetchEvicted_spec (g : Geometry S W C N) (h : Shows S W C N P v arr) {s i : ℕ}
    {b : BlockBuffer} (hb : v.buffers[i]? = some b) (hclean : b.dirty = false)
    (hall : ∀ c ∈ v.buffers, c.used = true) (hP : P (s / S)) (hC : S * (s / S) + S ≤ C)
    (hmiss : ∀ (j : ℕ) (c : BlockBuffer), v.buffers[j]? = some c → c.used = true →
      c.firstSector ≠ S * (s / S)) :
    ∃ l, Effect S W P v (v.loadBuffer i s).2 l ∧ Shows S W C N P (v.loadBuffer i s).2 arr ∧
      (((v.loadBuffer i s).1 = false ∧ true ∈ l) ∨
        ∃ c, (v.loadBuffer i s).1 = true ∧ true ∉ l ∧ SafeFaults (v.loadBuffer i s).2 ∧
          (v.loadBuffer i s).2.buffers[i]? = some c ∧ c.used = true ∧
          c.firstSector = S * (s / S)) := by
  have hu : b.used = true := hall b (List.mem_of_getElem? hb)
  obtain ⟨l,heff,hgood,hbad⟩ := loadBuffer_spec g h hb hclean hP hC hmiss
  cases hok : (v.loadBuffer i s).1 with
  | false =>
    obtain ⟨rfl,hshow⟩ := hbad hok
    exact ⟨[true],heff,hshow hu,.inl ⟨rfl,by simp⟩⟩
  | true =>
    obtain ⟨hnot,-,hshow,c,hset,hcu,hcf⟩ := hgood hok
    refine ⟨l,heff,hshow,.inr ⟨c,rfl,hnot,?_,?_,hcu,hcf⟩⟩
    · apply safeFaults_of_full
      rw [unused,List.countP_eq_zero,hset]
      intro c' hc'
      rcases List.mem_or_eq_of_mem_set hc' with hold | rfl
      · simp [hall c' hold]
      · simp [hcu]
    · rw [hset]
      exact List.getElem?_set_self (List.getElem?_eq_some_iff.mp hb).1

/-- Result of fetching once a buffer has been chosen and its load tried. -/
def loadResult (i : ℕ) (r : Bool × BufferedVolume) : Except ℤ ℕ × BufferedVolume :=
  (if r.1 then .ok i else .error (-eio),r.2)

/-- A miss with an unused buffer loads it. -/
theorem fetchBuffer_unused {s i : ℕ} (hs : s < 2 ^ 64) (hW : v.drive.sectorSize ≠ 0)
    (hmiss : v.getContainingBuffer s = none)
    (hfree : v.buffers.findIdx? (fun b => !b.used) = some i) :
    v.fetchBuffer s = loadResult i (v.loadBuffer i s) := by
  simp only [fetchBuffer,unsigned_natCast hs,hmiss,allocateBuffer,hfree]
  rw [loadBuffer_marked hW]
  rcases v.loadBuffer i s with ⟨ok,v'⟩
  cases ok <;> rfl

/-- A miss without one reuses the least recently used buffer, written back
first when it is dirty. -/
theorem fetchBuffer_evict {s i : ℕ} {b : BlockBuffer} (hs : s < 2 ^ 64)
    (hmiss : v.getContainingBuffer s = none)
    (hfree : v.buffers.findIdx? (fun b => !b.used) = none)
    (hi : lruScan v.buffers 0 0 (2 ^ 64 - 1) = i) (hb : v.buffers[i]? = some b) :
    v.fetchBuffer s = if b.dirty then
      if (v.flushBuffer i).1 then loadResult i ((v.flushBuffer i).2.loadBuffer i s)
      else (.error (-enomem),(v.flushBuffer i).2)
    else loadResult i (v.loadBuffer i s) := by
  simp only [fetchBuffer,unsigned_natCast hs,hmiss,allocateBuffer,hfree,hi,hb]
  cases b.dirty with
  | false =>
    simp only [Bool.false_eq_true,if_false]
    rcases v.loadBuffer i s with ⟨ok,v'⟩
    cases ok <;> rfl
  | true =>
    simp only [if_true]
    rcases v.flushBuffer i with ⟨ok,v'⟩
    cases ok with
    | false => rfl
    | true =>
      simp only [if_true]
      rcases v'.loadBuffer i s with ⟨ok,v''⟩
      cases ok <;> rfl

/-- The error codes of a transfer. -/
abbrev IsErrno (e : ℤ) : Prop := e = -enomem ∨ e = -eio

/-- What fetching promises: the shown array stays; the call either failed with
a failed drive request or found a buffer that holds the sector's run. -/
structure Fetched (S W C N : ℕ) (P : ℕ → Prop) (arr : Store) (s : ℕ) (v : BufferedVolume)
    (r : Except ℤ ℕ × BufferedVolume) (l : List Bool) : Prop where
  /-- What the drive went through. -/
  effect : Effect S W P v r.2 l
  /-- The array shown before is shown after. -/
  shows : Shows S W C N P r.2 arr
  /-- Failure, or a buffer for the sector. -/
  outcome : (∃ e, r.1 = .error e ∧ IsErrno e ∧ true ∈ l) ∨
    ∃ i b, r.1 = .ok i ∧ true ∉ l ∧ SafeFaults r.2 ∧ r.2.buffers[i]? = some b ∧
      b.used = true ∧ b.firstSector = S * (s / S)

/-- Writing a dirty victim back changes neither what is used nor where. -/
theorem flushed_buffer {v' : BufferedVolume} {i j : ℕ} {b c : BlockBuffer}
    (hb : v.buffers[i]? = some b) (hbuf : v'.buffers = v.buffers.set i { b with dirty := false })
    (hc : v'.buffers[j]? = some c) :
    ∃ c', v.buffers[j]? = some c' ∧ c.used = c'.used ∧ c.firstSector = c'.firstSector := by
  rw [hbuf] at hc
  rcases getElem?_set_cases hc with ⟨rfl,rfl⟩ | ⟨-,hold⟩
  · exact ⟨b,hb,rfl,rfl⟩
  · exact ⟨c,hold,rfl,rfl⟩

/-- Fetching by eviction. -/
theorem fetchBuffer_full (g : Geometry S W C N) (h : Shows S W C N P v arr) {s : ℕ}
    (hP : P (s / S)) (hC : S * (s / S) + S ≤ C) (hfind : v.getContainingBuffer s = none)
    (hfree : v.buffers.findIdx? (fun b => !b.used) = none) :
    ∃ l, Fetched S W C N P arr s v (v.fetchBuffer s) l := by
  have hsec := g.sector_lt hC
  have hmiss := h.miss g hfind
  have hall : ∀ c ∈ v.buffers, c.used = true := by
    intro c hc
    simpa using List.findIdx?_eq_none_iff.mp hfree c hc
  obtain ⟨i,hi⟩ : ∃ i, lruScan v.buffers 0 0 (2 ^ 64 - 1) = i := ⟨_,rfl⟩
  have hlt : i < v.buffers.length :=
    hi ▸ lruScan_lt _ _ _ _ _ (by simp) (by rw [h.length]; exact g.buffers)
  obtain ⟨b,hb⟩ : ∃ b, v.buffers[i]? = some b := ⟨_,List.getElem?_eq_getElem hlt⟩
  rw [fetchBuffer_evict (by omega) hfind hfree hi hb]
  cases hdirty : b.dirty with
  | false =>
    obtain ⟨l,heff,hshow,hcase⟩ := fetchEvicted_spec g h hb hdirty hall hP hC hmiss
    refine ⟨l,heff,hshow,?_⟩
    rcases hcase with ⟨hok,hmem⟩ | ⟨c,hok,hnot,hsafe',hc,hcu,hcf⟩
    · exact .inl ⟨_,by simp only [loadResult,hok]; rfl,by decide,hmem⟩
    · exact .inr ⟨i,c,by simp only [loadResult,hok]; rfl,hnot,hsafe',hc,hcu,hcf⟩
  | true =>
    obtain ⟨hshow,⟨l,hl,hfail⟩,hframe,hbuf⟩ := flushBuffer_spec g h hb
    have heff : Effect S W P v (v.flushBuffer i).2 l := ⟨hl,hframe⟩
    cases hok : (v.flushBuffer i).1 with
    | false => exact ⟨l,heff,hshow,.inl ⟨_,rfl,by decide,hfail.mp hok⟩⟩
    | true =>
      rw [hok,if_pos rfl] at hbuf
      have hb' : (v.flushBuffer i).2.buffers[i]? = some { b with dirty := false } := by
        rw [hbuf]
        exact List.getElem?_set_self hlt
      have hall' : ∀ c ∈ (v.flushBuffer i).2.buffers, c.used = true := by
        intro c hc
        obtain ⟨j,hj⟩ := List.getElem?_of_mem hc
        obtain ⟨c',hc',hu,-⟩ := flushed_buffer hb hbuf hj
        rw [hu]
        exact hall c' (List.mem_of_getElem? hc')
      have hmiss' : ∀ (j : ℕ) (c : BlockBuffer), (v.flushBuffer i).2.buffers[j]? = some c →
          c.used = true → c.firstSector ≠ S * (s / S) := by
        intro j c hj hcu
        obtain ⟨c',hc',hu,hf⟩ := flushed_buffer hb hbuf hj
        rw [hf]
        exact hmiss j c' hc' (hu ▸ hcu)
      obtain ⟨l',heff',hshow',hcase⟩ := fetchEvicted_spec g hshow hb' rfl hall' hP hC hmiss'
      have hclear : true ∉ l := fun hm => by simpa [hok] using hfail.mpr hm
      refine ⟨l ++ l',heff.trans heff',hshow',?_⟩
      rcases hcase with ⟨hok',hmem⟩ | ⟨c,hok',hnot',hsafe',hc,hcu,hcf⟩
      · exact .inl ⟨_,by simp only [loadResult,hok']; rfl,by decide,List.mem_append_right l hmem⟩
      · exact .inr ⟨i,c,by simp only [loadResult,hok']; rfl,by simp [hclear,hnot'],hsafe',
          hc,hcu,hcf⟩

/-- The buffer for a sector of an allowed whole run is found or loaded. -/
theorem fetchBuffer_spec (g : Geometry S W C N) (h : Shows S W C N P v arr) {s : ℕ}
    (hP : P (s / S)) (hC : S * (s / S) + S ≤ C) (hsafe : SafeFaults v) :
    ∃ l, Fetched S W C N P arr s v (v.fetchBuffer s) l := by
  have hsec := g.sector_lt hC
  cases hfind : v.getContainingBuffer s with
  | some i =>
    obtain ⟨b,hb,hu,hf⟩ := h.hit g hfind
    have heq : v.fetchBuffer s = (.ok i,v) := by
      simp only [fetchBuffer,unsigned_natCast (show s < 2 ^ 64 by omega),hfind]
    rw [heq]
    exact ⟨[],Effect.refl S W P v,h,.inr ⟨i,b,rfl,by simp,hsafe,hb,hu,hf⟩⟩
  | none =>
    cases hfree : v.buffers.findIdx? (fun b => !b.used) with
    | none => exact fetchBuffer_full g h hP hC hfind hfree
    | some i =>
      have hW : v.drive.sectorSize ≠ 0 := by rw [h.size]; exact g.bytes.ne'
      rw [fetchBuffer_unused (by omega) hW hfind hfree]
      obtain ⟨l,b,heff,hok,hnot,hshow,hsafe',hb,hu,hf⟩ :=
        fetchUnused_spec g h hP hC hsafe (h.miss g hfind) hfree
      exact ⟨l,heff,hshow,.inr ⟨i,b,by simp only [loadResult,hok]; rfl,hnot,hsafe',hb,hu,hf⟩⟩

/-- A present buffer may be replaced by one that agrees on all but its time. -/
theorem Shows.touched (h : Shows S W C N P v arr) {i : ℕ} {b : BlockBuffer}
    (hb : v.buffers[i]? = some b) : Shows S W C N P (v.touch i) arr := by
  have heq : (v.touch i).buffers = v.buffers.set i { b with time := v.lru } :=
    modify_eq_set _ hb
  refine ⟨h.perBuffer,h.size,h.count,by rw [heq]; simp [h.length],?_,?_,?_,?_,?_⟩
  · intro j c hc hcu
    rw [heq] at hc
    rcases getElem?_set_cases hc with ⟨rfl,rfl⟩ | ⟨-,hold⟩
    · exact h.aligned (b:=b) hb hcu
    · exact h.aligned hold hcu
  · intro j j' c c' hc hc' hcu hcu' hf
    rw [heq] at hc hc'
    rcases getElem?_set_cases hc with ⟨rfl,rfl⟩ | ⟨-,hold⟩ <;>
      rcases getElem?_set_cases hc' with ⟨rfl,rfl⟩ | ⟨-,hold'⟩
    · rfl
    · exact h.distinct (b:=b) hb hold' hcu hcu' hf
    · exact h.distinct (c:=b) hold hb hcu hcu' hf
    · exact h.distinct hold hold' hcu hcu' hf
  · intro j c hc hcu
    rw [heq] at hc
    rcases getElem?_set_cases hc with ⟨rfl,rfl⟩ | ⟨-,hold⟩
    · exact h.cached (b:=b) hb hcu
    · exact h.cached hold hcu
  · intro j c hc hcu
    rw [heq] at hc
    rcases getElem?_set_cases hc with ⟨rfl,rfl⟩ | ⟨-,hold⟩
    · exact h.resting (b:=b) hb hcu
    · exact h.resting hold hcu
  · intro a ha
    apply h.settled
    intro j c hc hcu hcd
    by_cases hj : j = i
    · subst hj
      rw [hb] at hc
      obtain rfl := Option.some.inj hc
      exact ha j { b with time := v.lru }
        (by rw [heq]; exact List.getElem?_set_self (List.getElem?_eq_some_iff.mp hb).1) hcu hcd
    · exact ha j c (by rw [heq,List.getElem?_set,if_neg (fun e => hj e.symm)]; exact hc) hcu hcd

/-- Bytes moved into a used buffer are written to the shown array. -/
theorem Shows.written (h : Shows S W C N P v arr) (g : Geometry S W C N) {i k off : ℕ}
    {b : BlockBuffer} {mem : Store} {bytes : List UInt8} (hb : v.buffers[i]? = some b)
    (hu : b.used = true) (hk : b.firstSector = S * k) (hm : b.buffer = some mem)
    (hfit : off + bytes.length ≤ S * W) :
    Shows S W C N P
      { v with
        buffers := v.buffers.set i
          { b with buffer := some (patch mem off bytes), dirty := true } }
      (patch arr (S * k * W + off) bytes) := by
  have hother : ∀ o, ∀ k', k' ≠ k → o < S * W →
      patch arr (S * k * W + off) bytes (S * k' * W + o) = arr (S * k' * W + o) := by
    intro o k' hne ho
    apply patch_out
    by_contra hin
    apply hne
    have h1 : (S * k' * W + o) / (S * W) = k' := (run_offset g.sectors g.bytes).mpr ⟨o,ho,rfl⟩
    have h2 : (S * k' * W + o) / (S * W) = k :=
      (run_offset g.sectors g.bytes).mpr ⟨S * k' * W + o - S * k * W,by omega,by omega⟩
    omega
  refine ⟨h.perBuffer,h.size,h.count,by simp [h.length],?_,?_,?_,?_,?_⟩
  · intro j c hc hcu
    rcases getElem?_set_cases hc with ⟨rfl,rfl⟩ | ⟨-,hold⟩
    · exact h.aligned (b:=b) hb hcu
    · exact h.aligned hold hcu
  · intro j j' c c' hc hc' hcu hcu' hf
    rcases getElem?_set_cases hc with ⟨rfl,rfl⟩ | ⟨-,hold⟩ <;>
      rcases getElem?_set_cases hc' with ⟨rfl,rfl⟩ | ⟨-,hold'⟩
    · rfl
    · exact h.distinct (b:=b) hb hold' hcu hcu' hf
    · exact h.distinct (c:=b) hold hb hcu hcu' hf
    · exact h.distinct hold hold' hcu hcu' hf
  · intro j c hc hcu
    rcases getElem?_set_cases hc with ⟨rfl,rfl⟩ | ⟨hne,hold⟩
    · refine ⟨_,rfl,?_⟩
      intro o ho
      obtain ⟨mem',hm',harr⟩ := h.cached hb hu
      obtain rfl : mem = mem' := by rw [hm] at hm'; exact Option.some.inj hm'
      simp only [hk] at harr ⊢
      by_cases hin : off ≤ o ∧ o < off + bytes.length
      · rw [patch_in hin.1 hin.2,patch_in (by omega) (by omega)]
        congr 1
        omega
      · rw [patch_out (by omega),patch_out (by omega),harr o ho]
    · obtain ⟨k',hk',-,-⟩ := h.aligned hold hcu
      obtain ⟨mem',hm',harr⟩ := h.cached hold hcu
      refine ⟨mem',hm',?_⟩
      intro o ho
      have hne' : k' ≠ k := by
        rintro rfl
        exact hne (h.distinct hold hb hcu hu (hk'.trans hk.symm))
      rw [hk',hother o k' hne' ho,harr o ho,hk']
  · intro j c hc hcu
    rcases getElem?_set_cases hc with ⟨rfl,rfl⟩ | ⟨-,hold⟩
    · exact absurd hcu (by simp [hu])
    · exact h.resting hold hcu
  · intro a ha
    -- the buffer is dirty now, so a lies outside its run and is unaffected
    have hself := ha i _ (List.getElem?_set_self (List.getElem?_eq_some_iff.mp hb).1) hu rfl
    simp only [hk] at hself
    have hrun : a / (S * W) ≠ k := fun he => hself (by rw [he])
    obtain ⟨o,ho,hao⟩ := (run_offset (k := a / (S * W)) g.sectors g.bytes).mp rfl
    rw [hao,hother o _ hrun ho,←hao]
    apply h.settled
    intro j c hc hcu hcd
    by_cases hj : j = i
    · subst hj
      rw [hb] at hc
      obtain rfl := Option.some.inj hc
      rw [hk]
      exact fun he => hself he
    · exact ha j c (by rw [List.getElem?_set,if_neg (fun e => hj e.symm)]; exact hc) hcu hcd

end

end WootOs.VolumeCacheCoherence
