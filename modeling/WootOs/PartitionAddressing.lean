import WootOs.PartitionIsolation

/-!
# Where the calls of a partition end up

A partition shifts byte positions by its first sector and leaves the clipping
to the cached volume, which knows the end of the drive only. The sector calls
add the first sector themselves and then go through the byte calls, which add
it again.
-/

namespace WootOs.PartitionAddressing

open ByteStore MachineInt VolumeCache VolumeCache.BufferedVolume VolumeCacheCoherence
open VolumeCacheTransfer VolumeCacheRuns PartitionIsolation

/-- ReadSectors: the byte read that it makes, in 64 and 32 bits. -/
def PartVolume.readSectors (p : PartVolume) (sectorSize s n : ℕ) : Request :=
  p.shift sectorSize (.read (unsigned 64 (unsigned 64 (p.firstSector + s : ℕ) * sectorSize : ℕ))
    (unsigned 32 (n * sectorSize : ℕ)))

/-- WriteSectors: the byte write that it makes. -/
def PartVolume.writeSectors (p : PartVolume) (sectorSize : ℕ) (src : List UInt8) (s n : ℕ) :
    Request :=
  p.shift sectorSize (.write (src.take (unsigned 32 (n * sectorSize : ℕ)))
    (unsigned 64 (unsigned 64 (p.firstSector + s : ℕ) * sectorSize : ℕ)))

/-- The bytes of a drive from the first one of a partition on. -/
def view (first W : ℕ) (arr : Store) : Store := fun a => arr (first * W + a)

/-- A cached partition that shows an array, on a drive that fails nothing. -/
structure Serving (W C first count : ℕ) (p : PartVolume) (drive : Drive) (lru : ℕ) (arr : Store) :
    Prop where
  /-- First sector. -/
  first : p.firstSector = first
  /-- Number of sectors. -/
  count : p.sectorCount = count
  /-- Cache and drive together hold the array. -/
  shows : Shows 16 W C 16 (fun _ => True) (p.volume drive lru) arr
  /-- No request of the drive's own sectors fails. -/
  infallible : drive.faults = []

/-- A byte call acts as on a flat device of the partition's size at the
partition's place, and on no byte outside. -/
def Addresses (W C first count : ℕ) (r : Request) : Prop :=
  ∀ p drive lru arr, Serving W C first count p drive lru arr →
    let out := perform (p.volume drive lru) [] (p.shift W r)
    out.1 = flatReply (count * W) (view first W arr) r ∧
    ∃ arr', Shows 16 W C 16 (fun _ => True) out.2 arr' ∧
      view first W arr' = applied (view first W arr) out.1.bytes r ∧
      ∀ a, a < first * W ∨ (first + count) * W ≤ a → arr' a = arr a

/-- Two calls give the same reply and leave the same array. -/
def SameEffect (W C : ℕ) (v : BufferedVolume) (r r' : Request) : Prop :=
  (perform v [] r).1 = (perform v [] r').1 ∧
  ∀ arr, Shows 16 W C 16 (fun _ => True) (perform v [] r).2 arr →
    Shows 16 W C 16 (fun _ => True) (perform v [] r').2 arr

/-- The sector read is the byte read of the same sectors. -/
def ReadsSectors (W C first count s n : ℕ) : Prop :=
  ∀ p drive lru arr, Serving W C first count p drive lru arr →
    SameEffect W C (p.volume drive lru) (PartVolume.readSectors p W s n)
      (p.shift W (.read (unsigned 64 (s * W : ℕ)) (unsigned 32 (n * W : ℕ))))

/-- The sector write is the byte write of the same sectors. -/
def WritesSectors (W C first count s n : ℕ) (src : List UInt8) : Prop :=
  ∀ p drive lru arr, Serving W C first count p drive lru arr →
    SameEffect W C (p.volume drive lru) (PartVolume.writeSectors p W src s n)
      (p.shift W (.write (src.take (unsigned 32 (n * W : ℕ))) (unsigned 64 (s * W : ℕ))))

/-- A transfer of n bytes at a position ends inside the partition, moves
nothing, or has the drive's end where the partition's is. -/
def Stays (W C first count n position : ℕ) : Prop :=
  n = 0 ∨ position + n ≤ count * W ∨
    (position + first * W < 2 ^ 64 ∧ (first + count = C ∨ C * W ≤ position + first * W))

/-- The same for a byte call. -/
def Request.Stays (W C first count : ℕ) : Request → Prop
  | .read position n => PartitionAddressing.Stays W C first count n position
  | .write src position => PartitionAddressing.Stays W C first count src.length position
  | .synchronize => True

/-- Where the byte call for sector s goes on the drive. -/
def bytePosition (first W s : ℕ) : ℕ :=
  unsigned 64 (unsigned 64 (s * W : ℕ) + first * W : ℕ)

/-- Where the sector call for sector s goes on the drive. -/
def sectorPosition (first W s : ℕ) : ℕ :=
  unsigned 64 (unsigned 64 (unsigned 64 (first + s : ℕ) * W : ℕ) + first * W : ℕ)

/-- A transfer of n bytes that moves nothing at either place. -/
def Idle (W C first s n : ℕ) : Prop :=
  (bytePosition first W s ≤ 2 ^ 63 + C * W ∧ clip (C * W) n (bytePosition first W s) = 0) ∧
  (sectorPosition first W s ≤ 2 ^ 63 + C * W ∧ clip (C * W) n (sectorPosition first W s) = 0)

/-- Arguments of the call's types: an unsigned 64-bit position and a 32-bit
length. -/
def Request.Typed : Request → Prop
  | .read position n => position < 2 ^ 64 ∧ n < 2 ^ 32
  | .write src position => position < 2 ^ 64 ∧ src.length < 2 ^ 32
  | .synchronize => True

/-- A new partition at a place. -/
def placed (first count : ℕ) : PartVolume := PartVolume.new first count fun _ => 0

section

variable {S W C N : ℕ} {P : ℕ → Prop} {v : BufferedVolume} {arr : Store}

/-- The drive refuses a run that reaches past its end. -/
theorem loadBuffer_outside {i s : ℕ} {b : BlockBuffer} (hb : v.buffers[i]? = some b)
    (hclean : b.dirty = false) (hW : v.drive.sectorSize ≠ 0)
    (hfit : v.sectorsPerBuffer * (s / v.sectorsPerBuffer) < 2 ^ 64)
    (hout : ¬v.sectorsPerBuffer * (s / v.sectorsPerBuffer) + v.sectorsPerBuffer ≤
      v.drive.sectorCount) : (v.loadBuffer i s).1 = false := by
  have hi : i < v.buffers.length := (List.getElem?_eq_some_iff.mp hb).1
  have hfirst : unsigned 64 ((v.sectorsPerBuffer : ℤ) * (s : ℤ).tdiv v.sectorsPerBuffer) =
      v.sectorsPerBuffer * (s / v.sectorsPerBuffer) := by
    rw [←Int.ofNat_tdiv,←Int.natCast_mul]
    exact unsigned_natCast hfit
  obtain ⟨mem,first,used,dirty,time⟩ := b
  obtain rfl : dirty = false := hclean
  have hget : (v.buffers.set i ⟨some (mem.getD v.dma),first,true,false,time⟩)[i]? =
      some ⟨some (mem.getD v.dma),first,true,false,time⟩ := List.getElem?_set_self hi
  rw [loadBuffer,if_neg hW]
  simp only [hfirst,modify_eq_set _ hb,hget,Option.map_some,Option.getD_some,
    Bool.false_eq_true,if_false,Drive.readSectors,if_neg hout]

/-- A sector of an incomplete run is not fetched. -/
theorem fetchBuffer_outside (g : Geometry S W C N) (h : Shows S W C N P v arr)
    (hfaults : v.drive.faults = []) {s : ℕ} (hs : s < 2 ^ 63) (hout : ¬S * (s / S) + S ≤ C) :
    (v.fetchBuffer s).1 = .error (-eio) := by
  have hW : ∀ v', Shows S W C N P v' arr → v'.drive.sectorSize ≠ 0 := by
    intro v' h'
    rw [h'.size]
    exact g.bytes.ne'
  have hload : ∀ v' i b, Shows S W C N P v' arr → v'.buffers[i]? = some b → b.dirty = false →
      (loadResult i (v'.loadBuffer i s)).1 = .error (-eio) := by
    intro v' i b h' hb hclean
    have hdm := Nat.mul_div_le s S
    rw [loadResult,loadBuffer_outside hb hclean (hW v' h') (by rw [h'.perBuffer]; omega)
      (by rw [h'.perBuffer,h'.count]; exact hout)]
    rfl
  have hmiss : v.getContainingBuffer s = none := by
    cases hfind : v.getContainingBuffer s with
    | none => rfl
    | some i =>
      obtain ⟨b,hb,hu,hf⟩ := h.hit g hfind
      obtain ⟨k,hk,-,hC⟩ := h.aligned hb hu
      rw [hf] at hk
      exact absurd (hk ▸ hC) hout
  cases hfree : v.buffers.findIdx? (fun b => !b.used) with
  | some i =>
    obtain ⟨hi,hu,-⟩ := List.findIdx?_eq_some_iff_getElem.mp hfree
    have hb : v.buffers[i]? = some v.buffers[i] := List.getElem?_eq_getElem hi
    rw [fetchBuffer_unused (by omega) (hW v h) hmiss hfree]
    exact hload v i _ h hb (h.resting hb (by simpa using hu))
  | none =>
    obtain ⟨i,hi⟩ : ∃ i, lruScan v.buffers 0 0 (2 ^ 64 - 1) = i := ⟨_,rfl⟩
    have hlt : i < v.buffers.length := by
      rw [←hi]
      exact lruScan_lt _ _ _ _ _ (by simp) (by rw [h.length]; exact g.buffers)
    have hb := List.getElem?_eq_getElem hlt
    rw [fetchBuffer_evict (by omega) hmiss hfree hi hb]
    cases hd : v.buffers[i].dirty with
    | false => exact hload v i _ h hb hd
    | true =>
      obtain ⟨h',⟨l,hl,hfail⟩,-,hbuf⟩ := flushBuffer_spec g h hb
      have hok : (v.flushBuffer i).1 = true := by
        refine Bool.eq_true_of_not_eq_false fun he => ?_
        rw [hfaults] at hl
        obtain rfl := (List.append_eq_nil_iff.mp hl.symm).1
        exact absurd (hfail.mp he) (by simp)
      rw [hok,if_pos rfl] at hbuf
      rw [hok]
      exact hload _ i _ h' (by rw [hbuf]; exact List.getElem?_set_self hlt) rfl

/-- A transfer that reaches an incomplete run ends with an error. -/
theorem accessLoop_outside (g : Geometry S W C N) (write : Bool) (fuel : ℕ) :
    ∀ (v : BufferedVolume) (arr : Store) (src : List UInt8) (left p : ℕ),
    Shows S W C N (fun _ => True) v arr → v.drive.faults = [] →
    ¬Reach S W C (fun _ => True) p left → left ≤ fuel → p + left ≤ 2 ^ 63 →
    ∃ e, (accessLoop write fuel v (some src) left p).1 = some e ∧ IsErrno e := by
  induction fuel with
  | zero =>
    intro v arr src left p _ _ hout hfuel _
    exact absurd (fun a hl hu => by omega) hout
  | succ fuel ih =>
    intro v arr src left p h hfaults hout hfuel hend
    have hleft : 0 < left := by
      refine Nat.pos_of_ne_zero fun hz => hout ?_
      subst hz
      exact fun a hl hu => by omega
    obtain ⟨hu64,hsector,hdiv,hmod,hpos⟩ := round_arith g (show p < 2 ^ 63 by omega) hleft
    obtain ⟨x,hx⟩ : ∃ x, x = min left (S * W - p % (S * W)) := ⟨_,rfl⟩
    have hxint : min (left : ℤ) ((S * W : ℕ) - (p % (S * W) : ℕ) : ℤ) = (x : ℕ) := by omega
    rw [accessLoop,if_neg (show ¬(left : ℤ) ≤ 0 by omega)]
    simp only [blockSize_eq g h,hu64,h.size,hsector,hxint,Int.toNat_natCast]
    have hsec : p / W < 2 ^ 63 := Nat.lt_of_le_of_lt (Nat.div_le_self p W) (by omega)
    by_cases hC : S * (p / W / S) + S ≤ C
    · obtain ⟨l,heff,hshow,hcase⟩ := fetchBuffer_spec g h (s := p / W) trivial hC
        (by rw [SafeFaults,hfaults]; simp)
      have hnil : l = [] ∧ (v.fetchBuffer (p / W : ℕ)).2.drive.faults = [] := by
        have := heff.consumed
        rw [hfaults] at this
        exact List.append_eq_nil_iff.mp this.symm
      rcases hcase with ⟨e,-,-,hmem⟩ | ⟨i,b,hok,-,-,hb,hu,hf⟩
      · rw [hnil.1] at hmem
        simp at hmem
      · rcases hr : v.fetchBuffer ((p / W : ℕ) : ℤ) with ⟨r,v'⟩
        rw [hr] at hshow hok hb hnil
        obtain rfl : r = .ok i := hok
        rw [hdiv] at hf hC
        obtain ⟨-,hshow',hdrive,-⟩ := move_spec g hshow write src hb hu hf
          (show p % (S * W) + x ≤ S * W by omega)
        simp only [Option.map_some]
        have hcast : (left : ℤ) - (x : ℕ) = (left - x : ℕ) := by omega
        have hcast' : (p : ℤ) + (x : ℕ) = (p + x : ℕ) := by omega
        rw [hcast,hcast']
        -- the first piece lies in a complete run, so the rest does not
        refine ih _ _ _ _ _ hshow' (by rw [hdrive]; exact hnil.2) ?_ (by omega) (by omega)
        intro hrest
        refine hout fun a hl hu => ⟨trivial,?_⟩
        by_cases ha : a < p + x
        · have hrun : a / (S * W) = p / (S * W) := by
            have hdm := Nat.div_add_mod p (S * W)
            exact Nat.div_eq_of_lt_le (by rw [Nat.mul_comm]; omega)
              (by rw [Nat.add_mul,Nat.mul_comm (p / (S * W))]; omega)
          rw [hrun]
          exact hC
        · exact (hrest a (by omega) (by omega)).2
    · rcases hr : v.fetchBuffer ((p / W : ℕ) : ℤ) with ⟨r,v'⟩
      have herr := fetchBuffer_outside g h hfaults hsec hC
      rw [hr] at herr
      obtain rfl : r = .error (-eio) := herr
      exact ⟨-eio,rfl,.inr rfl⟩

/-- Such an access is refused. -/
theorem access_outside (g : Geometry S W C N) (h : Shows S W C N (fun _ => True) v arr)
    (hfaults : v.drive.faults = []) (write : Bool) (src : List UInt8) {n pos : ℕ} (hn : n < 2 ^ 32)
    (hpos : pos ≤ 2 ^ 63 + C * W)
    (hout : ¬Reach S W C (fun _ => True) pos (clip (C * W) n pos)) :
    signed 32 (v.access (some src) n (signed 64 pos) write).1 < 0 := by
  have hr := g.range
  have hzero : clip (C * W) n pos ≠ 0 := by
    intro hz
    rw [hz] at hout
    exact hout fun a hl hu => by omega
  rw [access_clip g h write src hn hpos,if_neg hzero]
  rw [clip] at hzero
  obtain ⟨e,herr,he⟩ := accessLoop_outside g write (clip (C * W) n pos) v arr src
    (clip (C * W) n pos) pos h hfaults hout (Nat.le_refl _) (by rw [clip]; omega)
  rcases hloop : accessLoop write (clip (C * W) n pos) v (some src) (clip (C * W) n pos) pos
    with ⟨err,out,v'⟩
  rw [hloop] at herr
  obtain rfl : err = some e := herr
  exact IsErrno.signed he

/-- Such a call is refused. -/
theorem perform_outside (g : Geometry S W C N) (h : Shows S W C N (fun _ => True) v arr)
    {r : Request} (hfits : r.Fits (C * W)) (hout : ¬r.Within S W C fun _ => True) :
    (perform v [] r).1.count < 0 := by
  have h' : Shows S W C N (fun _ => True) { v with drive := { v.drive with faults := [] } } arr :=
    h.withDrive rfl rfl rfl
  cases r with
  | read position n => exact access_outside g h' rfl false [] hfits.1 hfits.2 hout
  | write src position => exact access_outside g h' rfl true src hfits.1 hfits.2 hout
  | synchronize => exact absurd trivial hout

end

section

variable {W C first count : ℕ}

/-- Clipping at the drive's end and at the partition's give the same length
exactly for transfers that stay. -/
theorem stays_iff (g : Geometry 16 W C 16) (hin : first + count ≤ C) {n position : ℕ}
    (hpos : position < 2 ^ 64) :
    Stays W C first count n position ↔
      clip (C * W) n (unsigned 64 (position + first * W : ℕ)) = clip (count * W) n position := by
  have hr := g.range
  have hW := g.bytes
  have hsum : first * W + count * W ≤ C * W := by
    rw [←Nat.add_mul]
    exact Nat.mul_le_mul_right W hin
  have hend : first + count = C ↔ first * W + count * W = C * W := by
    rw [←Nat.add_mul]
    exact ⟨fun h => by rw [h],fun h => Nat.eq_of_mul_eq_mul_right hW h⟩
  rw [Stays,hend]
  by_cases hwrap : position + first * W < 2 ^ 64
  · rw [unsigned_natCast hwrap,clip,clip]
    omega
  · have hu : unsigned 64 ((position + first * W : ℕ) : ℤ) = position + first * W - 2 ^ 64 := by
      rw [unsigned]
      omega
    rw [hu,clip,clip]
    omega

/-- A transfer that stays and moves something does not wrap and ends inside. -/
theorem stays_place (g : Geometry 16 W C 16) (hin : first + count ≤ C) {n position : ℕ}
    (hclip : clip (count * W) n position ≠ 0) :
    unsigned 64 ((position + first * W : ℕ) : ℤ) = first * W + position ∧
    position + clip (count * W) n position ≤ count * W := by
  have hr := g.range
  have hsum : first * W + count * W ≤ C * W := by
    rw [←Nat.add_mul]
    exact Nat.mul_le_mul_right W hin
  rw [clip] at hclip ⊢
  rw [unsigned_natCast (by omega)]
  omega

/-- The partition's bytes of a slice of the drive. -/
theorem slice_view (first W : ℕ) (arr : Store) (position n : ℕ) :
    slice (view first W arr) position n = slice arr (first * W + position) n := by
  apply slice_congr
  intro i _
  rw [view,Nat.add_assoc]

/-- The partition's bytes after the drive was patched inside it. -/
theorem view_patch (first W : ℕ) (arr : Store) (position : ℕ) (bs : List UInt8) :
    view first W (patch arr (first * W + position) bs) = patch (view first W arr) position bs := by
  funext a
  simp only [view,patch]
  by_cases ha : position ≤ a ∧ a < position + bs.length
  · rw [if_pos ha,if_pos (by omega)]
    congr 1
    omega
  · rw [if_neg ha,if_neg (by omega)]

/-- A new partition on a drive without faults serves. -/
theorem serving_placed (W C first count : ℕ) (data : Store) :
    Serving W C first count (placed first count) ⟨W,C,data,[]⟩ 0 data :=
  ⟨rfl,rfl,shows_new data _ [] 0,rfl⟩

/-- One byte call of a serving partition that touches complete runs only. -/
theorem served_placed (g : Geometry 16 W C 16) {p : PartVolume} {drive : Drive} {lru : ℕ}
    {arr : Store} (h : Serving W C first count p drive lru arr) {r : Request}
    (hfits : r.Fits (C * W)) (hwithin : r.Within 16 W C fun _ => True) :
    (perform (p.volume drive lru) [] r).1 = (flatReply (C * W) arr r).narrow ∧
    Shows 16 W C 16 (fun _ => True) (perform (p.volume drive lru) [] r).2
      (applied arr (perform (p.volume drive lru) [] r).1.bytes r) := by
  obtain ⟨l,hs⟩ := perform_spec g h.shows [] r hfits hwithin (by cases r <;> simp [Request.Safe])
  obtain rfl : l = [] := (List.append_eq_nil_iff.mp hs.consumed.symm).1
  exact ⟨hs.complete (by simp),hs.shows⟩

/-- Calls that stay act as on a device of the partition's size. -/
theorem addresses_of_stays (g : Geometry 16 W C 16) (hin : first + count ≤ C) {r : Request}
    (ht : Request.Typed r) (hfits : ((placed first count).shift W r).Fits (C * W))
    (hsmall : ((placed first count).shift W r).Small (C * W))
    (hwithin : ((placed first count).shift W r).Within 16 W C fun _ => True)
    (hstays : Request.Stays W C first count r) : Addresses W C first count r := by
  intro p drive lru arr h
  rw [shift_congr (q := placed first count) h.first]
  obtain ⟨hreply,hshow⟩ := served_placed g h hfits hwithin
  rw [narrow_flatReply hsmall] at hreply
  refine ⟨?_,_,hshow,?_,?_⟩
  · rw [hreply]
    cases r with
    | read position n =>
      have hclip := (stays_iff g hin ht.1).mp hstays
      simp only [PartVolume.shift,placed,PartVolume.new,flatReply] at hclip ⊢
      rw [hclip]
      by_cases hz : clip (count * W) n position = 0
      · rw [hz]
        simp
      · rw [(stays_place g hin hz).1,slice_view]
    | write src position =>
      have hclip := (stays_iff g hin ht.1).mp hstays
      simp only [PartVolume.shift,placed,PartVolume.new,flatReply] at hclip ⊢
      rw [hclip]
    | synchronize => rfl
  · rw [hreply]
    cases r with
    | read position n => rfl
    | write src position =>
      have hclip := (stays_iff g hin ht.1).mp hstays
      simp only [PartVolume.shift,placed,PartVolume.new,flatReply,applied] at hclip ⊢
      rw [hclip]
      by_cases hz : clip (count * W) src.length position = 0
      · rw [hz,List.take_zero,patch_nil,patch_nil]
      · rw [(stays_place g hin hz).1,view_patch]
    | synchronize => rfl
  · intro a ha
    rw [hreply]
    cases r with
    | read position n => rfl
    | write src position =>
      have hclip := (stays_iff g hin ht.1).mp hstays
      simp only [PartVolume.shift,placed,PartVolume.new,flatReply,applied] at hclip ⊢
      rw [hclip]
      by_cases hz : clip (count * W) src.length position = 0
      · rw [hz,List.take_zero,patch_nil]
      · obtain ⟨hplace,hend⟩ := stays_place g hin hz
        rw [hplace]
        have hlen := List.length_take_le (clip (count * W) src.length position) src
        exact patch_out (by rw [Nat.add_mul] at ha; omega)
    | synchronize => rfl

/-- A clipped length is a 32-bit number. -/
theorem clip_lt {size n pos : ℕ} (hn : n < 2 ^ 32) : clip size n pos < 2 ^ 32 :=
  Nat.lt_of_le_of_lt (Nat.min_le_left _ _) hn

/-- A narrowed count below 4 GiB is itself or 4 GiB less. -/
theorem signed_count {c : ℕ} (hc : c < 2 ^ 32) :
    (c < 2 ^ 31 ∧ signed 32 (c : ℤ) = c) ∨ (2 ^ 31 ≤ c ∧ signed 32 (c : ℤ) = c - 2 * 2 ^ 31) := by
  by_cases hlow : c < 2 ^ 31
  · exact .inl ⟨hlow,signed_of_range (w := 31) (by omega) (by exact_mod_cast hlow)⟩
  · exact .inr ⟨by omega,signed_of_high (w := 31) (by omega) (by omega)⟩

/-- A reply that is narrowed to a count it can represent was small. -/
theorem narrow_count {c d : ℕ} (hc : c < 2 ^ 32) (h : signed 32 (c : ℤ) = d) :
    c < 2 ^ 31 ∧ c = d := by
  rcases signed_count hc with ⟨hlow,he⟩ | ⟨-,he⟩ <;> rw [he] at h <;> omega

/-- The count of a reply is right only for calls that stay, touch complete runs
and transfer less than 2 GiB. -/
theorem stays_of_count (g : Geometry 16 W C 16) (hin : first + count ≤ C) {r : Request}
    (ht : Request.Typed r) (hfits : ((placed first count).shift W r).Fits (C * W))
    (h : Addresses W C first count r) :
    ((placed first count).shift W r).Small (C * W) ∧
    ((placed first count).shift W r).Within 16 W C (fun _ => True) ∧
    Request.Stays W C first count r := by
  have hserve := serving_placed W C first count fun _ => 0
  have hreply := (h _ _ _ _ hserve).1
  have hwithin : ((placed first count).shift W r).Within 16 W C (fun _ => True) := by
    by_contra hout
    have hneg := perform_outside g hserve.shows hfits hout
    rw [hreply] at hneg
    cases r <;> exact absurd hneg (by simp [flatReply])
  rw [(served_placed g hserve hfits hwithin).1] at hreply
  cases r with
  | read position n =>
    have hc := congrArg Reply.count hreply
    simp only [PartVolume.shift,placed,PartVolume.new,flatReply,Reply.narrow] at hc
    obtain ⟨hlow,heq⟩ := narrow_count (clip_lt ht.2) hc
    exact ⟨hlow,hwithin,(stays_iff g hin ht.1).mpr heq⟩
  | write src position =>
    have hc := congrArg Reply.count hreply
    simp only [PartVolume.shift,placed,PartVolume.new,flatReply,Reply.narrow] at hc
    obtain ⟨hlow,heq⟩ := narrow_count (clip_lt ht.2) hc
    exact ⟨hlow,hwithin,(stays_iff g hin ht.1).mpr heq⟩
  | synchronize => exact ⟨trivial,hwithin,trivial⟩

/-- An unsigned reading of a natural number is its remainder. -/
theorem unsigned_mod (w n : ℕ) : unsigned w (n : ℤ) = n % 2 ^ w := by
  rw [unsigned]
  exact_mod_cast Int.toNat_natCast (n % 2 ^ w)

/-- The two places in terms of the exact ones. -/
theorem positions_eq (first W s : ℕ) :
    bytePosition first W s = (s * W + first * W) % 2 ^ 64 ∧
    sectorPosition first W s = (s * W + first * W + first * W) % 2 ^ 64 := by
  constructor
  · rw [bytePosition,unsigned_mod,unsigned_mod,Nat.mod_add_mod]
  · rw [sectorPosition,unsigned_mod,unsigned_mod,unsigned_mod,Nat.mod_mul_mod,Nat.mod_add_mod]
    congr 1
    ring

/-- They are the same for a partition at the start of the drive only. -/
theorem positions_ne (g : Geometry 16 W C 16) (hin : first + count ≤ C) (hfirst : first ≠ 0)
    (s : ℕ) : bytePosition first W s ≠ sectorPosition first W s := by
  obtain ⟨hb,hs⟩ := positions_eq first W s
  have hr := g.range
  have hle : first * W ≤ C * W := Nat.mul_le_mul_right W (by omega)
  have hpos : 0 < first * W := Nat.mul_pos (by omega) g.bytes
  rw [hb,hs]
  omega

/-- One cache shows one array. -/
theorem shows_unique {S N : ℕ} {P : ℕ → Prop} {v : BufferedVolume} {arr arr' : Store}
    (g : Geometry S W C N) (h : Shows S W C N P v arr) (h' : Shows S W C N P v arr') :
    arr = arr' := by
  funext a
  by_cases hcover : ∃ (i : ℕ) (b : BlockBuffer), v.buffers[i]? = some b ∧ b.used = true ∧
      b.firstSector = S * (a / (S * W))
  · obtain ⟨i,b,hb,hu,hf⟩ := hcover
    obtain ⟨mem,hm,harr⟩ := h.cached hb hu
    obtain ⟨mem',hm',harr'⟩ := h'.cached hb hu
    obtain rfl : mem = mem' := by rw [hm] at hm'; exact Option.some.inj hm'
    obtain ⟨o,ho,ha⟩ := (run_offset (k := a / (S * W)) g.sectors g.bytes).mp rfl
    rw [ha,←hf,←harr o ho,←harr' o ho]
  · have hclean : ∀ (i : ℕ) (b : BlockBuffer), v.buffers[i]? = some b → b.used = true →
        b.dirty = true → b.firstSector ≠ S * (a / (S * W)) :=
      fun i b hb hu _ hf => hcover ⟨i,b,hb,hu,hf⟩
    rw [←h.settled a hclean,h'.settled a hclean]

/-- A call that transfers nothing changes nothing. -/
theorem perform_idle (g : Geometry 16 W C 16) {v : BufferedVolume} {arr : Store}
    (h : Shows 16 W C 16 (fun _ => True) v arr) {n position : ℕ} (hn : n < 2 ^ 32)
    (hpos : position ≤ 2 ^ 63 + C * W) (hclip : clip (C * W) n position = 0) :
    perform v [] (.read position n) = (⟨0,[]⟩,{ v with drive := { v.drive with faults := [] } }) := by
  have h' : Shows 16 W C 16 (fun _ => True)
      { v with drive := { v.drive with faults := [] } } arr := h.withDrive rfl rfl rfl
  have hrun := access_clip g h' false [] hn hpos
  rw [if_pos hclip] at hrun
  simp only [perform,BufferedVolume.read,hrun]
  rfl

theorem perform_idle_write (g : Geometry 16 W C 16) {v : BufferedVolume} {arr : Store}
    (h : Shows 16 W C 16 (fun _ => True) v arr) {src : List UInt8} {position : ℕ}
    (hn : src.length < 2 ^ 32) (hpos : position ≤ 2 ^ 63 + C * W)
    (hclip : clip (C * W) src.length position = 0) :
    perform v [] (.write src position) =
      (⟨0,[]⟩,{ v with drive := { v.drive with faults := [] } }) := by
  have h' : Shows 16 W C 16 (fun _ => True)
      { v with drive := { v.drive with faults := [] } } arr := h.withDrive rfl rfl rfl
  have hrun := access_clip g h' true src hn hpos
  rw [if_pos hclip] at hrun
  simp only [perform,BufferedVolume.write,hrun]
  rfl

/-- At the start of the drive both sector calls are the byte calls. -/
theorem positions_start (W s : ℕ) :
    unsigned 64 (unsigned 64 (0 + s : ℕ) * W : ℕ) = unsigned 64 (s * W : ℕ) := by
  rw [unsigned_mod,unsigned_mod,unsigned_mod,Nat.zero_add,Nat.mod_mul_mod]

/-- Sector reads are byte reads at the start of the drive, or when they read
nothing. -/
theorem readsSectors_of (g : Geometry 16 W C 16) {s n : ℕ}
    (h : first = 0 ∨ Idle W C first s (unsigned 32 (n * W : ℕ))) :
    ReadsSectors W C first count s n := by
  intro p drive lru arr hserve
  have hn : unsigned 32 ((n * W : ℕ) : ℤ) < 2 ^ 32 := by
    rw [unsigned_mod]
    exact Nat.mod_lt _ (by decide)
  have hp := hserve.first
  rcases h with rfl | ⟨⟨hfb,hcb⟩,hfs,hcs⟩
  · rw [PartVolume.readSectors,hp,positions_start]
    exact ⟨rfl,fun _ h => h⟩
  · have hb := perform_idle g hserve.shows hn hfb hcb
    have hs := perform_idle g hserve.shows hn hfs hcs
    simp only [PartVolume.readSectors,PartVolume.shift,hp]
    simp only [bytePosition,sectorPosition] at hb hs
    rw [SameEffect,hb,hs]
    exact ⟨rfl,fun _ h => h⟩

/-- Sector writes are byte writes at the start of the drive, or when they write
nothing. -/
theorem writesSectors_of (g : Geometry 16 W C 16) {s n : ℕ} {src : List UInt8}
    (h : first = 0 ∨ Idle W C first s (src.take (unsigned 32 (n * W : ℕ))).length) :
    WritesSectors W C first count s n src := by
  intro p drive lru arr hserve
  have hn : (src.take (unsigned 32 ((n * W : ℕ) : ℤ))).length < 2 ^ 32 := by
    refine Nat.lt_of_le_of_lt (List.length_take_le _ _) ?_
    rw [unsigned_mod]
    exact Nat.mod_lt _ (by decide)
  have hp := hserve.first
  rcases h with rfl | ⟨⟨hfb,hcb⟩,hfs,hcs⟩
  · rw [PartVolume.writeSectors,hp,positions_start]
    exact ⟨rfl,fun _ h => h⟩
  · have hb := perform_idle_write g hserve.shows hn hfb hcb
    have hs := perform_idle_write g hserve.shows hn hfs hcs
    simp only [PartVolume.writeSectors,PartVolume.shift,hp]
    simp only [bytePosition,sectorPosition] at hb hs
    rw [SameEffect,hb,hs]
    exact ⟨rfl,fun _ h => h⟩

/-- Two counts below 4 GiB that are narrowed to one number are equal. -/
theorem narrow_injective {c d : ℕ} (hc : c < 2 ^ 32) (hd : d < 2 ^ 32)
    (h : signed 32 (c : ℤ) = signed 32 (d : ℤ)) : c = d := by
  rcases signed_count hc with ⟨hc',he⟩ | ⟨hc',he⟩ <;>
    rcases signed_count hd with ⟨hd',he'⟩ | ⟨hd',he'⟩ <;> rw [he,he'] at h <;> omega

/-- A sector read that reads something elsewhere than the byte read differs
from it on some drive. -/
theorem readsSectors_imp (g : Geometry 16 W C 16) (hin : first + count ≤ C) (hwhole : 16 ∣ C)
    {s n : ℕ} (hfb : bytePosition first W s ≤ 2 ^ 63 + C * W)
    (hfs : sectorPosition first W s ≤ 2 ^ 63 + C * W) (h : ReadsSectors W C first count s n) :
    first = 0 ∨ Idle W C first s (unsigned 32 (n * W : ℕ)) := by
  by_contra hnot
  obtain ⟨hfirst,hidle⟩ := not_or.mp hnot
  have hn : unsigned 32 ((n * W : ℕ) : ℤ) < 2 ^ 32 := by
    rw [unsigned_mod]
    exact Nat.mod_lt _ (by decide)
  have hne := positions_ne g hin hfirst s
  generalize hm : unsigned 32 ((n * W : ℕ) : ℤ) = m at hn hidle
  have hserve := serving_placed W C first count fun a =>
    if a = sectorPosition first W s then 1 else 0
  obtain ⟨hsame,-⟩ := h _ _ _ _ hserve
  rw [show PartVolume.readSectors (placed first count) W s n =
      .read (sectorPosition first W s) m by rw [←hm]; rfl,
    show (placed first count).shift W (.read (unsigned 64 (s * W : ℕ)) (unsigned 32 (n * W : ℕ))) =
      .read (bytePosition first W s) m by rw [←hm]; rfl,
    (served_placed g hserve (r := .read _ m) ⟨hn,hfs⟩ (within_of_whole g hwhole _)).1,
    (served_placed g hserve (r := .read _ m) ⟨hn,hfb⟩ (within_of_whole g hwhole _)).1] at hsame
  simp only [flatReply,Reply.narrow,Reply.mk.injEq] at hsame
  have hcount := narrow_injective (clip_lt hn) (clip_lt hn) hsame.1
  rw [hcount] at hsame
  have hpos : 0 < clip (C * W) m (bytePosition first W s) := by
    refine Nat.pos_of_ne_zero fun hz => hidle ⟨⟨hfb,hz⟩,hfs,?_⟩
    exact hcount.trans hz
  have hfirstByte := slice_eq_imp hsame.2 0 hpos
  simp only [Nat.add_zero,if_true,if_neg hne] at hfirstByte
  exact absurd hfirstByte (by decide)

/-- Where bytes were written shows if nothing else looks like the first one. -/
theorem place_of_patch {arr : Store} {p q : ℕ} {bs : List UInt8} (hbs : 0 < bs.length)
    (harr : ∀ a, arr a ≠ bs.getD 0 0) (h : patch arr p bs = patch arr q bs) : p = q := by
  by_contra hne
  rcases Nat.lt_or_gt_of_ne hne with hlt | hlt
  · have hp := congrFun h p
    rw [patch_in (le_refl p) (by omega),patch_out (.inl hlt),Nat.sub_self] at hp
    exact harr p hp.symm
  · have hq := congrFun h q
    rw [@patch_in arr q q bs (le_refl q) (by omega),patch_out (.inl hlt),
      Nat.sub_self] at hq
    exact harr q hq

/-- A sector write that writes something elsewhere than the byte write differs
from it on some drive. -/
theorem writesSectors_imp (g : Geometry 16 W C 16) (hin : first + count ≤ C) (hwhole : 16 ∣ C)
    {s n : ℕ} {src : List UInt8} (hfb : bytePosition first W s ≤ 2 ^ 63 + C * W)
    (hfs : sectorPosition first W s ≤ 2 ^ 63 + C * W) (h : WritesSectors W C first count s n src) :
    first = 0 ∨ Idle W C first s (src.take (unsigned 32 (n * W : ℕ))).length := by
  by_contra hnot
  obtain ⟨hfirst,hidle⟩ := not_or.mp hnot
  have hn : (src.take (unsigned 32 ((n * W : ℕ) : ℤ))).length < 2 ^ 32 := by
    refine Nat.lt_of_le_of_lt (List.length_take_le _ _) ?_
    rw [unsigned_mod]
    exact Nat.mod_lt _ (by decide)
  have hne := positions_ne g hin hfirst s
  generalize hm : src.take (unsigned 32 ((n * W : ℕ) : ℤ)) = bs at hn hidle
  -- every byte of the drive differs from the first one written
  have hserve := serving_placed W C first count fun _ => bs.getD 0 0 + 1
  obtain ⟨hsame,hshow⟩ := h _ _ _ _ hserve
  rw [show PartVolume.writeSectors (placed first count) W src s n =
      .write bs (sectorPosition first W s) by rw [←hm]; rfl,
    show (placed first count).shift W (.write (src.take (unsigned 32 (n * W : ℕ)))
      (unsigned 64 (s * W : ℕ))) = .write bs (bytePosition first W s) by rw [←hm]; rfl]
    at hsame hshow
  obtain ⟨hrs,hss⟩ := served_placed g hserve (r := .write bs (sectorPosition first W s)) ⟨hn,hfs⟩
    (within_of_whole g hwhole _)
  obtain ⟨hrb,hsb⟩ := served_placed g hserve (r := .write bs (bytePosition first W s)) ⟨hn,hfb⟩
    (within_of_whole g hwhole _)
  have hboth := shows_unique g (hshow _ hss) hsb
  rw [hrs,hrb] at hsame hboth
  simp only [flatReply,Reply.narrow,Reply.mk.injEq] at hsame
  have hcount := narrow_injective (clip_lt hn) (clip_lt hn) hsame.1
  simp only [flatReply,Reply.narrow,applied,hcount] at hboth
  have hpos : 0 < clip (C * W) bs.length (bytePosition first W s) := by
    refine Nat.pos_of_ne_zero fun hz => hidle ⟨⟨hfb,hz⟩,hfs,?_⟩
    exact hcount.trans hz
  have hle : clip (C * W) bs.length (bytePosition first W s) ≤ bs.length := Nat.min_le_left _ _
  generalize clip (C * W) bs.length (bytePosition first W s) = c at hboth hpos hle
  have hlen : 0 < (bs.take c).length := by
    rw [List.length_take]
    omega
  have hhead : (bs.take c).getD 0 0 = bs.getD 0 0 := by
    obtain ⟨c,rfl⟩ := Nat.exists_eq_succ_of_ne_zero hpos.ne'
    cases bs <;> rfl
  refine hne (place_of_patch hlen (fun _ he => ?_) hboth).symm
  rw [hhead] at he
  exact absurd he (by simp)

end

/-- One-byte sectors are small enough. -/
theorem geometry_unit {C : ℕ} (hC : C ≤ 2 ^ 62) : Geometry 16 1 C 16 :=
  ⟨by decide,by decide,by decide,by decide,by omega⟩

end WootOs.PartitionAddressing
