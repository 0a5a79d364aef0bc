import WootOs.VolumeCacheTransfer

/-!
# Whole runs of a cached volume against a flat byte array

A run is a list of read, write and synchronize calls. The flat array answers
each call at once and is what the volume is for. On a drive that serves every
request of whole buffers the cache gives the array's replies and keeps the
drive in step with it; on a failing drive every reply that reports success is
the array's, provided that no load into a fresh buffer fails and that no call
touches the incomplete run at the end of the drive.
-/

namespace WootOs.VolumeCacheRuns

open ByteStore MachineInt VolumeCache VolumeCache.BufferedVolume VolumeCacheCoherence
open VolumeCacheTransfer

/-- A call on a volume. -/
inductive Request where
  /-- Read n bytes at a position. -/
  | read (position n : ℕ)
  /-- Write the source bytes at a position. -/
  | write (src : List UInt8) (position : ℕ)
  /-- Write all dirty buffers back. -/
  | synchronize

/-- What a call returns: its result and the bytes it moved. -/
structure Reply where
  /-- The value returned. -/
  count : ℤ
  /-- The bytes moved, to the caller or from the source. -/
  bytes : List UInt8
  deriving DecidableEq

/-- Perform a call while the drive answers with the given outcomes. -/
def perform (v : BufferedVolume) (faults : List Bool) (r : Request) : Reply × BufferedVolume :=
  let v := { v with drive := { v.drive with faults := faults } }
  match r with
  | .read position n => (⟨(v.read position n).1,(v.read position n).2.1⟩,(v.read position n).2.2)
  | .write src position =>
    (⟨(v.write src position).1,(v.write src position).2.1⟩,(v.write src position).2.2)
  | .synchronize => (⟨if v.synchronize.1 then 1 else 0,[]⟩,v.synchronize.2)

/-- The flat array's reply. -/
def flatReply (size : ℕ) (arr : Store) : Request → Reply
  | .read position n => ⟨clip size n position,slice arr position (clip size n position)⟩
  | .write src position =>
    ⟨clip size src.length position,src.take (clip size src.length position)⟩
  | .synchronize => ⟨1,[]⟩

/-- The flat array after a call that moved the given bytes. -/
def applied (arr : Store) (bytes : List UInt8) : Request → Store
  | .write _ position => patch arr position bytes
  | _ => arr

/-- A reply with its result narrowed to the 32 bits it is returned in. -/
def Reply.narrow (reply : Reply) : Reply := { reply with count := signed 32 reply.count }

/-- The arguments are within what the clipping can represent. -/
def Request.Fits (size : ℕ) : Request → Prop
  | .read position n => n < 2 ^ 32 ∧ position ≤ 2 ^ 63 + size
  | .write src position => src.length < 2 ^ 32 ∧ position ≤ 2 ^ 63 + size
  | .synchronize => True

/-- The number of bytes transferred can be returned in 32 bits. -/
def Request.Small (size : ℕ) : Request → Prop
  | .read position n => clip size n position < 2 ^ 31
  | .write src position => clip size src.length position < 2 ^ 31
  | .synchronize => True

/-- Narrowing the flat reply loses nothing when the count is small. -/
theorem narrow_flatReply {size : ℕ} {arr : Store} {r : Request} (h : r.Small size) :
    (flatReply size arr r).narrow = flatReply size arr r := by
  cases r with
  | read position n =>
    simp only [Reply.narrow,flatReply,Reply.mk.injEq,and_true]
    exact signed_of_range (w := 31) (by omega) (by exact_mod_cast h)
  | write src position =>
    simp only [Reply.narrow,flatReply,Reply.mk.injEq,and_true]
    exact signed_of_range (w := 31) (by omega) (by exact_mod_cast h)
  | synchronize => rfl

/-- Every run the call touches is an allowed whole run of the drive. -/
def Request.Within (S W C : ℕ) (P : ℕ → Prop) : Request → Prop
  | .read position n => Reach S W C P position (clip (C * W) n position)
  | .write src position => Reach S W C P position (clip (C * W) src.length position)
  | .synchronize => True

/-- No load into an unused buffer fails under these outcomes. -/
def Request.Safe (v : BufferedVolume) (faults : List Bool) : Request → Prop
  | .synchronize => True
  | _ => true ∉ faults.take (unused v)

instance (v : BufferedVolume) (faults : List Bool) (r : Request) : Decidable (r.Safe v faults) :=
  match r with
  | .read _ _ => inferInstanceAs (Decidable (true ∉ faults.take (unused v)))
  | .write _ _ => inferInstanceAs (Decidable (true ∉ faults.take (unused v)))
  | .synchronize => inferInstanceAs (Decidable True)

/-- A reply of a call that did not complete: an error, and a prefix moved. -/
def Incomplete (size : ℕ) (arr : Store) (reply : Reply) : Request → Prop
  | .read position n =>
    reply.count < 0 ∧ ∃ m ≤ clip size n position, reply.bytes = slice arr position m
  | .write src position =>
    reply.count < 0 ∧ ∃ m ≤ clip size src.length position, reply.bytes = src.take m
  | .synchronize => reply = ⟨0,[]⟩

/-- The returned error codes stay negative in 32 bits. -/
theorem IsErrno.signed {e : ℤ} (h : IsErrno e) : signed 32 e < 0 := by
  rcases h with rfl | rfl <;> decide

section

variable {S W C N : ℕ} {P : ℕ → Prop} {v : BufferedVolume} {arr : Store}

/-- One transfer through access: its result in terms of the flat array. -/
theorem access_spec (g : Geometry S W C N) (h : Shows S W C N P v arr) (write : Bool)
    (src : List UInt8) {n pos : ℕ} (hn : n < 2 ^ 32) (hpos : pos ≤ 2 ^ 63 + C * W)
    (hreach : Reach S W C P pos (clip (C * W) n pos))
    (hsafe : SafeFaults v) (hsrc : write = true → n ≤ src.length) :
    ∃ l m, Effect S W P v (v.access (some src) n (signed 64 pos) write).2.2 l ∧
      m ≤ clip (C * W) n pos ∧
      (v.access (some src) n (signed 64 pos) write).2.1 = moved write arr src pos m ∧
      Shows S W C N P (v.access (some src) n (signed 64 pos) write).2.2
        (shown write arr pos (moved write arr src pos m)) ∧
      (((v.access (some src) n (signed 64 pos) write).1 = clip (C * W) n pos ∧
          m = clip (C * W) n pos ∧ true ∉ l) ∨
        (signed 32 (v.access (some src) n (signed 64 pos) write).1 < 0 ∧ true ∈ l)) := by
  rw [access_clip g h write src hn hpos]
  by_cases hzero : clip (C * W) n pos = 0
  · rw [if_pos hzero,hzero]
    refine ⟨[],0,Effect.refl S W P v,Nat.le_refl 0,?_,?_,.inl ⟨rfl,rfl,by simp⟩⟩
    · cases write <;> simp [moved]
    · cases write <;> simpa [moved,shown] using h
  · rw [if_neg hzero]
    have hin : pos < C * W := by rw [clip] at hzero; omega
    have hr := g.range
    obtain ⟨l,m,ht⟩ := accessLoop_spec g write (clip (C * W) n pos) v arr src
      (clip (C * W) n pos) pos h hsafe hreach (Nat.le_refl _) (by rw [clip]; omega)
      (fun hw => Nat.le_trans (Nat.min_le_left _ _) (hsrc hw))
    rcases hloop : accessLoop write (clip (C * W) n pos) v (some src) (clip (C * W) n pos) pos
      with ⟨err,out,v'⟩
    rw [hloop] at ht
    obtain ⟨hb,heff,hbytes,hshow,⟨herr,hm,hnot⟩ | ⟨e,herr,hno,hmem⟩⟩ := ht
    · obtain rfl : err = none := herr
      exact ⟨l,m,heff,hb,hbytes,hshow,.inl ⟨rfl,hm,hnot⟩⟩
    · obtain rfl : err = some e := herr
      exact ⟨l,m,heff,hb,hbytes,hshow,.inr ⟨IsErrno.signed hno,hmem⟩⟩

/-- What one call promises: unless a drive request in range failed it replies
as the flat array does; the array shown afterwards has the moved bytes. -/
structure Served (S W C N : ℕ) (P : ℕ → Prop) (arr : Store) (v : BufferedVolume)
    (faults : List Bool) (r : Request) (l : List Bool) : Prop where
  /-- The outcomes consumed. -/
  consumed : faults = l ++ (perform v faults r).2.drive.faults
  /-- Bytes outside the allowed runs stay. -/
  frame : ∀ a, ¬P (a / (S * W)) → (perform v faults r).2.drive.data a = v.drive.data a
  /-- The array shown afterwards. -/
  shows : Shows S W C N P (perform v faults r).2 (applied arr (perform v faults r).1.bytes r)
  /-- A call without a failed request completes. -/
  complete : true ∉ l → (perform v faults r).1 = (flatReply (C * W) arr r).narrow
  /-- A call with one reports it. -/
  incomplete : true ∈ l → Incomplete (C * W) arr (perform v faults r).1 r
  /-- A successful synchronize leaves the whole array on the drive. -/
  synced : r = .synchronize → true ∉ l → (perform v faults r).2.drive.data = arr

/-- Every call keeps the relation to the flat array. -/
theorem perform_spec (g : Geometry S W C N) (h : Shows S W C N P v arr) (faults : List Bool)
    (r : Request) (hfit : r.Fits (C * W)) (hin : r.Within S W C P) (hsafe : r.Safe v faults) :
    ∃ l, Served S W C N P arr v faults r l := by
  have h' : Shows S W C N P { v with drive := { v.drive with faults := faults } } arr :=
    h.withDrive rfl rfl rfl
  cases r with
  | read position n =>
    obtain ⟨hn,hpos⟩ := hfit
    obtain ⟨l,m,heff,hm,hbytes,hshow,hcase⟩ :=
      access_spec g h' false [] hn hpos hin hsafe (by simp)
    refine ⟨l,heff.consumed,heff.frame,hshow,?_,?_,by simp⟩
    · intro hnot
      rcases hcase with ⟨hcount,rfl,-⟩ | ⟨-,hmem⟩
      · simp only [perform,BufferedVolume.read,flatReply,Reply.narrow,hcount,hbytes,moved,
          Bool.false_eq_true,if_false]
      · exact absurd hmem hnot
    · intro hmem
      rcases hcase with ⟨-,-,hnot⟩ | ⟨hneg,-⟩
      · exact absurd hmem hnot
      · exact ⟨hneg,m,hm,hbytes⟩
  | write src position =>
    obtain ⟨hn,hpos⟩ := hfit
    obtain ⟨l,m,heff,hm,hbytes,hshow,hcase⟩ :=
      access_spec g h' true src hn hpos hin hsafe (by simp)
    refine ⟨l,heff.consumed,heff.frame,?_,?_,?_,by simp⟩
    · simp only [applied]
      rw [show (perform v faults (.write src position)).1.bytes = _ from hbytes]
      exact hshow
    · intro hnot
      rcases hcase with ⟨hcount,rfl,-⟩ | ⟨-,hmem⟩
      · simp only [perform,BufferedVolume.write,flatReply,Reply.narrow,hcount,hbytes,moved,if_true]
      · exact absurd hmem hnot
    · intro hmem
      rcases hcase with ⟨-,-,hnot⟩ | ⟨hneg,-⟩
      · exact absurd hmem hnot
      · exact ⟨hneg,m,hm,hbytes⟩
  | synchronize =>
    obtain ⟨l,heff,hshow,hfail,hdata⟩ := synchronize_spec g h'
    refine ⟨l,heff.consumed,heff.frame,hshow,?_,?_,?_⟩
    · intro hnot
      have hok := Bool.eq_true_of_not_eq_false (fun he => hnot (hfail.mp he))
      simp only [perform,hok,if_true,flatReply,Reply.narrow]
      rfl
    · intro hmem
      simp only [Incomplete,perform,hfail.mpr hmem,Bool.false_eq_true,if_false]
    · intro _ hnot
      exact hdata (Bool.eq_true_of_not_eq_false (fun he => hnot (hfail.mp he)))

/-- A new volume shows the drive's contents. -/
theorem shows_new (data dma : Store) (faults : List Bool) (lru : ℕ) :
    Shows S W C N P (BufferedVolume.new ⟨W,C,data,faults⟩ lru S N dma) data := by
  have hfresh : ∀ {i : ℕ} {b : BlockBuffer},
      (BufferedVolume.new ⟨W,C,data,faults⟩ lru S N dma).buffers[i]? = some b → b = {} := by
    intro i b hb
    exact List.eq_of_mem_replicate (List.mem_of_getElem? hb)
  refine ⟨rfl,rfl,rfl,by simp [BufferedVolume.new],?_,?_,?_,?_,fun _ _ => rfl⟩
  · intro i b hb hu
    rw [hfresh hb] at hu
    cases hu
  · intro i j b c hb _ hu
    rw [hfresh hb] at hu
    cases hu
  · intro i b hb hu
    rw [hfresh hb] at hu
    cases hu
  · intro i b hb _
    rw [hfresh hb]

end

/-- A run on a drive that fails no request. -/
def run (v : BufferedVolume) : List Request → List Reply × BufferedVolume
  | [] => ([],v)
  | r :: rs =>
    let head := perform v [] r
    let tail := run head.2 rs
    (head.1 :: tail.1,tail.2)

/-- The same run on the flat array. -/
def flatRun (size : ℕ) (arr : Store) : List Request → List Reply × Store
  | [] => ([],arr)
  | r :: rs =>
    let tail := flatRun size (applied arr (flatReply size arr r).bytes r) rs
    (flatReply size arr r :: tail.1,tail.2)

/-- Every sector lies in at most one used buffer. -/
def SectorsOnce (v : BufferedVolume) : Prop :=
  ∀ sector (i j : ℕ) (b c : BlockBuffer), v.buffers[i]? = some b → v.buffers[j]? = some c →
    b.used = true → c.used = true →
    b.firstSector ≤ sector ∧ sector < b.firstSector + v.sectorsPerBuffer →
    c.firstSector ≤ sector ∧ sector < c.firstSector + v.sectorsPerBuffer → i = j

/-- Every used buffer that is not dirty equals the drive's sectors. -/
def CleanOnDrive (v : BufferedVolume) : Prop :=
  ∀ (i : ℕ) (b : BlockBuffer), v.buffers[i]? = some b → b.used = true → b.dirty = false →
    ∃ mem, b.buffer = some mem ∧ ∀ o < v.sectorsPerBuffer * v.drive.sectorSize,
      mem o = v.drive.data (b.firstSector * v.drive.sectorSize + o)

section

variable {S W C N : ℕ} {P : ℕ → Prop} {v : BufferedVolume} {arr : Store}

/-- Runs of different buffers do not overlap. -/
theorem sectorsOnce_of_shows (h : Shows S W C N P v arr) (g : Geometry S W C N) :
    SectorsOnce v := by
  intro sector i j b c hb hc hu hv hbs hcs
  obtain ⟨k,hk,-,-⟩ := h.aligned hb hu
  obtain ⟨k',hk',-,-⟩ := h.aligned hc hv
  rw [h.perBuffer,hk] at hbs
  rw [h.perBuffer,hk'] at hcs
  have e : sector / S = k := by rw [Nat.div_eq_iff g.sectors,Nat.mul_comm k S]; omega
  have e' : sector / S = k' := by rw [Nat.div_eq_iff g.sectors,Nat.mul_comm k' S]; omega
  exact h.distinct hb hc hu hv (by rw [hk,hk',←e,←e'])

/-- A clean buffer's run is covered by no dirty one, so the drive holds it. -/
theorem cleanOnDrive_of_shows (h : Shows S W C N P v arr) (g : Geometry S W C N) :
    CleanOnDrive v := by
  intro i b hb hu hclean
  obtain ⟨k,hk,-,-⟩ := h.aligned hb hu
  obtain ⟨mem,hm,harr⟩ := h.cached hb hu
  refine ⟨mem,hm,?_⟩
  rw [h.perBuffer,h.size]
  intro o ho
  rw [harr o ho]
  symm
  apply h.settled
  intro j c hc hcu hcd he
  have hrun : (b.firstSector * W + o) / (S * W) = k := by
    rw [hk]; exact (run_offset g.sectors g.bytes).mpr ⟨o,ho,rfl⟩
  rw [hrun,←hk] at he
  obtain rfl := h.distinct hc hb hcu hu he
  rw [hb] at hc
  obtain rfl := Option.some.inj hc
  rw [hclean] at hcd
  cases hcd

/-- When the drive is made of whole runs every request stays within them. -/
theorem within_of_whole (g : Geometry S W C N) (hwhole : S ∣ C) (r : Request) :
    r.Within S W C (fun _ => True) := by
  obtain ⟨q,rfl⟩ := hwhole
  have hreach : ∀ pos n, Reach S W (S * q) (fun _ => True) pos (clip (S * q * W) n pos) := by
    intro pos n a hl hu
    refine ⟨trivial,?_⟩
    rw [clip] at hu
    have hin : a < S * W * q := by
      have he : S * q * W = S * W * q := by ring
      omega
    have hkq : a / (S * W) < q := (Nat.div_lt_iff_lt_mul (Nat.mul_pos g.sectors g.bytes)).mpr
      (by rw [Nat.mul_comm]; exact hin)
    calc S * (a / (S * W)) + S = S * (a / (S * W) + 1) := by ring
      _ ≤ S * q := Nat.mul_le_mul_left S hkq
  cases r with
  | read position n => exact hreach position n
  | write src position => exact hreach position src.length
  | synchronize => trivial

/-- On a drive that fails nothing the cache replies as the flat array. -/
theorem run_spec (g : Geometry S W C N) (reqs : List Request) :
    ∀ {v : BufferedVolume} {arr : Store}, Shows S W C N P v arr →
    (∀ r ∈ reqs, r.Fits (C * W) ∧ r.Small (C * W) ∧ r.Within S W C P) →
    (run v reqs).1 = (flatRun (C * W) arr reqs).1 ∧
    Shows S W C N P (run v reqs).2 (flatRun (C * W) arr reqs).2 ∧
    ∀ a, ¬P (a / (S * W)) → (run v reqs).2.drive.data a = v.drive.data a := by
  induction reqs with
  | nil => intro v arr h _; exact ⟨rfl,h,fun _ _ => rfl⟩
  | cons r rs ih =>
    intro v arr h hall
    obtain ⟨hfit,hsmall,hin⟩ := hall r (by simp)
    have hsafe : r.Safe v [] := by cases r <;> simp [Request.Safe]
    obtain ⟨l,hs⟩ := perform_spec g h [] r hfit hin hsafe
    obtain rfl : l = [] := (List.append_eq_nil_iff.mp hs.consumed.symm).1
    have hreply := (hs.complete (by simp)).trans (narrow_flatReply hsmall)
    have hshow := hs.shows
    rw [hreply] at hshow
    obtain ⟨hout,hshow',hframe⟩ := ih hshow (fun r' hr' => hall r' (by simp [hr']))
    refine ⟨?_,hshow',fun a ha => (hframe a ha).trans (hs.frame a ha)⟩
    simp only [run,flatRun,hreply,hout]

end

/-- A run in two parts. -/
theorem run_append (reqs reqs' : List Request) :
    ∀ v : BufferedVolume, (run v (reqs ++ reqs')).2 = (run (run v reqs).2 reqs').2 := by
  induction reqs with
  | nil => intro v; rfl
  | cons r rs ih =>
    intro v
    simp only [List.cons_append,run,ih]

/-- The cache refines a flat byte array. Over every run of calls whose
arguments fit, on a drive of whole buffers that fails no request, each reply
is the array's, the cache stays consistent with the drive, and after a
synchronize the drive holds exactly the array. -/
theorem bufferedVolume_refines_flat {S W C N : ℕ} (g : Geometry S W C N) (hwhole : S ∣ C)
    (data dma : Store) (lru : ℕ) (reqs : List Request) (hfit : ∀ r ∈ reqs, r.Fits (C * W) ∧ r.Small (C * W)) :
    (run (BufferedVolume.new ⟨W,C,data,[]⟩ lru S N dma) reqs).1 =
      (flatRun (C * W) data reqs).1 ∧
    SectorsOnce (run (BufferedVolume.new ⟨W,C,data,[]⟩ lru S N dma) reqs).2 ∧
    CleanOnDrive (run (BufferedVolume.new ⟨W,C,data,[]⟩ lru S N dma) reqs).2 ∧
    (run (BufferedVolume.new ⟨W,C,data,[]⟩ lru S N dma) (reqs ++ [.synchronize])).2.drive.data =
      (flatRun (C * W) data reqs).2 := by
  have hnew : Shows S W C N (fun _ => True) (BufferedVolume.new ⟨W,C,data,[]⟩ lru S N dma) data :=
    shows_new data dma [] lru
  obtain ⟨hout,hshow,-⟩ := run_spec g reqs hnew
    (fun r hr => ⟨(hfit r hr).1,(hfit r hr).2,within_of_whole g hwhole r⟩)
  refine ⟨hout,sectorsOnce_of_shows hshow g,cleanOnDrive_of_shows hshow g,?_⟩
  obtain ⟨l,hs⟩ := perform_spec g hshow [] .synchronize trivial trivial trivial
  obtain rfl : l = [] := (List.append_eq_nil_iff.mp hs.consumed.symm).1
  rw [run_append]
  exact hs.synced rfl (by simp)

/-- A one-buffer volume of eight bytes: a write that straddles two buffers is
read back, and reaches the drive. -/
theorem bufferedVolume_refines_flat_two_buffers :
    (run (BufferedVolume.new ⟨2,4,fun a => UInt8.ofNat a,[]⟩ 0 2 1 fun _ => 0)
      [.write [70,71] 3,.read 2 9]).1 = [⟨2,[70,71]⟩,⟨6,[2,70,71,5,6,7]⟩] ∧
    (run (BufferedVolume.new ⟨2,4,fun a => UInt8.ofNat a,[]⟩ 0 2 1 fun _ => 0)
      ([.write [70,71] 3,.read 2 9] ++ [.synchronize])).2.drive.data 4 = 71 := by
  obtain ⟨hout,-,-,hdrive⟩ := bufferedVolume_refines_flat (S := 2) (W := 2) (C := 4) (N := 1)
    ⟨by decide,by decide,by decide,by decide,by decide⟩ (by decide) (fun a => UInt8.ofNat a)
    (fun _ => 0) 0 [.write [70,71] 3,.read 2 9]
    (by simp [Request.Fits,Request.Small,clip])
  exact ⟨hout.trans (by decide),by rw [hdrive]; decide⟩

/-- A position one byte below 2^64 turns negative: the sum with the length
wraps to one, so two bytes are returned where the volume has none. -/
theorem read_near_wrap_returns_bytes :
    Geometry 2 2 4 1 ∧ 2 ∣ 4 ∧
    (run (BufferedVolume.new ⟨2,4,fun a => UInt8.ofNat a,[]⟩ 0 2 1 fun _ => 0)
      [.read (2 ^ 64 - 1) 2]).1 = [⟨2,[3,0]⟩] ∧
    (flatRun (4 * 2) (fun a => UInt8.ofNat a) [.read (2 ^ 64 - 1) 2]).1 = [⟨0,[]⟩] := by
  refine ⟨⟨by decide,by decide,by decide,by decide,by decide⟩,by decide,?_,?_⟩
  · decide
  · decide

/-- One call and the outcomes of the drive requests it makes. -/
structure Call where
  /-- The call. -/
  request : Request
  /-- Outcomes of its requests in range, true for a failure. -/
  faults : List Bool

/-- A drive request in range failed during the call. -/
def RequestFailed (v : BufferedVolume) (c : Call) : Prop :=
  ∃ l, c.faults = l ++ (perform v c.faults c.request).2.drive.faults ∧ true ∈ l

/-- The buffer that answers for a sector holds the array's bytes of it. -/
def Answers (v : BufferedVolume) (arr : Store) : Prop :=
  ∀ sector i, v.getContainingBuffer sector = some i →
    ∃ b mem, v.buffers[i]? = some b ∧ b.buffer = some mem ∧ ∀ o < v.drive.sectorSize,
      mem ((sector - b.firstSector) * v.drive.sectorSize + o) =
        arr (sector * v.drive.sectorSize + o)

/-- Every call of the run replies as the flat array, or reports an error after
a drive request in range failed; completed parts of failed writes count. -/
def CorrectRun (size : ℕ) : Store → BufferedVolume → List Call → Prop
  | arr,v,[] => Answers v arr
  | arr,v,c :: cs =>
    Answers v arr ∧
    ((perform v c.faults c.request).1 = flatReply size arr c.request ∨
      (Incomplete size arr (perform v c.faults c.request).1 c.request ∧ RequestFailed v c)) ∧
    CorrectRun size (applied arr (perform v c.faults c.request).1.bytes c.request)
      (perform v c.faults c.request).2 cs

/-- The calls of a run that meet the defects of the cache nowhere: arguments
fit, no call touches the incomplete run at the end of the drive, and none of
the requests that fill unused buffers fails. -/
def AdmissibleRun (S W C : ℕ) : BufferedVolume → List Call → Prop
  | _,[] => True
  | v,c :: cs =>
    c.request.Fits (C * W) ∧ c.request.Small (C * W) ∧
    c.request.Within S W C (fun _ => True) ∧ c.request.Safe v c.faults ∧ AdmissibleRun S W C (perform v c.faults c.request).2 cs

section

variable {S W C N : ℕ} {P : ℕ → Prop} {v : BufferedVolume} {arr : Store}

/-- Whatever a volume shows, its buffers answer with. -/
theorem answers_of_shows (h : Shows S W C N P v arr) (g : Geometry S W C N) :
    Answers v arr := by
  intro sector i hi
  obtain ⟨b,hb,hu,hf⟩ := h.hit g hi
  obtain ⟨mem,hm,harr⟩ := h.cached hb hu
  refine ⟨b,mem,hb,hm,?_⟩
  rw [h.size]
  intro o ho
  have hdm := Nat.div_add_mod sector S
  have hlt := Nat.mod_lt sector g.sectors
  have hsub : sector - b.firstSector = sector % S := by omega
  have hin : sector % S * W + o < S * W := by
    calc sector % S * W + o < sector % S * W + W := by omega
      _ = (sector % S + 1) * W := by ring
      _ ≤ S * W := Nat.mul_le_mul_right W hlt
  rw [hsub,harr _ hin,hf]
  congr 1
  calc S * (sector / S) * W + (sector % S * W + o)
      = (S * (sector / S) + sector % S) * W + o := by ring
    _ = sector * W + o := by rw [hdm]

/-- An admissible run from any state that shows an array is correct. -/
theorem correctRun_of_shows (g : Geometry S W C N) (calls : List Call) :
    ∀ {v : BufferedVolume} {arr : Store}, Shows S W C N (fun _ => True) v arr →
    AdmissibleRun S W C v calls → CorrectRun (C * W) arr v calls := by
  induction calls with
  | nil => intro v arr h _; exact answers_of_shows h g
  | cons c cs ih =>
    intro v arr h hadm
    obtain ⟨hfit,hsmall,hin,hsafe,htail⟩ := hadm
    obtain ⟨l,hs⟩ := perform_spec g h c.faults c.request hfit hin hsafe
    refine ⟨answers_of_shows h g,?_,ih hs.shows htail⟩
    by_cases hmem : true ∈ l
    · exact .inr ⟨hs.incomplete hmem,l,hs.consumed,hmem⟩
    · exact .inl ((hs.complete hmem).trans (narrow_flatReply hsmall))

end

/-- On a drive of any size that may fail any request, every admissible run is
correct: a call that made no failed request in range completes, successful
reads return the flat array, and no buffer answers for sectors it lacks. -/
theorem bufferedVolume_faulty_run_correct {S W C N : ℕ} (g : Geometry S W C N)
    (data dma : Store) (lru : ℕ) (calls : List Call)
    (hadm : AdmissibleRun S W C (BufferedVolume.new ⟨W,C,data,[]⟩ lru S N dma) calls) :
    CorrectRun (C * W) data (BufferedVolume.new ⟨W,C,data,[]⟩ lru S N dma) calls :=
  correctRun_of_shows g calls (shows_new data dma [] lru) hadm

/-- Five sectors in buffers of two: a dirty buffer survives the failed write-back
that another read asks for, and is read back afterwards. -/
theorem bufferedVolume_faulty_run_correct_failed_flush :
    CorrectRun (5 * 1) (fun a => UInt8.ofNat a)
      (BufferedVolume.new ⟨1,5,fun a => UInt8.ofNat a,[]⟩ 0 2 1 fun _ => 0)
      [⟨.write [9] 1,[]⟩,⟨.read 2 1,[true]⟩,⟨.read 1 1,[]⟩] := by
  refine bufferedVolume_faulty_run_correct (S := 2) (W := 1) (C := 5) (N := 1)
    ⟨by decide,by decide,by decide,by decide,by decide⟩ _ _ _ _ 
    ⟨?_,?_,?_,?_,?_,?_,?_,?_,?_,?_,?_,?_,trivial⟩
  · simp [Request.Fits]
  · simp [Request.Small,clip]
  · intro a hl hu
    simp only [clip,List.length_cons,List.length_nil] at hu
    exact ⟨trivial,by omega⟩
  · decide
  · simp [Request.Fits]
  · simp [Request.Small,clip]
  · intro a hl hu
    simp only [clip] at hu
    exact ⟨trivial,by omega⟩
  · decide
  · simp [Request.Fits]
  · simp [Request.Small,clip]
  · intro a hl hu
    simp only [clip] at hu
    exact ⟨trivial,by omega⟩
  · decide

/-- Two defects at concrete inputs. The last sector of an odd drive is refused
although no request in range failed; and after the first load of a fresh
buffer failed, that buffer answers for sector zero with bytes it never read. -/
theorem partial_buffer_and_failed_load_break_run :
    ¬CorrectRun (3 * 1) (fun a => UInt8.ofNat a)
      (BufferedVolume.new ⟨1,3,fun a => UInt8.ofNat a,[]⟩ 0 2 1 fun _ => 77)
      [⟨.read 2 1,[]⟩] ∧
    ¬CorrectRun (4 * 1) (fun a => UInt8.ofNat a)
      (BufferedVolume.new ⟨1,4,fun a => UInt8.ofNat a,[]⟩ 0 2 1 fun _ => 77)
      [⟨.read 2 1,[true]⟩,⟨.read 0 1,[]⟩] := by
  constructor
  · rintro ⟨-,hbad | ⟨-,l,hl,hmem⟩,-⟩
    · exact absurd hbad (by decide)
    · obtain rfl : l = [] := (List.append_eq_nil_iff.mp hl.symm).1
      simp at hmem
  · rintro ⟨-,-,-,hbad | ⟨-,l,hl,hmem⟩,-⟩
    · exact absurd hbad (by decide)
    · obtain rfl : l = [] := (List.append_eq_nil_iff.mp hl.symm).1
      simp at hmem

end WootOs.VolumeCacheRuns
