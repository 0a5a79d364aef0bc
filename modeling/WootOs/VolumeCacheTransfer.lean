import WootOs.VolumeCacheCoherence

/-!
# Transfers through the cache

The transfer loop of a read or write and the flush of all buffers, stated
against the array the volume shows. A transfer moves a prefix of the request:
all of it, or what was done before a drive request failed. The clipping in
front of the loop is exact as long as the 64-bit sums do not overflow.
-/

namespace WootOs.VolumeCacheTransfer

open ByteStore MachineInt VolumeCache VolumeCache.BufferedVolume VolumeCacheCoherence

/-- The bytes a transfer of m bytes moves: from the source when writing. -/
def moved (write : Bool) (arr : Store) (src : List UInt8) (p m : ℕ) : List UInt8 :=
  if write then src.take m else slice arr p m

/-- The array shown after the given bytes were moved. -/
def shown (write : Bool) (arr : Store) (p : ℕ) (bytes : List UInt8) : Store :=
  if write then patch arr p bytes else arr

/-- Every byte touched by a request lies in an allowed whole run of the drive. -/
def Reach (S W C : ℕ) (P : ℕ → Prop) (p left : ℕ) : Prop :=
  ∀ a, p ≤ a → a < p + left → P (a / (S * W)) ∧ S * (a / (S * W)) + S ≤ C

/-- Moving in two parts is moving at once. -/
theorem moved_add (write : Bool) (arr : Store) (src : List UInt8) (p m n : ℕ)
    (hsrc : write = true → m ≤ src.length) :
    moved write arr src p m ++
      moved write (shown write arr p (moved write arr src p m)) (src.drop m) (p + m) n =
    moved write arr src p (m + n) ∧
    shown write (shown write arr p (moved write arr src p m)) (p + m)
      (moved write (shown write arr p (moved write arr src p m)) (src.drop m) (p + m) n) =
    shown write arr p (moved write arr src p (m + n)) := by
  cases write with
  | false => simp only [moved,shown,Bool.false_eq_true,if_false,slice_append,and_self]
  | true =>
    have hlen : (src.take m).length = m := by
      rw [List.length_take]; have := hsrc rfl; omega
    have hp := patch_append arr p (src.take m) ((src.drop m).take n)
    rw [hlen,←List.take_add] at hp
    simp only [moved,shown,if_true,hp,List.take_add,and_self]

section

variable {S W C N : ℕ} {P : ℕ → Prop} {v : BufferedVolume} {arr : Store}

/-- A shown volume's buffer size does not overflow. -/
theorem blockSize_eq (g : Geometry S W C N) (h : Shows S W C N P v arr) :
    v.blockSize = S * W := by
  rw [blockSize,h.perBuffer,h.size]
  exact unsigned_natCast g.fits

/-- One round of the loop: the piece moved lies in the run the buffer holds. -/
theorem move_spec (g : Geometry S W C N) (h : Shows S W C N P v arr) {i p x : ℕ}
    {b : BlockBuffer} (write : Bool) (src : List UInt8) (hb : v.buffers[i]? = some b)
    (hu : b.used = true) (hf : b.firstSector = S * (p / (S * W)))
    (hx : p % (S * W) + x ≤ S * W) :
    ((v.touch i).move i (some src) (p % (S * W)) x write).1 = moved write arr src p x ∧
    Shows S W C N P ((v.touch i).move i (some src) (p % (S * W)) x write).2
      (shown write arr p (moved write arr src p x)) ∧
    ((v.touch i).move i (some src) (p % (S * W)) x write).2.drive = v.drive ∧
    unused ((v.touch i).move i (some src) (p % (S * W)) x write).2 = unused v := by
  have hi : i < v.buffers.length := (List.getElem?_eq_some_iff.mp hb).1
  have hrun : S * (p / (S * W)) * W + p % (S * W) = p := by
    have hd := Nat.div_add_mod p (S * W)
    have hr : S * (p / (S * W)) * W = S * W * (p / (S * W)) := by ring
    omega
  have hbuf : (v.touch i).buffers = v.buffers.set i { b with time := v.lru } := modify_eq_set _ hb
  have hget : (v.touch i).buffers[i]? = some { b with time := v.lru } := by
    rw [hbuf]; exact List.getElem?_set_self hi
  have ht := h.touched hb
  obtain ⟨mem,hm,harr⟩ := h.cached hb hu
  have hcount : ∀ c : BlockBuffer, c.used = true →
      (v.buffers.set i c).countP (fun b => !b.used) = unused v := by
    intro c hc
    obtain ⟨hi',hbe⟩ := List.getElem?_eq_some_iff.mp hb
    rw [List.countP_set hi,hbe,hu,hc]
    simp [unused]
  cases write with
  | false =>
    simp only [move,Bool.false_eq_true,if_false,moved,shown]
    refine ⟨?_,ht,rfl,?_⟩
    · simp only [hget,Option.bind_some,hm,Option.getD_some]
      apply slice_congr
      intro j hj
      rw [harr _ (by omega),hf,←Nat.add_assoc,hrun]
    · rw [unused,hbuf]
      exact hcount _ hu
  | true =>
    have hlen : (src.take x).length ≤ x := List.length_take_le x src
    simp only [move,if_true,moved,shown,modify_eq_set _ hget,hm,Option.map_some]
    refine ⟨trivial,?_,rfl,?_⟩
    · have hw := ht.written g hget hu hf hm
        (show p % (S * W) + (src.take x).length ≤ S * W by omega)
      rw [hrun] at hw
      exact hw
    · rw [unused,hbuf,List.set_set]
      exact hcount _ hu

/-- What a transfer promises: a prefix of m bytes was moved, all of them unless
a drive request failed. -/
structure Transferred (S W C N : ℕ) (P : ℕ → Prop) (write : Bool) (arr : Store)
    (src : List UInt8) (p left : ℕ) (v : BufferedVolume)
    (t : Option ℤ × List UInt8 × BufferedVolume) (l : List Bool) (m : ℕ) : Prop where
  /-- No more than asked for. -/
  bound : m ≤ left
  /-- What the drive went through. -/
  effect : Effect S W P v t.2.2 l
  /-- The bytes moved. -/
  bytes : t.2.1 = moved write arr src p m
  /-- The array shown afterwards. -/
  shows : Shows S W C N P t.2.2 (shown write arr p (moved write arr src p m))
  /-- Completion, or an error with a failed request. -/
  outcome : (t.1 = none ∧ m = left ∧ true ∉ l) ∨ ∃ e, t.1 = some e ∧ IsErrno e ∧ true ∈ l

/-- Nothing to transfer. -/
theorem Transferred.done (h : Shows S W C N P v arr) (write : Bool) (src : List UInt8) (p : ℕ) :
    Transferred S W C N P write arr src p 0 v (none,[],v) [] 0 where
  bound := Nat.le_refl 0
  effect := Effect.refl S W P v
  bytes := by cases write <;> simp [moved]
  shows := by cases write <;> simpa [moved,shown] using h
  outcome := .inl ⟨rfl,rfl,by simp⟩

/-- The request of the rounds still to come stays within reach. -/
theorem Reach.tail {p left x : ℕ} (h : Reach S W C P p left) (hx : x ≤ left) :
    Reach S W C P (p + x) (left - x) := by
  intro a hl hu
  exact h a (by omega) (by omega)

/-- The arithmetic of one round: offset, piece and sector in natural numbers. -/
theorem round_arith (g : Geometry S W C N) {p left : ℕ} (hp : p < 2 ^ 63) (hleft : 0 < left) :
    unsigned 64 (p : ℤ) = p ∧ (p : ℤ).tdiv (W : ℤ) = (p / W : ℕ) ∧
    p / W / S = p / (S * W) ∧ p % (S * W) < S * W ∧
    0 < min left (S * W - p % (S * W)) := by
  have hmod := Nat.mod_lt p (Nat.mul_pos g.sectors g.bytes)
  refine ⟨unsigned_natCast (by omega),(Int.ofNat_tdiv p W).symm,?_,hmod,by omega⟩
  rw [Nat.div_div_eq_div_mul,Nat.mul_comm]

/-- The transfer loop against the shown array, by induction on the rounds. -/
theorem accessLoop_spec (g : Geometry S W C N) (write : Bool) (fuel : ℕ) :
    ∀ (v : BufferedVolume) (arr : Store) (src : List UInt8) (left p : ℕ),
    Shows S W C N P v arr → SafeFaults v → Reach S W C P p left → left ≤ fuel →
    p + left ≤ 2 ^ 63 → (write = true → left ≤ src.length) →
    ∃ l m, Transferred S W C N P write arr src p left v
      (accessLoop write fuel v (some src) left p) l m := by
  induction fuel with
  | zero =>
    intro v arr src left p h _ _ hfuel _ _
    obtain rfl : left = 0 := by omega
    exact ⟨[],0,Transferred.done h write src p⟩
  | succ fuel ih =>
    intro v arr src left p h hsafe hreach hfuel hend hsrc
    by_cases hzero : left = 0
    · subst hzero
      have heq : accessLoop write (fuel + 1) v (some src) (0 : ℕ) p = (none,[],v) := by
        simp [accessLoop]
      rw [heq]
      exact ⟨[],0,Transferred.done h write src p⟩
    · have hleft : 0 < left := Nat.pos_of_ne_zero hzero
      obtain ⟨hu64,hsector,hdiv,hmod,hpos⟩ := round_arith g (show p < 2 ^ 63 by omega) hleft
      obtain ⟨x,hx⟩ : ∃ x, x = min left (S * W - p % (S * W)) := ⟨_,rfl⟩
      have hxint : min (left : ℤ) ((S * W : ℕ) - (p % (S * W) : ℕ) : ℤ) = (x : ℕ) := by omega
      have hfirst := hreach p (Nat.le_refl _) (by omega)
      obtain ⟨l,hfetch⟩ := fetchBuffer_spec g h (s := p / W) (by rw [hdiv]; exact hfirst.1)
        (by rw [hdiv]; exact hfirst.2) hsafe
      have hstep : ¬(left : ℤ) ≤ 0 := by omega
      rw [accessLoop,if_neg hstep]
      simp only [blockSize_eq g h,hu64,h.size,hsector,hxint,Int.toNat_natCast]
      obtain ⟨heff,hshow,⟨e,herr,hneg,hmem⟩ | ⟨i,b,hok,hnot,hsafe',hb,hu,hf⟩⟩ := hfetch
      · rcases hr : v.fetchBuffer ((p / W : ℕ) : ℤ) with ⟨r,v'⟩
        rw [hr] at heff hshow herr
        obtain rfl : r = .error e := herr
        exact ⟨l,0,⟨Nat.zero_le _,heff,by cases write <;> simp [moved],
          by cases write <;> simpa [moved,shown] using hshow,.inr ⟨e,rfl,hneg,hmem⟩⟩⟩
      · rcases hr : v.fetchBuffer ((p / W : ℕ) : ℤ) with ⟨r,v'⟩
        rw [hr] at heff hshow hok hsafe' hb
        obtain rfl : r = .ok i := hok
        rw [hdiv] at hf
        obtain ⟨hpiece,hshow',hdrive,hunused⟩ := move_spec g hshow write src hb hu hf
          (show p % (S * W) + x ≤ S * W by omega)
        simp only [Option.map_some]
        obtain ⟨v'',hv''⟩ : ∃ v'', v'' =
          ((v'.touch i).move i (some src) (p % (S * W)) x write).2 := ⟨_,rfl⟩
        rw [←hv''] at hshow' hdrive hunused ⊢
        have hsafe'' : SafeFaults v'' := by
          rw [SafeFaults,hdrive,hunused]; exact hsafe'
        have hcast : (left : ℤ) - (x : ℕ) = (left - x : ℕ) := by omega
        have hcast' : (p : ℤ) + (x : ℕ) = (p + x : ℕ) := by omega
        rw [hcast,hcast',hpiece]
        obtain ⟨l',m,ht⟩ := ih v'' _ (src.drop x) (left - x) (p + x) hshow' hsafe''
          (hreach.tail (by omega)) (by omega) (by omega)
          (fun hw => by rw [List.length_drop]; have := hsrc hw; omega)
        have hsplit := moved_add write arr src p x m (fun hw => by have := hsrc hw; omega)
        have heff'' : Effect S W P v v'' l := ⟨by rw [heff.consumed,hdrive],
          fun a ha => by rw [hdrive]; exact heff.frame a ha⟩
        refine ⟨l ++ l',x + m,by have := ht.bound; omega,heff''.trans ht.effect,?_,?_,?_⟩
        · simp only
          rw [ht.bytes,hsplit.1]
        · rw [←hsplit.2]
          exact ht.shows
        · rcases ht.outcome with ⟨hnone,hm,hnot'⟩ | ⟨e,he,hneg,hmem⟩
          · exact .inl ⟨hnone,by omega,by simp [hnot,hnot']⟩
          · exact .inr ⟨e,he,hneg,List.mem_append_right l hmem⟩

/-- Bytes a request of n bytes at a position covers inside a volume. -/
def clip (size n pos : ℕ) : ℕ := min n (size - pos)

/-- Clipping is exact for every position that is not more than the volume's
size above 2^63: positions from 2^63 on turn negative, and the difference to
the size is still read as negative. -/
theorem access_clip (g : Geometry S W C N) (h : Shows S W C N P v arr) (write : Bool)
    (src : List UInt8) {n pos : ℕ} (hn : n < 2 ^ 32) (hpos : pos ≤ 2 ^ 63 + C * W) :
    v.access (some src) n (signed 64 pos) write =
      if clip (C * W) n pos = 0 then (0,[],v) else
      match accessLoop write (clip (C * W) n pos) v (some src) (clip (C * W) n pos) pos with
      | (some e,out,v) => (e,out,v)
      | (none,out,v) => (clip (C * W) n pos,out,v) := by
  have hr := g.range
  have hW : v.drive.sectorSize ≠ 0 := by rw [h.size]; exact g.bytes.ne'
  have hvol : unsigned 64 ((v.drive.sectorCount * v.drive.sectorSize : ℕ) : ℤ) = C * W := by
    rw [h.count,h.size]
    exact unsigned_natCast (by omega)
  rw [access,if_neg hW]
  simp only [hvol]
  by_cases hlow : pos < 2 ^ 63
  · have hs : signed 64 (pos : ℤ) = pos := signed_of_range (w := 63) (by omega) (by omega)
    have hsum : unsigned 64 ((pos : ℤ) + n) = pos + n := by
      rw [←Nat.cast_add]
      exact unsigned_natCast (by omega)
    have hdiff : signed 64 ((C * W : ℕ) - (pos : ℤ)) = (C * W : ℕ) - (pos : ℤ) :=
      signed_of_range (w := 63) (by omega) (by omega)
    rw [hs,hsum,hdiff]
    by_cases hover : C * W < pos + n
    · rw [if_pos hover]
      by_cases hpast : C * W ≤ pos
      · rw [if_pos (by omega),if_pos (by rw [clip]; omega)]
      · have hc : (C * W : ℕ) - (pos : ℤ) = (clip (C * W) n pos : ℕ) := by rw [clip]; omega
        rewrite [if_neg (by omega),if_neg (by rw [clip]; omega),hc,Int.toNat_natCast]
        rfl
    · rw [if_neg hover]
      have hc : clip (C * W) n pos = n := by rw [clip]; omega
      rw [hc]
      by_cases hzero : n = 0
      · rw [if_pos (by omega),if_pos hzero]
      · rewrite [if_neg (by omega),if_neg hzero,Int.toNat_natCast]
        rfl
  · have hs : signed 64 (pos : ℤ) = pos - 2 * 2 ^ 63 :=
      signed_of_high (w := 63) (by omega) (by omega)
    have hsum : unsigned 64 ((pos : ℤ) - 2 * 2 ^ 63 + n) = pos + n := by
      have he : (pos : ℤ) - 2 * 2 ^ 63 + n = ((pos + n : ℕ) : ℤ) - 2 ^ 64 := by push_cast; ring
      rw [he]
      exact unsigned_neg (by omega)
    have hdiff : signed 64 ((C * W : ℕ) - ((pos : ℤ) - 2 * 2 ^ 63)) =
        (C * W : ℕ) - ((pos : ℤ) - 2 * 2 ^ 63) - 2 * 2 ^ 63 :=
      signed_of_high (w := 63) (by omega) (by omega)
    have hover : C * W < pos + n := by omega
    have hneg : (C * W : ℕ) - ((pos : ℤ) - 2 * 2 ^ 63) - 2 * 2 ^ 63 ≤ 0 := by omega
    have hc : clip (C * W) n pos = 0 := by rw [clip]; omega
    rw [hs,hsum,hdiff,if_pos hover,if_pos hneg,if_pos hc]

/-- Flushing several buffers: the array stays, all are clean after success. -/
theorem flushFrom_spec (g : Geometry S W C N) (is : List ℕ) :
    ∀ {v : BufferedVolume}, Shows S W C N P v arr → (∀ i ∈ is, i < N) →
    ∃ l, Effect S W P v (v.flushFrom is).2 l ∧ Shows S W C N P (v.flushFrom is).2 arr ∧
      ((v.flushFrom is).1 = false ↔ true ∈ l) ∧
      ∀ j c, (v.flushFrom is).2.buffers[j]? = some c → c.dirty = true →
        ((v.flushFrom is).1 = true → j ∉ is) ∧ ∃ c', v.buffers[j]? = some c' ∧ c'.dirty = true := by
  induction is with
  | nil =>
    intro v h _
    exact ⟨[],Effect.refl S W P v,h,by simp [flushFrom],fun j c hc hd => ⟨by simp,c,hc,hd⟩⟩
  | cons i is ih =>
    intro v h hlt
    have hi : i < v.buffers.length := by rw [h.length]; exact hlt i (by simp)
    have hb := List.getElem?_eq_getElem hi
    obtain ⟨hshow,⟨l,hl,hfail⟩,hframe,hbuf⟩ := flushBuffer_spec g h hb
    obtain ⟨l',heff',hshow',hfail',hdirty⟩ := ih hshow (fun j hj => hlt j (by simp [hj]))
    have heff : Effect S W P v (v.flushBuffer i).2 l := ⟨hl,hframe⟩
    refine ⟨l ++ l',heff.trans heff',hshow',?_,?_⟩
    · simp only [flushFrom,Bool.and_eq_false_iff,List.mem_append,hfail,hfail']
    · intro j c hc hd
      obtain ⟨hnot,c',hc',hd'⟩ := hdirty j c hc hd
      simp only [flushFrom,Bool.and_eq_true,List.mem_cons,not_or]
      rw [hbuf] at hc'
      split at hc'
      · rcases getElem?_set_cases hc' with ⟨-,rfl⟩ | ⟨hne,hold⟩
        · cases hd'
        · exact ⟨fun hok => ⟨hne,hnot hok.2⟩,c',hold,hd'⟩
      · next hbad => exact ⟨fun hok => absurd hok.1 hbad,c',hc',hd'⟩

/-- Synchronizing keeps the array; when it succeeds the drive holds all of it. -/
theorem synchronize_spec (g : Geometry S W C N) (h : Shows S W C N P v arr) :
    ∃ l, Effect S W P v v.synchronize.2 l ∧ Shows S W C N P v.synchronize.2 arr ∧
      (v.synchronize.1 = false ↔ true ∈ l) ∧
      (v.synchronize.1 = true → v.synchronize.2.drive.data = arr) := by
  obtain ⟨l,heff,hshow,hfail,hdirty⟩ := flushFrom_spec g (List.range v.buffers.length) h
    (fun i hi => by rw [←h.length]; exact List.mem_range.mp hi)
  refine ⟨l,heff,hshow,hfail,?_⟩
  intro hok
  funext a
  apply hshow.settled
  intro j c hc _ hd _
  have hlt : j < N := by rw [←hshow.length]; exact (List.getElem?_eq_some_iff.mp hc).1
  exact (hdirty j c hc hd).1 hok (List.mem_range.mpr (by rw [h.length]; exact hlt))

end

end WootOs.VolumeCacheTransfer
