import WootOs.Ext2Driver
import Mathlib.Algebra.BigOperators.Group.Finset.Basic
import Mathlib.Algebra.Order.BigOperators.Group.Finset

/-!
# Block groups, their bitmaps and counters

What one group's bitmap, its descriptor in memory, the descriptor's copies on
the volume and the superblock say about each other, and what taking or
dropping one bit does to all four. Both allocators are treated at once. The
places of bitmaps and tables never change; they are assumed to lie apart and
below the 4 GiB that the driver's 32-bit products can address.
-/

namespace WootOs.Ext2Groups

open ByteStore BitmapStore Ext2Driver

/-- The part of a file system that no allocator changes. -/
def frozen (fs : Ext2) : Ext2 where
  volume := ⟨fun _ => 0,fs.volume.served⟩
  superBlock := { fs.superBlock with sFreeBlocksCount := 0, sFreeInodesCount := 0, sWtime := 0 }
  blockSize := fs.blockSize
  blockGroupCount := fs.blockGroupCount
  bgdt := fun g => { fs.bgdt g with bgFreeBlocksCount := 0, bgFreeInodesCount := 0 }
  superDirty := false

/-- What makes the bitmaps of one kind independent of the counters. -/
structure Lawful (K : BitmapKind) : Prop where
  /-- The counter of a descriptor is read back. -/
  freeCount_set : ∀ d n, K.freeCount (K.setFreeCount d n) = n
  /-- Setting it changes nothing else. -/
  frozen_set : ∀ d n, { K.setFreeCount d n with bgFreeBlocksCount := 0, bgFreeInodesCount := 0 } =
    ({ d with bgFreeBlocksCount := 0, bgFreeInodesCount := 0 } : BlockGroupDescriptor)
  /-- The place of a bitmap does not depend on the counters. -/
  bitmap_frozen : ∀ d : BlockGroupDescriptor,
    K.bitmap { d with bgFreeBlocksCount := 0, bgFreeInodesCount := 0 } = K.bitmap d
  /-- The counter of the superblock is read back. -/
  total_set : ∀ s n, K.total (K.setTotal s n) = n
  /-- Setting it changes nothing else. -/
  frozen_total : ∀ s n, { K.setTotal s n with
      sFreeBlocksCount := 0, sFreeInodesCount := 0, sWtime := 0 } =
    ({ s with sFreeBlocksCount := 0, sFreeInodesCount := 0, sWtime := 0 } : SuperBlock)
  /-- The size of a bitmap does not depend on the counters. -/
  perGroup_frozen : ∀ s : SuperBlock,
    K.perGroup { s with sFreeBlocksCount := 0, sFreeInodesCount := 0, sWtime := 0 } = K.perGroup s
  /-- The counter lies inside the descriptor. -/
  field : K.fieldOffset + 2 ≤ descriptorSize

theorem lawful_blockKind : Lawful blockKind :=
  ⟨fun _ _ => rfl,fun _ _ => rfl,fun _ => rfl,fun _ _ => rfl,fun _ _ => rfl,fun _ => rfl,by decide⟩

theorem lawful_inodeKind : Lawful inodeKind :=
  ⟨fun _ _ => rfl,fun _ _ => rfl,fun _ => rfl,fun _ _ => rfl,fun _ _ => rfl,fun _ => rfl,by decide⟩

/-- Byte position of a group's bitmap. -/
def bitmapAt (K : BitmapKind) (fs : Ext2) (g : ℕ) : ℕ := fs.blockSize * K.bitmap (fs.bgdt g)

/-- Bits in one bitmap. -/
def bits (K : BitmapKind) (fs : Ext2) : ℕ := K.perGroup fs.superBlock

/-- Bit n of a group's bitmap on the volume. -/
def marked (K : BitmapKind) (fs : Ext2) (g n : ℕ) : Bool :=
  bitAt fs.volume.data (bitmapAt K fs g) n

/-- Byte position of a group's copy of the descriptor table. -/
def tableAt (fs : Ext2) (i : ℕ) : ℕ :=
  (fs.superBlock.sFirstDataBlock + fs.superBlock.sBlocksPerGroup * i) * fs.blockSize + fs.blockSize

/-- Two ranges of bytes that have no byte in common. -/
def Apart (a n b m : ℕ) : Prop := a + n ≤ b ∨ b + m ≤ a

instance (a n b m : ℕ) : Decidable (Apart a n b m) :=
  inferInstanceAs (Decidable (a + n ≤ b ∨ b + m ≤ a))

/-- Groups whose bitmaps and tables lie apart and within reach. Bitmaps count
in the first G groups; the constructor may see one group more. -/
structure Layout (K : BitmapKind) (G : ℕ) (fs : Ext2) : Prop where
  /-- Every access succeeds. -/
  infallible : fs.volume.Infallible
  /-- Bitmaps are made of whole bytes. -/
  whole : bits K fs % 8 = 0
  /-- Bitmaps are not empty. -/
  nonempty : 0 < bits K fs
  /-- The free bits of a group can be counted in 16 bits. -/
  counter : bits K fs < 2 ^ 16
  /-- The driver sees all groups. -/
  groups : G ≤ fs.blockGroupCount
  /-- All bits can be numbered in 32 bits. -/
  numbers : G * bits K fs < 2 ^ 32
  /-- Bitmaps are within reach of 32 bits. -/
  reach : ∀ g < G, bitmapAt K fs g + bits K fs / 8 ≤ 2 ^ 32
  /-- So are the table copies. -/
  tables : ∀ i < fs.blockGroupCount, fs.hasSuperBlock i = true → tableAt fs i < 2 ^ 32
  /-- Bitmaps lie apart. -/
  apart : ∀ g < G, ∀ h < G, g ≠ h →
    Apart (bitmapAt K fs g) (bits K fs / 8) (bitmapAt K fs h) (bits K fs / 8)
  /-- Bitmaps lie apart from the table copies. -/
  clear : ∀ g < G, ∀ i < fs.blockGroupCount, fs.hasSuperBlock i = true →
    Apart (bitmapAt K fs g) (bits K fs / 8) (tableAt fs i) (descriptorSize * fs.blockGroupCount)
  /-- Table copies lie apart. -/
  copies : ∀ i < fs.blockGroupCount, ∀ j < fs.blockGroupCount, fs.hasSuperBlock i = true →
    fs.hasSuperBlock j = true → i ≠ j → Apart (tableAt fs i) (descriptorSize * fs.blockGroupCount)
      (tableAt fs j) (descriptorSize * fs.blockGroupCount)

section

variable {K : BitmapKind} {G : ℕ} {fs fs' : Ext2}

/-- Bitmaps stay where they are. -/
theorem frozen_bitmapAt (law : Lawful K) (h : frozen fs' = frozen fs) (g : ℕ) :
    bitmapAt K fs' g = bitmapAt K fs g := by
  have hb : K.bitmap ((frozen fs').bgdt g) = K.bitmap ((frozen fs).bgdt g) := by rw [h]
  have hs : (frozen fs').blockSize = (frozen fs).blockSize := by rw [h]
  rw [frozen,frozen] at hb
  simp only [law.bitmap_frozen] at hb
  rw [bitmapAt,bitmapAt,hb]
  congr 1

/-- Bitmaps keep their size. -/
theorem frozen_bits (law : Lawful K) (h : frozen fs' = frozen fs) : bits K fs' = bits K fs := by
  have hb : K.perGroup (frozen fs').superBlock = K.perGroup (frozen fs).superBlock := by rw [h]
  rw [frozen,frozen] at hb
  simpa only [law.perGroup_frozen,bits] using hb

/-- What is read off the frozen part stays. -/
theorem frozen_eq {α : Type*} {f : Ext2 → α} (hf : ∀ x, f x = f (frozen x))
    (h : frozen fs' = frozen fs) : f fs' = f fs := by
  rw [hf fs',h,←hf fs]

/-- The layout of the groups stays. -/
theorem Layout.of_frozen (law : Lawful K) (h : frozen fs' = frozen fs) (L : Layout K G fs) :
    Layout K G fs' := by
  have hbits := frozen_bits law h
  have hat := frozen_bitmapAt law h
  have hcount : fs'.blockGroupCount = fs.blockGroupCount := frozen_eq (fun _ => rfl) h
  have htable : ∀ i, tableAt fs' i = tableAt fs i :=
    fun i => frozen_eq (f := (tableAt · i)) (fun _ => rfl) h
  have hsuper : ∀ i, fs'.hasSuperBlock i = fs.hasSuperBlock i :=
    fun i => frozen_eq (f := (Ext2.hasSuperBlock · i)) (fun _ => rfl) h
  have hserved : fs'.volume.served = fs.volume.served :=
    frozen_eq (f := fun f => f.volume.served) (fun _ => rfl) h
  refine ⟨?_,?_,?_,?_,?_,?_,?_,?_,?_,?_,?_⟩
  · intro pos n
    rw [hserved]
    exact L.infallible pos n
  · rw [hbits]; exact L.whole
  · rw [hbits]; exact L.nonempty
  · rw [hbits]; exact L.counter
  · rw [hcount]; exact L.groups
  · rw [hbits]; exact L.numbers
  · simp only [hbits,hat]; exact L.reach
  · simp only [hcount,htable,hsuper]; exact L.tables
  · simp only [hbits,hat]; exact L.apart
  · simp only [hbits,hat,hcount,htable,hsuper]; exact L.clear
  · simp only [hcount,htable,hsuper]; exact L.copies

end

/-- Writing one field to the copies of the listed groups. -/
theorem updateCopies_spec {fs : Ext2} (bg offs : ℕ) (field : List UInt8)
    (hinf : fs.volume.Infallible) (is : List ℕ) :
    ∃ data', fs.updateCopies bg offs field is = (true,fs.withData data') ∧
      (∀ a, (∀ i ∈ is, fs.hasSuperBlock i = true →
        Apart a 1 (fs.bgdtOffset i + descriptorSize * bg + offs) field.length) →
        data' a = fs.volume.data a) ∧
      ((∀ i ∈ is, ∀ j ∈ is, fs.hasSuperBlock i = true → fs.hasSuperBlock j = true → i ≠ j →
        Apart (fs.bgdtOffset i + descriptorSize * bg + offs) field.length
          (fs.bgdtOffset j + descriptorSize * bg + offs) field.length) →
        ∀ i ∈ is, fs.hasSuperBlock i = true →
          slice data' (fs.bgdtOffset i + descriptorSize * bg + offs) field.length = field) := by
  induction is generalizing fs with
  | nil => exact ⟨fs.volume.data,rfl,fun _ _ => rfl,fun _ i hi => absurd hi (by simp)⟩
  | cons i is ih =>
    by_cases hs : fs.hasSuperBlock i = true
    · let fs1 := fs.withData (patch fs.volume.data (fs.bgdtOffset i + descriptorSize * bg + offs) field)
      have hinf1 : fs1.volume.Infallible := hinf
      obtain ⟨data',hrun,hframe,hslice⟩ := ih hinf1
      refine ⟨data',?_,?_,?_⟩
      · rw [Ext2.updateCopies,if_neg (by simp [hs]),hinf.write]
        simp only [ne_eq,not_true_eq_false,if_false]
        exact hrun
      · intro a ha
        rw [hframe a (fun j hj => ha j (List.mem_cons_of_mem i hj))]
        have := ha i (by simp) hs
        exact patch_out (by rw [Apart] at this; omega)
      · intro hsep j hj hjs
        have hrest := hslice (fun x hx y hy => hsep x (by simp [hx]) y (by simp [hy]))
        by_cases hmem : j ∈ is
        · exact hrest j hmem hjs
        · obtain rfl : j = i := by simpa [hmem] using hj
          calc slice data' (fs.bgdtOffset j + descriptorSize * bg + offs) field.length
              = slice fs1.volume.data (fs.bgdtOffset j + descriptorSize * bg + offs) field.length := by
                apply slice_congr
                intro o ho
                apply hframe
                intro x hx hxs
                have hne : j ≠ x := fun e => hmem (e ▸ hx)
                have hap : Apart (fs.bgdtOffset j + descriptorSize * bg + offs) field.length
                    (fs.bgdtOffset x + descriptorSize * bg + offs) field.length :=
                  hsep j (by simp) x (by simp [hx]) hjs hxs hne
                show Apart _ 1 (fs.bgdtOffset x + descriptorSize * bg + offs) field.length
                rw [Apart] at hap ⊢
                omega
            _ = field := slice_patch_same _ _ _
    · obtain ⟨data',hrun,hframe,hslice⟩ := ih hinf
      refine ⟨data',?_,?_,?_⟩
      · rw [Ext2.updateCopies,if_pos (by simp [hs])]
        exact hrun
      · intro a ha
        exact hframe a (fun j hj => ha j (List.mem_cons_of_mem i hj))
      · intro hsep j hj hjs
        have hmem : j ∈ is := by
          rcases List.mem_cons.mp hj with rfl | hmem
          · exact absurd hjs hs
          · exact hmem
        exact hslice (fun x hx y hy => hsep x (by simp [hx]) y (by simp [hy])) j hmem hjs

/-- New contents of the volume after bit n of group g was set to v and the
descriptor's counter to count. -/
structure Rewritten (K : BitmapKind) (G : ℕ) (fs : Ext2) (g n : ℕ) (v : Bool) (count : ℕ)
    (data' : Store) : Prop where
  /-- One bit of the bitmaps has changed. -/
  bit : ∀ h < G, ∀ m < bits K fs,
    bitAt data' (bitmapAt K fs h) m = if h = g ∧ m = n then v else marked K fs h m
  /-- Every copy has the new counter. -/
  own : ∀ i < fs.blockGroupCount, fs.hasSuperBlock i = true →
    word data' 2 (tableAt fs i + descriptorSize * g + K.fieldOffset) = count
  /-- The counters of the other groups stay. -/
  other : ∀ i < fs.blockGroupCount, fs.hasSuperBlock i = true → ∀ h < fs.blockGroupCount, h ≠ g →
    word data' 2 (tableAt fs i + descriptorSize * h + K.fieldOffset) =
      word fs.volume.data 2 (tableAt fs i + descriptorSize * h + K.fieldOffset)
  /-- Nothing else changes. -/
  frame : ∀ a, (∀ h < G, Apart a 1 (bitmapAt K fs h) (bits K fs / 8)) →
    (∀ i < fs.blockGroupCount, fs.hasSuperBlock i = true →
      Apart a 1 (tableAt fs i) (descriptorSize * fs.blockGroupCount)) → data' a = fs.volume.data a

section

variable {K : BitmapKind} {G : ℕ} {fs fs' : Ext2} {g n : ℕ}

/-- Below 4 GiB the driver finds the table copies. -/
theorem Layout.bgdtOffset (L : Layout K G fs) {i : ℕ} (hi : i < fs.blockGroupCount)
    (hs : fs.hasSuperBlock i = true) : fs.bgdtOffset i = tableAt fs i := by
  have ht := L.tables i hi hs
  rw [tableAt] at ht
  rw [Ext2.bgdtOffset,Ext2.blockGroupOffset,Nat.mod_eq_of_lt (by omega),tableAt]

/-- The counter field of a descriptor lies inside each copy. -/
theorem Layout.field_inside (law : Lawful K) {h : ℕ} (hh : h < fs.blockGroupCount) :
    descriptorSize * h + K.fieldOffset + 2 ≤ descriptorSize * fs.blockGroupCount := by
  have hf := law.field
  simp only [descriptorSize] at hf ⊢
  omega

/-- Counter fields of different descriptors or copies do not overlap. -/
theorem Layout.fields_apart (law : Lawful K) (L : Layout K G fs) {i j h h' : ℕ}
    (hi : i < fs.blockGroupCount) (hj : j < fs.blockGroupCount) (hsi : fs.hasSuperBlock i = true)
    (hsj : fs.hasSuperBlock j = true) (hh : h < fs.blockGroupCount) (hh' : h' < fs.blockGroupCount)
    (hne : i ≠ j ∨ h ≠ h') :
    Apart (tableAt fs i + descriptorSize * h + K.fieldOffset) 2
      (tableAt fs j + descriptorSize * h' + K.fieldOffset) 2 := by
  have hin := Layout.field_inside law hh
  have hin' := Layout.field_inside law hh'
  by_cases hij : i = j
  · subst hij
    have hf := law.field
    simp only [Apart,descriptorSize] at hf ⊢
    omega
  · have hap := L.copies i hi j hj hsi hsj hij
    rw [Apart] at hap ⊢
    omega

/-- Changing one byte of a bitmap and then the counter in every copy. -/
theorem update_rewritten (law : Lawful K) (L : Layout K G fs) (hg : g < G) (hn : n < bits K fs)
    {v : Bool} {c : UInt8} {count : ℕ} (hcount : count < 2 ^ 16)
    (hc : ∀ j, c.toNat.testBit j =
      if j = n % 8 then v else (fs.volume.data (bitmapAt K fs g + n / 8)).toNat.testBit j)
    (hfz : frozen fs' = frozen fs)
    (hdata : fs'.volume.data = patch fs.volume.data (bitmapAt K fs g + n / 8) [c]) :
    ∃ data', fs'.updateBGDT g K.fieldOffset (leBytes 2 count) = (true,fs'.withData data') ∧
      Rewritten K G fs g n v count data' := by
  have L' := L.of_frozen law hfz
  have hcnt : fs'.blockGroupCount = fs.blockGroupCount := frozen_eq (fun _ => rfl) hfz
  have hsup : ∀ i, fs'.hasSuperBlock i = fs.hasSuperBlock i :=
    fun i => frozen_eq (f := (Ext2.hasSuperBlock · i)) (fun _ => rfl) hfz
  have hoff : ∀ i < fs.blockGroupCount, fs.hasSuperBlock i = true →
      fs'.bgdtOffset i = tableAt fs i := by
    intro i hi hs
    rw [show fs'.bgdtOffset i = fs.bgdtOffset i from
      frozen_eq (f := (Ext2.bgdtOffset · i)) (fun _ => rfl) hfz]
    exact L.bgdtOffset hi hs
  have hgc : g < fs.blockGroupCount := Nat.lt_of_lt_of_le hg L.groups
  have hbyte : n / 8 < bits K fs / 8 := by have := L.whole; omega
  obtain ⟨data',hrun,hframe,hslice⟩ := updateCopies_spec g K.fieldOffset
    (leBytes 2 count) L'.infallible (List.range fs'.blockGroupCount)
  simp only [List.mem_range,hcnt,hsup,leBytes_length] at hframe hslice
  -- the copies are written at their places and nowhere else
  have hframe' : ∀ a, (∀ i < fs.blockGroupCount, fs.hasSuperBlock i = true →
      Apart a 1 (tableAt fs i + descriptorSize * g + K.fieldOffset) 2) →
      data' a = fs'.volume.data a := by
    intro a ha
    apply hframe
    intro i hi hs
    rw [hoff i hi hs]
    exact ha i hi hs
  have hbits : ∀ a, (∃ h < G, bitmapAt K fs h ≤ a ∧ a < bitmapAt K fs h + bits K fs / 8) →
      data' a = fs'.volume.data a := by
    rintro a ⟨h,hh,hl,hu⟩
    apply hframe'
    intro i hi hs
    have hap := L.clear h hh i hi hs
    have hin := Layout.field_inside law hgc
    rw [Apart] at hap ⊢
    omega
  refine ⟨data',hrun,?_,?_,?_,?_⟩
  · intro h hh m hm
    have hmb : m / 8 < bits K fs / 8 := by have := L.whole; omega
    have hstep : bitAt data' (bitmapAt K fs h) m = bitAt fs'.volume.data (bitmapAt K fs h) m :=
      bitAt_congr (hbits _ ⟨h,hh,by omega,by omega⟩)
    rw [hstep,marked]
    by_cases hhg : h = g
    · subst hhg
      rw [hdata]
      simp only [true_and]
      refine bitAt_patch hc ?_ m
      intro m
      simp only [patch,List.length_cons,List.length_nil]
      by_cases he : m / 8 = n / 8
      · rw [if_pos (by omega),if_pos he,he]
        simp
      · rw [if_neg (by omega),if_neg he]
    · rw [if_neg (fun e => hhg e.1)]
      apply bitAt_congr
      rw [hdata]
      have hap := L.apart h hh g hg hhg
      rw [Apart] at hap
      exact patch_out (by simp only [List.length_cons,List.length_nil]; omega)
  · intro i hi hs
    have hs' := hslice (fun x hx y hy hxs hys hxy => by
      rw [hoff x hx hxs,hoff y hy hys]
      exact L.fields_apart law hx hy hxs hys hgc hgc (.inl hxy)) i hi hs
    rw [hoff i hi hs] at hs'
    rw [word,hs',leValue_leBytes]
    exact Nat.mod_eq_of_lt hcount
  · intro i hi hs h hh hne
    have hin := Layout.field_inside law hh
    calc word data' 2 (tableAt fs i + descriptorSize * h + K.fieldOffset)
        = word fs'.volume.data 2 (tableAt fs i + descriptorSize * h + K.fieldOffset) := by
          apply word_congr
          intro o ho
          apply hframe'
          intro j hj hsj
          have hap := L.fields_apart law hi hj hs hsj hh hgc (.inr hne)
          rw [Apart] at hap ⊢
          omega
      _ = word fs.volume.data 2 (tableAt fs i + descriptorSize * h + K.fieldOffset) := by
          rw [hdata]
          apply word_patch_disjoint
          have hap := L.clear g hg i hi hs
          rw [Apart] at hap
          simp only [List.length_cons,List.length_nil]
          omega
  · intro a hbm htb
    have hin := Layout.field_inside law hgc
    rw [hframe' a (fun i hi hs => by
      have := htb i hi hs
      rw [Apart] at this ⊢
      omega),hdata]
    have := hbm g hg
    rw [Apart] at this
    exact patch_out (by simp only [List.length_cons,List.length_nil]; omega)

/-- The file system after a bit of group g was taken. -/
def afterTake (K : BitmapKind) (fs : Ext2) (g : ℕ) (data' : Store) : Ext2 where
  volume := ⟨data',fs.volume.served⟩
  superBlock := K.setTotal fs.superBlock ((K.total fs.superBlock + (2 ^ 32 - 1)) % 2 ^ 32)
  blockSize := fs.blockSize
  blockGroupCount := fs.blockGroupCount
  bgdt := Function.update fs.bgdt g
    (K.setFreeCount (fs.bgdt g) ((K.freeCount (fs.bgdt g) + (2 ^ 16 - 1)) % 2 ^ 16))
  superDirty := true

/-- Taking a bit changes counters and contents only. -/
theorem frozen_update (law : Lawful K) (fs : Ext2) (g c : ℕ) (data' : Store) :
    frozen { fs with volume := ⟨data',fs.volume.served⟩,
                     bgdt := Function.update fs.bgdt g (K.setFreeCount (fs.bgdt g) c) } =
      frozen fs := by
  simp only [frozen,Ext2.mk.injEq,true_and,and_true]
  funext h
  by_cases hh : h = g
  · subst hh
    rw [Function.update_self]
    exact law.frozen_set _ _
  · rw [Function.update_of_ne hh]

theorem frozen_afterTake (law : Lawful K) (fs : Ext2) (g : ℕ) (data' : Store) :
    frozen (afterTake K fs g data') = frozen fs := by
  rw [←frozen_update law fs g ((K.freeCount (fs.bgdt g) + (2 ^ 16 - 1)) % 2 ^ 16) data']
  simp only [frozen,afterTake,Ext2.mk.injEq,true_and,and_true]
  exact law.frozen_total _ _

/-- Below 4 GiB the driver finds the bytes of a bitmap. -/
theorem Layout.bitmapByte (L : Layout K G fs) (hg : g < G) {j : ℕ} (hj : j < bits K fs / 8) :
    fs.bitmapByte K g j = bitmapAt K fs g + j := by
  have hr := L.reach g hg
  rw [Ext2.bitmapByte]
  exact Nat.mod_eq_of_lt (by rw [bitmapAt] at hr; omega)

/-- The search from byte j on finds the lowest clear bit there or none. -/
theorem takeBit_spec (law : Lawful K) (L : Layout K G fs) (hg : g < G) :
    ∀ rest j, j + rest = bits K fs / 8 →
    (fs.takeBit K g rest j = (.full,fs) ∧ ∀ n, 8 * j ≤ n → n < bits K fs → marked K fs g n = true) ∨
    ∃ n data', n < bits K fs ∧ marked K fs g n = false ∧
      fs.takeBit K g rest j = (.bit n,afterTake K fs g data') ∧
      Rewritten K G fs g n true ((K.freeCount (fs.bgdt g) + (2 ^ 16 - 1)) % 2 ^ 16) data' := by
  intro rest
  induction rest with
  | zero =>
    intro j hj
    have hw := L.whole
    exact .inl ⟨rfl,fun n hl hu => absurd hu (by omega)⟩
  | succ rest ih =>
    intro j hj
    have hw := L.whole
    have hplace : fs.bitmapByte K g j = bitmapAt K fs g + j := L.bitmapByte hg (by omega)
    have hread : fs.volume.read (fs.bitmapByte K g j) 1 =
        (((1 : ℕ) : ℤ),[fs.volume.data (bitmapAt K fs g + j)]) := by
      rw [L.infallible.read,hplace]
      rfl
    rw [Ext2.takeBit,hread]
    simp only [Nat.cast_one,ne_eq,not_true_eq_false,if_false,List.headD_cons]
    by_cases hfull : fs.volume.data (bitmapAt K fs g + j) = 0xFF
    · simp only [hfull,if_true]
      rcases ih (j + 1) (by omega) with ⟨hrun,hall⟩ | hfound
      · refine .inl ⟨hrun,?_⟩
        intro n hl hu
        by_cases hbyte : n / 8 = j
        · rw [marked,bitAt,hbyte]
          exact (eq_full_iff _).mp hfull _ (Nat.mod_lt n (by decide))
        · exact hall n (by omega) hu
      · exact .inr hfound
    · obtain ⟨hbit,hclear,-⟩ := lowestClear_spec hfull
      simp only [hfull,if_false,hplace,L.infallible.write,List.length_singleton,Nat.cast_one,
        not_true_eq_false,Function.update_self,law.freeCount_set]
      generalize lowestClear (fs.volume.data (bitmapAt K fs g + j)) = bit at hbit hclear ⊢
      have hn : j * 8 + bit < bits K fs := by omega
      have hdiv : (j * 8 + bit) / 8 = j := by omega
      have hmod : (j * 8 + bit) % 8 = bit := by omega
      have hfz := frozen_update law fs g ((K.freeCount (fs.bgdt g) + (2 ^ 16 - 1)) % 2 ^ 16)
        (patch fs.volume.data (bitmapAt K fs g + j)
          [markBit (fs.volume.data (bitmapAt K fs g + j)) bit])
      obtain ⟨data',hrun,hdata'⟩ := update_rewritten (v := true)
        (c := markBit (fs.volume.data (bitmapAt K fs g + j)) bit) law L hg hn
        (Nat.mod_lt (K.freeCount (fs.bgdt g) + (2 ^ 16 - 1)) (by decide)) (fun i => by
          rw [hdiv,hmod,testBit_markBit _ hbit]
          by_cases hi : i = bit
          · simp [hi]
          · simp [hi,Ne.symm hi]) hfz (by rw [hdiv])
      refine .inr ⟨j * 8 + bit,data',hn,?_,?_,hdata'⟩
      · rw [marked,bitAt,hdiv,hmod]
        exact hclear
      · simp only [hrun,Bool.not_true,Bool.false_eq_true,if_false,afterTake,Ext2.withData]

/-- The file system after a bit of group g was dropped, before the superblock
is counted. -/
def afterDrop (K : BitmapKind) (fs : Ext2) (g : ℕ) (data' : Store) : Ext2 :=
  { fs with volume := ⟨data',fs.volume.served⟩,
            bgdt := Function.update fs.bgdt g
              (K.setFreeCount (fs.bgdt g) ((K.freeCount (fs.bgdt g) + 1) % 2 ^ 16)) }

/-- A clear bit is not dropped. -/
theorem dropBit_clear (L : Layout K G fs) (hg : g < G) (hn : n < bits K fs)
    (hclear : marked K fs g n = false) : fs.dropBit K g n = (false,fs) := by
  have hw := L.whole
  have hplace : fs.bitmapByte K g (n / 8) = bitmapAt K fs g + n / 8 := L.bitmapByte hg (by omega)
  have hread : slice fs.volume.data (bitmapAt K fs g + n / 8) 1 =
      [fs.volume.data (bitmapAt K fs g + n / 8)] := rfl
  rw [marked,bitAt] at hclear
  simp only [Ext2.dropBit,L.infallible.read,hplace,hread,Nat.cast_one,ne_eq,not_true_eq_false,
    if_false,List.headD_cons,hclear,Bool.not_false,if_true]

/-- A set bit is dropped and counted, and every copy is updated. -/
theorem dropBit_marked (law : Lawful K) (L : Layout K G fs) (hg : g < G) (hn : n < bits K fs)
    (hset : marked K fs g n = true) :
    ∃ fs1 data', fs.dropBit K g n = (true,fs1) ∧
      fs1.updateBGDT g K.fieldOffset (leBytes 2 (K.freeCount (fs1.bgdt g))) =
        (true,afterDrop K fs g data') ∧
      Rewritten K G fs g n false ((K.freeCount (fs.bgdt g) + 1) % 2 ^ 16) data' := by
  have hw := L.whole
  have hplace : fs.bitmapByte K g (n / 8) = bitmapAt K fs g + n / 8 := L.bitmapByte hg (by omega)
  have hread : slice fs.volume.data (bitmapAt K fs g + n / 8) 1 =
      [fs.volume.data (bitmapAt K fs g + n / 8)] := rfl
  rw [marked,bitAt] at hset
  have hfz := frozen_update law fs g ((K.freeCount (fs.bgdt g) + 1) % 2 ^ 16)
    (patch fs.volume.data (bitmapAt K fs g + n / 8)
      [unmarkBit (fs.volume.data (bitmapAt K fs g + n / 8)) (n % 8)])
  obtain ⟨data',hrun,hdata'⟩ := update_rewritten (v := false)
    (c := unmarkBit (fs.volume.data (bitmapAt K fs g + n / 8)) (n % 8)) law L hg hn
    (Nat.mod_lt (K.freeCount (fs.bgdt g) + 1) (by decide)) (fun i => by
      rw [testBit_unmarkBit]
      by_cases hi : i = n % 8
      · simp [hi]
      · simp [hi,Ne.symm hi]) hfz rfl
  refine ⟨afterDrop K fs g (patch fs.volume.data (bitmapAt K fs g + n / 8)
      [unmarkBit (fs.volume.data (bitmapAt K fs g + n / 8)) (n % 8)]),data',?_,?_,hdata'⟩
  · simp only [Ext2.dropBit,L.infallible.read,hplace,hread,Nat.cast_one,ne_eq,not_true_eq_false,
      if_false,List.headD_cons,hset,Bool.not_true,Bool.false_eq_true,L.infallible.write,
      List.length_singleton,afterDrop]
  · simp only [afterDrop,Function.update_self,law.freeCount_set]
    exact hrun

end

/-- Sum of the groups' free counters. -/
def freeSum (K : BitmapKind) (G : ℕ) (fs : Ext2) : ℕ :=
  ∑ g ∈ Finset.range G, K.freeCount (fs.bgdt g)

/-- Every group's counter is the number of its clear bits, in memory and in
every copy on the volume. -/
structure Counted (K : BitmapKind) (G : ℕ) (fs : Ext2) : Prop where
  /-- Bitmaps and tables lie apart. -/
  layout : Layout K G fs
  /-- The counter in memory. -/
  counted : ∀ g < G, K.freeCount (fs.bgdt g) =
    clearCount fs.volume.data (bitmapAt K fs g) (bits K fs)
  /-- A descriptor past the last group offers nothing. -/
  phantom : ∀ g < fs.blockGroupCount, G ≤ g → K.freeCount (fs.bgdt g) = 0
  /-- The counter in the copies. -/
  copies : ∀ i < G, fs.hasSuperBlock i = true → ∀ g < G,
    word fs.volume.data 2 (tableAt fs i + descriptorSize * g + K.fieldOffset) =
      K.freeCount (fs.bgdt g)

section

variable {K : BitmapKind} {G : ℕ} {fs fs' : Ext2} {g n : ℕ} {v : Bool} {count : ℕ} {data' : Store}

/-- A rewritten bit with the right counter keeps the groups counted. -/
theorem Counted.rewritten (law : Lawful K) (C : Counted K G fs) (hg : g < G)
    (hr : Rewritten K G fs g n v count data') (hfz : frozen fs' = frozen fs)
    (hdata : fs'.volume.data = data')
    (hbgdt : fs'.bgdt = Function.update fs.bgdt g (K.setFreeCount (fs.bgdt g) count))
    (hcount : count = clearCount data' (bitmapAt K fs g) (bits K fs)) : Counted K G fs' := by
  have hbits := frozen_bits law hfz
  have hat := frozen_bitmapAt law hfz
  have hcnt : fs'.blockGroupCount = fs.blockGroupCount := frozen_eq (fun _ => rfl) hfz
  have htab : ∀ i, tableAt fs' i = tableAt fs i :=
    fun i => frozen_eq (f := (tableAt · i)) (fun _ => rfl) hfz
  have hsup : ∀ i, fs'.hasSuperBlock i = fs.hasSuperBlock i :=
    fun i => frozen_eq (f := (Ext2.hasSuperBlock · i)) (fun _ => rfl) hfz
  have hown : K.freeCount (fs'.bgdt g) = count := by
    rw [hbgdt,Function.update_self,law.freeCount_set]
  have hother : ∀ h, h ≠ g → fs'.bgdt h = fs.bgdt h := by
    intro h hne
    rw [hbgdt,Function.update_of_ne hne]
  have hgroups := C.layout.groups
  refine ⟨C.layout.of_frozen law hfz,?_,?_,?_⟩
  · intro h hh
    rw [hbits,hat,hdata]
    by_cases hhg : h = g
    · rw [hhg,hown,hcount]
    · rw [hother h hhg,C.counted h hh]
      apply clearCount_congr
      intro m hm
      rw [hr.bit h hh m hm,if_neg (fun e => hhg e.1),marked]
  · intro h hh hG
    rw [hother h (by omega)]
    exact C.phantom h (by omega) hG
  · intro i hi hs h hh
    rw [hsup] at hs
    rw [htab,hdata]
    by_cases hhg : h = g
    · rw [hhg,hown,hr.own i (by omega) hs]
    · rw [hother h hhg,hr.other i (by omega) hs h (by omega) hhg]
      exact C.copies i hi hs h hh

/-- The sum of the counters changes by what one group's counter does. -/
theorem freeSum_update (law : Lawful K) (fs' : Ext2) (hg : g < G)
    (hbgdt : fs'.bgdt = Function.update fs.bgdt g (K.setFreeCount (fs.bgdt g) count)) :
    freeSum K G fs' + K.freeCount (fs.bgdt g) = freeSum K G fs + count := by
  have hmem : g ∈ Finset.range G := Finset.mem_range.mpr hg
  rw [freeSum,freeSum,←Finset.sum_erase_add _ _ hmem,←Finset.sum_erase_add (Finset.range G) _ hmem]
  have hrest : ∑ h ∈ (Finset.range G).erase g, K.freeCount (fs'.bgdt h) =
      ∑ h ∈ (Finset.range G).erase g, K.freeCount (fs.bgdt h) := by
    apply Finset.sum_congr rfl
    intro h hh
    rw [hbgdt,Function.update_of_ne (Finset.ne_of_mem_erase hh)]
  rw [hrest,hbgdt,Function.update_self,law.freeCount_set]
  omega

/-- The sum of the counters fits 32 bits. -/
theorem Counted.freeSum_lt (C : Counted K G fs) : freeSum K G fs < 2 ^ 32 := by
  have hle : freeSum K G fs ≤ G * bits K fs := by
    rw [freeSum]
    calc ∑ g ∈ Finset.range G, K.freeCount (fs.bgdt g)
        ≤ ∑ _g ∈ Finset.range G, bits K fs := by
          apply Finset.sum_le_sum
          intro g hg
          rw [C.counted g (Finset.mem_range.mp hg)]
          exact clearCount_le _ _ _
      _ = G * bits K fs := by simp
  exact Nat.lt_of_le_of_lt hle C.layout.numbers

/-- What taking a bit does to a counted file system. -/
theorem Counted.take (law : Lawful K) (C : Counted K G fs) (hg : g < G) (hn : n < bits K fs)
    (hclear : marked K fs g n = false)
    (hr : Rewritten K G fs g n true ((K.freeCount (fs.bgdt g) + (2 ^ 16 - 1)) % 2 ^ 16) data') :
    Counted K G (afterTake K fs g data') ∧
    freeSum K G (afterTake K fs g data') + 1 = freeSum K G fs := by
  have hcount := C.counted g hg
  have hpos : 0 < clearCount fs.volume.data (bitmapAt K fs g) (bits K fs) :=
    clearCount_pos hn hclear
  have hlt := C.layout.counter
  have hle := clearCount_le fs.volume.data (bitmapAt K fs g) (bits K fs)
  have hset : clearCount data' (bitmapAt K fs g) (bits K fs) + 1 =
      clearCount fs.volume.data (bitmapAt K fs g) (bits K fs) := by
    apply clearCount_set hn hclear
    · rw [hr.bit g hg n hn,if_pos ⟨rfl,rfl⟩]
    · intro m hm hne
      rw [hr.bit g hg m hm,if_neg (fun e => hne e.2),marked]
  have hnew : (K.freeCount (fs.bgdt g) + (2 ^ 16 - 1)) % 2 ^ 16 + 1 = K.freeCount (fs.bgdt g) := by
    omega
  refine ⟨C.rewritten law hg hr (frozen_afterTake law fs g data') rfl rfl (by omega),?_⟩
  have hsum := freeSum_update (G := G) law (afterTake K fs g data') hg rfl
  omega

/-- Dropping a bit changes counters and contents only. -/
theorem frozen_afterDrop (law : Lawful K) (fs : Ext2) (g : ℕ) (data' : Store) :
    frozen (afterDrop K fs g data') = frozen fs :=
  frozen_update law fs g _ data'

/-- What dropping a bit does to a counted file system. -/
theorem Counted.drop (law : Lawful K) (C : Counted K G fs) (hg : g < G) (hn : n < bits K fs)
    (hset : marked K fs g n = true)
    (hr : Rewritten K G fs g n false ((K.freeCount (fs.bgdt g) + 1) % 2 ^ 16) data') :
    Counted K G (afterDrop K fs g data') ∧
    freeSum K G (afterDrop K fs g data') = freeSum K G fs + 1 := by
  have hcount := C.counted g hg
  have hlt := C.layout.counter
  have hle := clearCount_le data' (bitmapAt K fs g) (bits K fs)
  have hclear : clearCount fs.volume.data (bitmapAt K fs g) (bits K fs) + 1 =
      clearCount data' (bitmapAt K fs g) (bits K fs) := by
    apply clearCount_set hn
    · rw [hr.bit g hg n hn,if_pos ⟨rfl,rfl⟩]
    · exact hset
    · intro m hm hne
      rw [hr.bit g hg m hm,if_neg (fun e => hne e.2),marked]
  have hnew : (K.freeCount (fs.bgdt g) + 1) % 2 ^ 16 = K.freeCount (fs.bgdt g) + 1 := by omega
  refine ⟨C.rewritten law hg hr (frozen_afterDrop law fs g data') rfl rfl (by omega),?_⟩
  have hsum := freeSum_update (G := G) law (afterDrop K fs g data') hg rfl
  omega

end

end WootOs.Ext2Groups
