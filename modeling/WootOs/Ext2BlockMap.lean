import WootOs.Ext2Driver

/-!
# Looking up a file's blocks

An inode reaches the blocks of its file through twelve direct pointers and
three trees of pointer tables. The layout says which pointer belongs to a
logical block and that a missing table makes a hole. The driver's lookup
follows the layout below the end of its second range test, except that it
reads block zero as a table where one is missing; from there on it looks in
the wrong place.
-/

namespace WootOs.Ext2BlockMap

open ByteStore Ext2Driver

/-- Entry i of the pointer table in block p. -/
def entry (data : Store) (bs p i : ℕ) : ℕ := word data 4 (4 * i + bs * p)

/-- Follow table entries from a pointer; a null pointer ends in a hole. -/
def walk (data : Store) (bs : ℕ) : ℕ → List ℕ → ℕ
  | p,[] => p
  | p,i :: is => if p = 0 then 0 else walk data bs (entry data bs p i) is

/-- Follow table entries without looking at the pointers. -/
def chase (data : Store) (bs : ℕ) : ℕ → List ℕ → ℕ
  | p,[] => p
  | p,i :: is => chase data bs (entry data bs p i) is

/-- No table on the way is missing. -/
def Present (data : Store) (bs : ℕ) : ℕ → List ℕ → Prop
  | _,[] => True
  | p,i :: is => p ≠ 0 ∧ Present data bs (entry data bs p i) is

/-- Both stores have the same entries on the way, up to a missing table. -/
def SameWay (data data' : Store) (bs : ℕ) : ℕ → List ℕ → Prop
  | _,[] => True
  | p,i :: is => p = 0 ∨
    (entry data' bs p i = entry data bs p i ∧ SameWay data data' bs (entry data bs p i) is)

/-- Where the layout with B entries in a table keeps the pointer of logical
block n: the inode's slot and the entries to follow from it. -/
def layoutPath (B n : ℕ) : ℕ × List ℕ :=
  if n < 12 then (n,[])
  else if n < 12 + B then (12,[n - 12])
  else if n < 12 + B + B ^ 2 then (13,[(n - (12 + B)) / B,(n - (12 + B)) % B])
  else (14,[(n - (12 + B + B ^ 2)) / B ^ 2,(n - (12 + B + B ^ 2)) / B % B,
    (n - (12 + B + B ^ 2)) % B])

/-- The pointer that the layout assigns to logical block n. -/
def layoutBlock (fs : Ext2) (inode : FSINode) (n : ℕ) : ℕ :=
  walk fs.volume.data fs.blockSize (inode.iBlock (layoutPath (fs.blockSize / 4) n).1)
    (layoutPath (fs.blockSize / 4) n).2

/-- Every pointer table on the way to logical block n exists. -/
def TablesPresent (fs : Ext2) (inode : FSINode) (n : ℕ) : Prop :=
  Present fs.volume.data fs.blockSize (inode.iBlock (layoutPath (fs.blockSize / 4) n).1)
    (layoutPath (fs.blockSize / 4) n).2

/-- Contents that agree with the volume's on the way to logical block n. -/
def SameTables (fs : Ext2) (inode : FSINode) (n : ℕ) (data' : Store) : Prop :=
  SameWay fs.volume.data data' fs.blockSize (inode.iBlock (layoutPath (fs.blockSize / 4) n).1)
    (layoutPath (fs.blockSize / 4) n).2

/-- Tables of B entries in blocks of 1024 shifted by k, with range bounds that
fit 32 bits. -/
structure TableBounds (k B : ℕ) : Prop where
  /-- Entries in a table. -/
  entries : B = 256 * 2 ^ k
  /-- The double range fits. -/
  square : B ^ 2 < 2 ^ 32
  /-- The triple range fits. -/
  cube : 12 + B ^ 3 < 2 ^ 32

/-- A file system with such tables on a volume that serves every access. -/
structure Mounted (k B : ℕ) (fs : Ext2) : Prop extends TableBounds k B where
  /-- The block size. -/
  size : fs.blockSize = 1024 * 2 ^ k
  /-- Every access succeeds. -/
  infallible : fs.volume.Infallible

/-- Where the driver looks for the pointer of logical block n. -/
def driverPath (B n : ℕ) : ℕ × List ℕ :=
  if n < 12 then (n,[])
  else if n < 12 + B then (12,[n - 12])
  else if n < 12 + B ^ 2 then (13,[(n - (12 + B)) / B,(n - (12 + B)) % B])
  else (14,[(n - (12 + B ^ 2)) / B ^ 2,(n - (12 + B ^ 2)) % B ^ 2 / B,(n - (12 + B ^ 2)) / B])

section

variable {k B n : ℕ} {fs : Ext2} {inode : FSINode} {data data' : Store} {bs : ℕ}

/-- A table has at least 256 entries. -/
theorem TableBounds.large (h : TableBounds k B) : 256 ≤ B := by
  rw [h.entries]
  exact Nat.le_mul_of_pos_right 256 (Nat.two_pow_pos k)

/-- The double range is much longer than the single one, and so on. -/
theorem TableBounds.growth (h : TableBounds k B) : B * 256 ≤ B ^ 2 ∧ B ^ 2 * 256 ≤ B ^ 3 :=
  ⟨by rw [pow_two]; exact Nat.mul_le_mul_left B h.large,
    by rw [pow_succ B 2]; exact Nat.mul_le_mul_left _ h.large⟩

/-- A block holds B pointers of four bytes. -/
theorem Mounted.blockSize (h : Mounted k B fs) : fs.blockSize = 4 * B := by
  rw [h.size,h.entries]
  ring

/-- On a volume that serves every access the driver chases its own path. -/
theorem getINodeBlock_eq_chase (h : Mounted k B fs) :
    fs.getINodeBlock inode n = if n < 12 + B ^ 3 ∨ n < 12 + B ^ 2 then
      chase fs.volume.data fs.blockSize (inode.iBlock (driverPath B n).1) (driverPath B n).2
    else 0 := by
  have hB := h.large
  have hsq := h.square
  have hcube := h.cube
  obtain ⟨hB2,hB3⟩ := h.growth
  have hdiv : fs.blockSize / 4 = B := by rw [h.blockSize]; omega
  have e1 : B * B % 2 ^ 32 = B ^ 2 := by rw [←pow_two,Nat.mod_eq_of_lt hsq]
  have e2 : B ^ 2 * B % 2 ^ 32 = B ^ 3 := by
    rw [show B ^ 2 * B = B ^ 3 by ring,Nat.mod_eq_of_lt (by omega)]
  have e3 : (12 + B) % 2 ^ 32 = 12 + B := Nat.mod_eq_of_lt (by omega)
  have e4 : (12 + B ^ 2) % 2 ^ 32 = 12 + B ^ 2 := Nat.mod_eq_of_lt (by omega)
  have e5 : (12 + B ^ 3) % 2 ^ 32 = 12 + B ^ 3 := Nat.mod_eq_of_lt (by omega)
  have hpos : ¬((4 : ℕ) : ℤ) < 0 := by decide
  simp only [Ext2.getINodeBlock,driverPath,hdiv,e1,e2,e3,e4,e5,h.infallible.readWord,hpos,if_false]
  by_cases h1 : n < 12
  · simp only [h1,if_true,chase]
    rw [if_pos (by omega)]
  · by_cases h2 : n < 12 + B
    · simp only [h1,h2,if_true,if_false,chase,entry]
      rw [if_pos (by omega)]
    · by_cases h3 : n < 12 + B ^ 2
      · simp only [h1,h2,h3,if_true,if_false,or_true,chase,entry]
      · by_cases h4 : n < 12 + B ^ 3
        · simp only [h1,h2,h3,h4,if_true,if_false,true_or,chase,entry]
        · simp only [h1,h2,h3,h4,if_false,or_self]

/-- With all tables present nothing is a hole before the last entry. -/
theorem walk_eq_chase {is : List ℕ} : ∀ {p : ℕ}, Present data bs p is →
    walk data bs p is = chase data bs p is := by
  induction is with
  | nil => intro p _; rfl
  | cons i is ih =>
    intro p hp
    rw [walk,if_neg hp.1,ih hp.2,chase]

/-- A missing table makes a hole. -/
theorem walk_eq_zero {is : List ℕ} : ∀ {p : ℕ}, ¬Present data bs p is → walk data bs p is = 0 := by
  induction is with
  | nil => intro p hp; exact absurd trivial hp
  | cons i is ih =>
    intro p hp
    rw [walk]
    split
    · rfl
    · next hne => exact ih fun hrest => hp ⟨hne,hrest⟩

/-- Entries on a common way are the same, so are holes and pointers. -/
theorem sameWay_present {is : List ℕ} : ∀ {p : ℕ}, SameWay data data' bs p is →
    (Present data' bs p is ↔ Present data bs p is) := by
  induction is with
  | nil => intro p _; exact Iff.rfl
  | cons i is ih =>
    intro p hp
    rcases hp with rfl | ⟨he,hrest⟩
    · simp only [Present,ne_eq,not_true_eq_false,false_and]
    · simp only [Present,he,ih hrest]

/-- Below the end of the second range test the driver looks where the layout
says. -/
theorem driverPath_eq_layoutPath (hn : n < 12 + B ^ 2) : driverPath B n = layoutPath B n := by
  have hn' : n < 12 + B + B ^ 2 := by omega
  simp only [driverPath,layoutPath,hn,hn',if_true]

/-- Where the driver agrees with the layout. -/
theorem getINodeBlock_eq_layout (h : Mounted k B fs) (hn : n < 12 + B ^ 2)
    (hp : TablesPresent fs inode n) : fs.getINodeBlock inode n = layoutBlock fs inode n := by
  have hdiv : fs.blockSize / 4 = B := by rw [h.blockSize]; omega
  rw [getINodeBlock_eq_chase h,if_pos (.inr hn),layoutBlock,walk_eq_chase hp,
    driverPath_eq_layoutPath hn,hdiv]

/-- Store a pointer in entry i of the table in block p. -/
def plant (data : Store) (bs p i w : ℕ) : Store := patch data (4 * i + bs * p) (leBytes 4 w)

/-- A stored pointer is read back. -/
theorem entry_plant_same {p i w : ℕ} (hw : w < 2 ^ 32) :
    entry (plant data bs p i w) bs p i = w :=
  word_patch_same (by simpa using hw)

/-- Other entries keep their pointers; tables are B entries apart. -/
theorem entry_plant_other {p i w q j : ℕ} (h : i + B * p ≠ j + B * q) :
    entry (plant data (4 * B) p i w) (4 * B) q j = entry data (4 * B) q j := by
  have hp : 4 * i + 4 * B * p = 4 * (i + B * p) := by ring
  have hq : 4 * j + 4 * B * q = 4 * (j + B * q) := by ring
  rw [entry,plant,entry]
  apply word_patch_disjoint
  rw [hp,hq,leBytes_length]
  omega

/-- Nothing is stored in an empty volume. -/
theorem entry_zero (p i : ℕ) : entry (fun _ => 0) bs p i = 0 := by
  simp [entry,word,slice,leValue_cons,leValue_nil,List.range_succ]

/-- A volume full of ones has no null pointer. -/
theorem entry_ones (bs p i : ℕ) : entry (fun _ => 1) bs p i ≠ 0 := by
  simp [entry,word,slice,leValue_cons,leValue_nil,List.range_succ]

/-- A file system with the given contents and nothing else of interest. -/
def plainFs (k : ℕ) (data : Store) : Ext2 :=
  Ext2.new ⟨data,fun _ n => n⟩ ⟨0,0,0,0,k,0,0,0,0,0,0⟩ fun _ => ⟨0,0,0,0,0⟩

/-- A file with a single pointer in its inode. -/
def onePointer (slot p : ℕ) : FSINode where
  iMode := 0
  iSize := 0
  iAtime := 0
  iMtime := 0
  iBlocks := 0
  iBlock := fun i => if i = slot then p else 0
  iDirAcl := 0
  dirty := false

theorem mounted_plainFs (h : TableBounds k B) (data : Store) : Mounted k B (plainFs k data) := by
  refine ⟨h,?_,fun _ _ => rfl⟩
  have hgrow := h.growth
  have hsq := h.square
  have he := h.entries
  show (1024 * 2 ^ k) % 2 ^ 32 = 1024 * 2 ^ k
  exact Nat.mod_eq_of_lt (by nlinarith)

/-- The layout in such a file system. -/
theorem plainFs_layout (h : TableBounds k B) (data : Store) {slot p : ℕ} {is : List ℕ}
    (hpath : layoutPath B n = (slot,is)) :
    (TablesPresent (plainFs k data) (onePointer slot p) n ↔ Present data (4 * B) p is) ∧
    layoutBlock (plainFs k data) (onePointer slot p) n = walk data (4 * B) p is := by
  have hbs := (mounted_plainFs h data).blockSize
  have hdiv : 4 * B / 4 = B := by omega
  simp only [TablesPresent,layoutBlock,hbs,hdiv,hpath,onePointer,if_true]
  exact ⟨Iff.rfl,rfl⟩

/-- The driver's lookup in such a file system. -/
theorem plainFs_getINodeBlock (h : TableBounds k B) {slot p : ℕ} (hl : 12 + B ^ 2 ≤ n)
    (hu : n < 12 + B ^ 3) :
    (plainFs k data).getINodeBlock (onePointer slot p) n =
      chase data (4 * B) (if 14 = slot then p else 0) [(n - (12 + B ^ 2)) / B ^ 2,
        (n - (12 + B ^ 2)) % B ^ 2 / B,(n - (12 + B ^ 2)) / B] := by
  have hm := mounted_plainFs h data
  have hB := h.growth.1
  rw [getINodeBlock_eq_chase hm,if_pos (.inl hu),driverPath,if_neg (by omega),if_neg (by omega),
    if_neg (by omega),hm.blockSize]
  rfl

/-- The end of the double range, which the driver takes for the triple one. -/
theorem double_end_fails (h : TableBounds k B) (hl : 12 + B ^ 2 ≤ n) (hu : n < 12 + B + B ^ 2) :
    ∃ fs inode, Mounted k B fs ∧ TablesPresent fs inode n ∧
      fs.getINodeBlock inode n ≠ layoutBlock fs inode n := by
  have hB := h.large
  obtain ⟨hB2,hB3⟩ := h.growth
  have hpath : layoutPath B n = (13,[(n - (12 + B)) / B,(n - (12 + B)) % B]) := by
    rw [layoutPath,if_neg (by omega),if_neg (by omega),if_pos hu]
  have hi : (n - (12 + B)) / B < B := by rw [Nat.div_lt_iff_lt_mul (by omega),←pow_two]; omega
  generalize (n - (12 + B)) / B = i at hpath hi
  generalize (n - (12 + B)) % B = j at hpath
  -- one table in block 1 that leads to one in block 2; block 0 stays empty
  obtain ⟨data,hfirst,hlast,hhole⟩ : ∃ data, entry data (4 * B) 1 i = 2 ∧
      entry data (4 * B) 2 j = 7 ∧ entry data (4 * B) 0 0 = 0 := by
    refine ⟨plant (plant (fun _ => 0) (4 * B) 1 i 2) (4 * B) 2 j 7,?_,?_,?_⟩
    · rw [entry_plant_other (by omega),entry_plant_same (by decide)]
    · exact entry_plant_same (by decide)
    · rw [entry_plant_other (by omega),entry_plant_other (by omega),entry_zero]
  obtain ⟨htables,hlayout⟩ := plainFs_layout (p := 1) h data hpath
  refine ⟨plainFs k data,onePointer 13 1,mounted_plainFs h data,?_,?_⟩
  · rw [htables]
    exact ⟨by decide,by rw [hfirst]; decide,trivial⟩
  · have hsmall : n - (12 + B ^ 2) < B := by omega
    rw [hlayout,plainFs_getINodeBlock h hl (by omega),Nat.mod_eq_of_lt (by omega),
      Nat.div_eq_of_lt (by omega),Nat.div_eq_of_lt hsmall,if_neg (by decide)]
    simp only [chase,walk,hfirst,hlast,hhole]
    decide

/-- Three tables in blocks B, B + 1 and B + 2 and nothing else: no stray index
below B * B finds anything from block zero. -/
theorem exists_tree {i j l : ℕ} (hi : i < B) (hj : j < B) (hl : l < B) (hB : B + 2 < 2 ^ 32) :
    ∃ data, entry data (4 * B) B i = B + 1 ∧ entry data (4 * B) (B + 1) j = B + 2 ∧
      entry data (4 * B) (B + 2) l = 7 ∧ (∀ i' < B, i' ≠ i → entry data (4 * B) B i' = 0) ∧
      (∀ i' < B * B, entry data (4 * B) 0 i' = 0) ∧
      (∀ j' < B, j' ≠ j → entry data (4 * B) (B + 1) j' = 0) := by
  have m1 : B * (B + 1) = B * B + B := by ring
  have m2 : B * (B + 2) = B * B + 2 * B := by ring
  refine ⟨plant (plant (plant (fun _ => 0) (4 * B) B i (B + 1)) (4 * B) (B + 1) j (B + 2))
    (4 * B) (B + 2) l 7,?_,?_,?_,?_,?_,?_⟩
  · rw [entry_plant_other (by omega),entry_plant_other (by omega),entry_plant_same (by omega)]
  · rw [entry_plant_other (by omega),entry_plant_same (by omega)]
  · exact entry_plant_same (by decide)
  · intro i' hi' hne
    rw [entry_plant_other (by omega),entry_plant_other (by omega),entry_plant_other (by omega),
      entry_zero]
  · intro i' hi'
    rw [entry_plant_other (by omega),entry_plant_other (by omega),entry_plant_other (by omega),
      entry_zero]
  · intro j' hj' hne
    rw [entry_plant_other (by omega),entry_plant_other (by omega),entry_plant_other (by omega),
      entry_zero]

/-- The triple range: the driver's second index is one too high. -/
theorem triple_fails (h : TableBounds k B) (hl : 12 + B + B ^ 2 ≤ n)
    (hu : n < 12 + B + B ^ 2 + B ^ 3) :
    ∃ fs inode, Mounted k B fs ∧ TablesPresent fs inode n ∧
      fs.getINodeBlock inode n ≠ layoutBlock fs inode n := by
  have hB := h.large
  obtain ⟨hB2,hB3⟩ := h.growth
  have hsq := h.square
  have e2 : B ^ 2 = B * B := pow_two B
  obtain ⟨f,rfl⟩ : ∃ f, n = 12 + B + B ^ 2 + f := ⟨n - (12 + B + B ^ 2),by omega⟩
  have hpath : layoutPath B (12 + B + B ^ 2 + f) = (14,[f / B ^ 2,f / B % B,f % B]) := by
    rw [layoutPath,if_neg (by omega),if_neg (by omega),if_neg (by omega),Nat.add_sub_cancel_left]
  have hi : f / B ^ 2 < B := by
    rw [Nat.div_lt_iff_lt_mul (by omega),show B * B ^ 2 = B ^ 3 by ring]; omega
  have hj : f / B % B < B := Nat.mod_lt _ (by omega)
  have hk : f % B < B := Nat.mod_lt _ (by omega)
  obtain ⟨data,hfirst,hsecond,hthird,hmiss,hlow,hwrong⟩ := exists_tree hi hj hk (by omega)
  obtain ⟨htables,hlayout⟩ := plainFs_layout (p := B) h data hpath
  refine ⟨plainFs k data,onePointer 14 B,mounted_plainFs h data,?_,?_⟩
  · rw [htables]
    exact ⟨by omega,by rw [hfirst]; omega,by rw [hfirst,hsecond]; omega,trivial⟩
  · have hseven : walk data (4 * B) B [f / B ^ 2,f / B % B,f % B] = 7 := by
      simp only [walk,hfirst,hsecond,hthird]
      rw [if_neg (by omega),if_neg (by omega),if_neg (by omega)]
    rw [hlayout,hseven]
    by_cases hin : 12 + B + B ^ 2 + f < 12 + B ^ 3
    · have he : 12 + B + B ^ 2 + f - (12 + B ^ 2) = f + B := by omega
      have hsplit : (f + B) % B ^ 2 / B = (f / B + 1) % B := by
        rw [e2,Nat.mod_mul_right_div_self,Nat.add_div_right _ (by omega)]
      have hdiff : (f / B + 1) % B ≠ f / B % B := by
        intro heq
        have := Nat.sub_mod_eq_zero_of_mod_eq heq
        rw [Nat.add_sub_cancel_left,Nat.mod_eq_of_lt (by omega)] at this
        omega
      have hmod : (f / B + 1) % B < B := Nat.mod_lt _ (by omega)
      have htop : (f + B) / B ^ 2 < B := by
        rw [Nat.div_lt_iff_lt_mul (by omega),show B * B ^ 2 = B ^ 3 by ring]; omega
      have hstray : (f + B) / B < B * B := by
        rw [Nat.div_lt_iff_lt_mul (by omega),show B * B * B = B ^ 3 by ring]; omega
      have hnext : entry data (4 * B) (entry data (4 * B) B ((f + B) / B ^ 2))
          ((f / B + 1) % B) = 0 := by
        by_cases hsame : (f + B) / B ^ 2 = f / B ^ 2
        · rw [hsame,hfirst,hwrong _ hmod hdiff]
        · rw [hmiss _ htop hsame,hlow _ (by omega)]
      rw [plainFs_getINodeBlock h (by omega) hin,he,hsplit,if_pos rfl]
      simp only [chase,hnext,hlow _ hstray]
      decide
    · rw [getINodeBlock_eq_chase (mounted_plainFs h data),if_neg (by omega)]
      decide

/-- From a null pointer, one or two stray lookups in a volume of ones find a
pointer. -/
theorem chase_ones (is : List ℕ) : ∀ p i, chase (fun _ => 1) bs p (i :: is) ≠ 0 := by
  induction is with
  | nil => intro p i; exact entry_ones bs p i
  | cons j is ih => intro p i; exact ih _ j

/-- A way of at most two tables one of which is missing: contents that agree
on the way and end at a pointer nevertheless. -/
theorem absent_way {p : ℕ} {is : List ℕ} (hlen : is.length ≤ 2) (hB : ∀ i ∈ is, i < B)
    (hp : ¬Present data (4 * B) p is) :
    ∃ data', SameWay data data' (4 * B) p is ∧ chase data' (4 * B) p is ≠ 0 := by
  by_cases hzero : p = 0
  · cases is with
    | nil => exact absurd trivial hp
    | cons i is => exact ⟨fun _ => 1,.inl hzero,chase_ones is p i⟩
  · match is,hlen with
    | [],_ => exact absurd trivial hp
    | [i],_ => exact absurd ⟨hzero,trivial⟩ hp
    | [i,j],_ =>
      have hnull : entry data (4 * B) p i = 0 := by
        by_contra hne
        exact hp ⟨hzero,hne,trivial⟩
      have hjB : j < B := hB j (by simp)
      have hfar : B * 1 ≤ B * p := Nat.mul_le_mul_left B (by omega)
      -- keep the null entry that the way ends at, ones everywhere else
      refine ⟨plant (fun _ => 1) (4 * B) p i 0,.inr ⟨?_,.inl hnull⟩,?_⟩
      · rw [entry_plant_same (by decide),hnull]
      · simp only [chase]
        rw [entry_plant_same (by decide),entry_plant_other (by omega)]
        exact entry_ones _ 0 j

/-- Where a table is missing, other contents of block zero mislead the driver. -/
theorem absent_table_fails (h : Mounted k B fs) (hn : n < 12 + B ^ 2)
    (hp : ¬TablesPresent fs inode n) : ∃ data', SameTables fs inode n data' ∧
      (fs.withData data').getINodeBlock inode n ≠ layoutBlock (fs.withData data') inode n := by
  have hm : ∀ data', Mounted k B (fs.withData data') := fun data' =>
    ⟨h.toTableBounds,h.size,h.infallible⟩
  have hbs := h.blockSize
  have hdiv : 4 * B / 4 = B := by omega
  have hB := h.large
  simp only [TablesPresent,hbs,hdiv] at hp
  obtain ⟨data',hsame,hne⟩ := absent_way (B := B) (by
    simp only [layoutPath]
    split_ifs <;> simp; omega) (by
    simp only [layoutPath]
    split_ifs with h1 h2 h3
    · simp
    · intro i hi
      simp only [List.mem_singleton] at hi
      omega
    · intro i hi
      simp only [List.mem_cons,List.not_mem_nil,or_false] at hi
      rcases hi with rfl | rfl
      · rw [Nat.div_lt_iff_lt_mul (by omega),←pow_two]; omega
      · exact Nat.mod_lt _ (by omega)
    · omega) hp
  refine ⟨data',by simpa only [SameTables,hbs,hdiv] using hsame,?_⟩
  rw [getINodeBlock_eq_chase (hm data'),if_pos (.inr hn),driverPath_eq_layoutPath hn,
    (hm data').blockSize,layoutBlock,(hm data').blockSize,hdiv]
  have hhole : walk data' (4 * B) _ _ = 0 :=
    walk_eq_zero (fun hpres => hp ((sameWay_present hsame).mp hpres))
  exact fun he => hne (he.trans hhole)

end

/-- The lookup returns the pointer of the layout below the end of the second
range test when no table on the way is missing, and only then: above it some
contents with all tables present mislead it, and where a table is missing
some contents that agree on the way do. -/
theorem getINodeBlock_layout_iff {k B n : ℕ} (h : TableBounds k B)
    (hn : n < 12 + B + B ^ 2 + B ^ 3) :
    ((∀ fs inode, Mounted k B fs → TablesPresent fs inode n →
        fs.getINodeBlock inode n = layoutBlock fs inode n) ↔ n < 12 + B ^ 2) ∧
    ∀ fs inode, Mounted k B fs → n < 12 + B ^ 2 →
      ((∀ data', SameTables fs inode n data' →
        (fs.withData data').getINodeBlock inode n = layoutBlock (fs.withData data') inode n) ↔
        TablesPresent fs inode n) := by
  refine ⟨⟨?_,fun hlt fs inode hm hp => getINodeBlock_eq_layout hm hlt hp⟩,?_⟩
  · intro hall
    by_contra hge
    obtain ⟨fs,inode,hm,hp,hne⟩ : ∃ fs inode, Mounted k B fs ∧ TablesPresent fs inode n ∧
        fs.getINodeBlock inode n ≠ layoutBlock fs inode n := by
      by_cases hmid : n < 12 + B + B ^ 2
      · exact double_end_fails h (by omega) hmid
      · exact triple_fails h (by omega) hn
    exact hne (hall fs inode hm hp)
  · intro fs inode hm hlt
    constructor
    · intro hall
      by_contra hp
      obtain ⟨data',hsame,hne⟩ := absent_table_fails hm hlt hp
      exact hne (hall data' hsame)
    · intro hp data' hsame
      have hm' : Mounted k B (fs.withData data') := ⟨h,hm.size,hm.infallible⟩
      exact getINodeBlock_eq_layout hm' hlt ((sameWay_present hsame).mpr hp)

/-- A block of the single range with 1 KiB blocks is looked up correctly
through its table. -/
theorem getINodeBlock_layout_iff_single :
    TablesPresent (plainFs 0 fun _ => 1) (onePointer 12 5) 12 ∧
      (plainFs 0 fun _ => 1).getINodeBlock (onePointer 12 5) 12 =
        layoutBlock (plainFs 0 fun _ => 1) (onePointer 12 5) 12 := by
  have hb : TableBounds 0 256 := ⟨by decide,by decide,by decide⟩
  have hp : TablesPresent (plainFs 0 fun _ => 1) (onePointer 12 5) 12 :=
    ⟨by decide,trivial⟩
  exact ⟨hp,(getINodeBlock_layout_iff (n := 12) hb (by decide)).1.mpr (by decide) _ _
    (mounted_plainFs hb _) hp⟩

/-- A sparse file without a single indirect table, on a volume whose boot block
is not empty: block 12 is a hole, but the driver returns bytes of the boot
block. -/
theorem hole_reads_boot_block :
    Mounted 0 256 (plainFs 0 fun _ => 1) ∧
    layoutBlock (plainFs 0 fun _ => 1) (onePointer 0 100) 12 = 0 ∧
    (plainFs 0 fun _ => 1).getINodeBlock (onePointer 0 100) 12 = 0x01010101 := by
  refine ⟨mounted_plainFs ⟨by decide,by decide,by decide⟩ _,?_,?_⟩
  · decide
  · decide

end WootOs.Ext2BlockMap
