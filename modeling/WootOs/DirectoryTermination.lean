import WootOs.Halting
import WootOs.Ext2Names

/-!
# When the directory functions terminate

The loops over a directory go from record to record by a length that is read
from the volume. Remove and the search for room in Create refuse a length that
is too short. ReadDir and Lookup do not: they come back to a record of length
zero that they skip.
-/

namespace WootOs.DirectoryTermination

open ByteStore MachineInt Ext2Driver Ext2Directory Ext2Names Halting

/-- Enough fuel gives a result. -/
def Terminates {α : Type*} (f : ℕ → Option α) : Prop := ∃ fuel,(f fuel).isSome

/-- An inode without the fields that reading a file changes. -/
def strip (inode : FSINode) : FSINode := { inode with iAtime := 0, dirty := false }

/-- The record that can be read at a position of a file. -/
def recordAt (fs : Ext2) (inode : FSINode) (pos : ℕ) : Option Record :=
  let r := fs.read 0 inode pos headerSize
  if r.1 = headerSize then some (Record.ofBytes r.2.1) else none

/-- The name of a record can be read together with its inode, and differs from
the given one. -/
def OtherName (fs : Ext2) (inode : FSINode) (name : List UInt8) (pos : ℕ) (de : Record) : Prop :=
  (fs.read 0 inode (pos + headerSize) de.nameLen).1 = de.nameLen ∧
    (fs.readINode de.inode).isSome ∧
    cString (fs.read 0 inode (pos + headerSize) de.nameLen).2.1 ≠ name

instance (fs : Ext2) (inode : FSINode) (name : List UInt8) (pos : ℕ) (de : Record) :
    Decidable (OtherName fs inode name pos de) := by
  unfold OtherName
  infer_instance

/-- A position of a directory at which there may be a record. -/
def InDirectory (fs : Ext2) (inode : FSINode) (pos : ℕ) : Prop :=
  inode.iMode &&& ext2SIfDir ≠ 0 ∧ pos < fs.getSize inode

instance (fs : Ext2) (inode : FSINode) (pos : ℕ) : Decidable (InDirectory fs inode pos) := by
  unfold InDirectory
  infer_instance

/-- Where ReadDir goes on: past a record that is not used. -/
def nextSkipped (fs : Ext2) (inode : FSINode) (pos : ℕ) : Option ℕ :=
  if ¬InDirectory fs inode pos then none else
  match recordAt fs inode pos with
  | none => none
  | some de => if de.inode = 0 ∨ de.nameLen = 0 then some (pos + de.recLen) else none

/-- Where Lookup goes on: past a record that is not used or has another name. -/
def nextOther (fs : Ext2) (name : List UInt8) (inode : FSINode) (pos : ℕ) : Option ℕ :=
  if ¬InDirectory fs inode pos then none else
  match recordAt fs inode pos with
  | none => none
  | some de =>
    if de.inode = 0 ∨ de.nameLen = 0 ∨ OtherName fs inode name pos de then some (pos + de.recLen)
    else none

section Reading

variable {fs : Ext2} {inode inode' : FSINode} {t t' n pos : ℕ}

/-- What is read does not depend on the time of the last access, and nothing
else changes. -/
theorem readLoop_strip {rounds left : ℕ} {buf : List UInt8} (h : strip inode = strip inode') :
    (fs.readLoop t n rounds inode pos left buf).1 =
      (fs.readLoop t' n rounds inode' pos left buf).1 ∧
    (fs.readLoop t n rounds inode pos left buf).2.1 =
      (fs.readLoop t' n rounds inode' pos left buf).2.1 ∧
    strip (fs.readLoop t n rounds inode pos left buf).2.2 = strip inode := by
  induction rounds generalizing inode inode' pos left buf with
  | zero => exact ⟨rfl,rfl,rfl⟩
  | succ rounds ih =>
    have hblock : ∀ b,fs.getINodeBlock inode b = fs.getINodeBlock inode' b := fun b => by
      show fs.getINodeBlock (strip inode) b = fs.getINodeBlock (strip inode') b
      rw [h]
    simp only [Ext2.readLoop,hblock]
    by_cases hleft : left = 0
    · simp only [if_pos hleft,and_self]
    · rw [if_neg hleft,if_neg hleft]
      by_cases hnull : fs.getINodeBlock inode' (pos / fs.blockSize % 2 ^ 32) = 0
      · simp only [if_pos hnull,and_self]
      · rw [if_neg hnull,if_neg hnull]
        generalize fs.volume.read _ _ = r
        by_cases herr : r.1 < 0
        · simp only [if_pos herr,and_self]
        · rw [if_neg herr,if_neg herr]
          by_cases hshort : r.1 ≠ (min left (fs.blockSize - pos % fs.blockSize) : ℕ)
          · rw [if_pos hshort,if_pos hshort]
            exact ⟨rfl,rfl,rfl⟩
          · rw [if_neg hshort,if_neg hshort]
            exact ih (show strip (inode.setAccessTime t) = strip (inode'.setAccessTime t') from h)

/-- The size is not among what reading changes. -/
theorem getSize_strip (h : strip inode = strip inode') : fs.getSize inode = fs.getSize inode' := by
  show fs.getSize (strip inode) = fs.getSize (strip inode')
  rw [h]

/-- Reads of one file at different times return the same. -/
theorem read_strip (h : strip inode = strip inode') :
    (fs.read t inode pos n).1 = (fs.read t' inode' pos n).1 ∧
    (fs.read t inode pos n).2.1 = (fs.read t' inode' pos n).2.1 ∧
    strip (fs.read t inode pos n).2.2 = strip inode := by
  simp only [Ext2.read,getSize_strip h]
  by_cases hzero : (if fs.getSize inode' < pos + n then fs.getSize inode' - pos else n) = 0
  · simp only [if_pos hzero,and_self]
  · rw [if_neg hzero,if_neg hzero]
    exact readLoop_strip h

/-- Past the end there is nothing to read. -/
theorem read_past_end (h : fs.getSize inode ≤ pos) (hn : 0 < n) :
    (fs.read t inode pos n).1 = 0 := by
  have hclip : fs.getSize inode < pos + n := by omega
  have hzero : fs.getSize inode - pos = 0 := by omega
  simp only [Ext2.read,if_pos hclip,if_pos hzero]

/-- The record at a position is what any read of it finds. -/
theorem recordAt_eq (h : strip inode = strip inode') :
    recordAt fs inode' pos = if (fs.read t inode pos headerSize).1 = headerSize then
      some (Record.ofBytes (fs.read t inode pos headerSize).2.1) else none := by
  obtain ⟨hcount,hbytes,-⟩ := @read_strip fs inode' inode 0 t headerSize pos h.symm
  simp only [recordAt,hcount,hbytes]

/-- So is the comparison of its name. -/
theorem otherName_iff (h : strip inode = strip inode') {name : List UInt8} {de : Record} :
    OtherName fs inode' name pos de ↔
      (fs.read t inode (pos + headerSize) de.nameLen).1 = de.nameLen ∧
      (fs.readINode de.inode).isSome ∧
      cString (fs.read t inode (pos + headerSize) de.nameLen).2.1 ≠ name := by
  obtain ⟨hcount,hbytes,-⟩ :=
    @read_strip fs inode' inode 0 t de.nameLen (pos + headerSize) h.symm
  rw [OtherName,hcount,hbytes]

end Reading

section Directories

variable {fs : Ext2} {inode inode' : FSINode} {t pos q : ℕ} {name : List UInt8}

/-- ReadDir's steps are among those of Lookup. -/
theorem nextOther_of_nextSkipped (h : nextSkipped fs inode pos = some q) :
    nextOther fs name inode pos = some q := by
  rw [nextSkipped] at h
  rw [nextOther]
  split at h
  · cases h
  · rename_i hin
    rw [if_neg hin]
    cases hrec : recordAt fs inode pos with
    | none => simp [hrec] at h
    | some de =>
      simp only [hrec] at h ⊢
      split at h
      · rename_i hskip
        rw [if_pos (by tauto)]
        exact h
      · cases h

/-- A call of ReadDir skips some records and stops at one from which Lookup
stops too, or goes on to the position that is returned. -/
theorem readDirLoop_spec {fuel : ℕ} {e : Option DirectoryEntry} {inode₁ : FSINode}
    (hdir : inode'.iMode &&& ext2SIfDir ≠ 0) (h : strip inode = strip inode')
    (hrun : readDirLoop fs t (fs.getSize inode') fuel inode pos = some (e,q,inode₁)) :
    strip inode₁ = strip inode' ∧ ∃ p,Reaches (nextSkipped fs inode') pos p ∧
      nextSkipped fs inode' p = none ∧ ∀ name,nextOther fs name inode' p =
        e.elim none fun de => if de.name = name then none else some q := by
  induction fuel generalizing inode pos with
  | zero => cases hrun
  | succ fuel ih =>
    rw [readDirLoop] at hrun
    by_cases hend : fs.getSize inode' ≤ pos
    · have hout : ¬InDirectory fs inode' pos := fun hin => by
        have hlt := hin.2
        omega
      rw [if_pos hend] at hrun
      cases hrun
      exact ⟨h,q,.refl,by rw [nextSkipped,if_pos hout],fun name => by
        rw [nextOther,if_pos hout]; rfl⟩
    · have hin : ¬¬InDirectory fs inode' pos := not_not.mpr ⟨hdir,by omega⟩
      have hread := @read_strip fs inode inode' t t headerSize pos h
      have hrec := @recordAt_eq fs inode inode' t pos h
      rw [if_neg hend] at hrun
      simp only at hrun
      by_cases hcount : (fs.read t inode pos headerSize).1 = headerSize
      · rw [if_pos hcount] at hrec
        rw [if_neg (not_not.mpr hcount)] at hrun
        generalize hde : Record.ofBytes (fs.read t inode pos headerSize).2.1 = de at hrec
        have hheader : Header.ofBytes (fs.read t inode pos headerSize).2.1 = de.toHeader := by
          rw [←hde]
          rfl
        have h₁ := hread.2.2.trans h
        rw [hheader] at hrun
        by_cases hskip : de.inode = 0 ∨ de.nameLen = 0
        · rw [if_pos hskip] at hrun
          have hnext : nextSkipped fs inode' pos = some (pos + de.recLen) := by
            rw [nextSkipped,if_neg hin,hrec]
            exact if_pos hskip
          obtain ⟨hstrip,p,hreach,hstop⟩ := ih h₁ hrun
          exact ⟨hstrip,p,.head hnext hreach,hstop⟩
        · have hnone : nextSkipped fs inode' pos = none := by
            rw [nextSkipped,if_neg hin,hrec]
            exact if_neg hskip
          have hother : ∀ name,nextOther fs name inode' pos =
              if OtherName fs inode' name pos de then some (pos + de.recLen) else none :=
            fun name => by
              rw [nextOther,if_neg hin,hrec]
              exact if_congr (by tauto) rfl rfl
          have hname := @otherName_iff fs _ _ t pos h₁
          have hread' := @read_strip fs _ _ t t de.nameLen (pos + headerSize) h₁
          rw [if_neg hskip] at hrun
          by_cases hlen : (fs.read t (fs.read t inode pos headerSize).2.2 (pos + headerSize)
              de.nameLen).1 = de.nameLen
          · rw [if_neg (not_not.mpr hlen)] at hrun
            cases hino : fs.readINode de.inode with
            | none =>
              rw [hino] at hrun
              cases hrun
              refine ⟨hread'.2.2.trans h₁,q,.refl,hnone,fun name => ?_⟩
              rw [hother,if_neg]
              · rfl
              · rw [hname,hino]
                simp
            | some number =>
              rw [hino] at hrun
              cases hrun
              refine ⟨hread'.2.2.trans h₁,pos,.refl,hnone,fun name => ?_⟩
              rw [hother]
              simp only [hname,hino,hlen,Option.isSome_some,true_and,Option.elim_some,ne_eq]
              split_ifs <;> simp_all
          · rw [if_pos hlen] at hrun
            cases hrun
            refine ⟨hread'.2.2.trans h₁,q,.refl,hnone,fun name => ?_⟩
            rw [hother,if_neg]
            · rfl
            · rw [hname]
              exact fun hall => hlen hall.1
      · rw [if_neg hcount] at hrec
        rw [if_pos hcount] at hrun
        cases hrun
        exact ⟨hread.2.2.trans h,q,.refl,by rw [nextSkipped,if_neg hin,hrec],fun name => by
          rw [nextOther,if_neg hin,hrec]; rfl⟩

/-- Where skipping unused records halts, ReadDir returns. -/
theorem readDirLoop_total (hdir : inode'.iMode &&& ext2SIfDir ≠ 0)
    (hhalts : Halts (nextSkipped fs inode') pos) :
    ∃ least,∀ fuel ≥ least,∀ inode,strip inode = strip inode' →
      (readDirLoop fs t (fs.getSize inode') fuel inode pos).isSome := by
  induction hhalts with
  | intro pos _ ih =>
    obtain ⟨least,hleast⟩ : ∃ least,∀ q,nextSkipped fs inode' pos = some q → ∀ fuel ≥ least,
        ∀ inode,strip inode = strip inode' →
        (readDirLoop fs t (fs.getSize inode') fuel inode q).isSome := by
      cases hnext : nextSkipped fs inode' pos with
      | none => exact ⟨0,nofun⟩
      | some q =>
        obtain ⟨least,h⟩ := ih q hnext
        exact ⟨least,fun r hr => by cases hr; exact h⟩
    refine ⟨least + 1,fun fuel hfuel inode h => ?_⟩
    obtain ⟨fuel,rfl⟩ := Nat.exists_eq_add_of_le' (Nat.le_trans (Nat.le_add_left 1 least) hfuel)
    rw [readDirLoop]
    by_cases hend : fs.getSize inode' ≤ pos
    · rw [if_pos hend]
      rfl
    · have hread := @read_strip fs inode inode' t t headerSize pos h
      have hrec := @recordAt_eq fs inode inode' t pos h
      rw [if_neg hend]
      by_cases hcount : (fs.read t inode pos headerSize).1 = headerSize
      · simp only [if_neg (not_not.mpr hcount)]
        rw [if_pos hcount] at hrec
        split
        · rename_i hskip
          refine hleast _ ?_ fuel (by omega) _ (hread.2.2.trans h)
          rw [nextSkipped,if_neg (not_not.mpr ⟨hdir,by omega⟩),hrec]
          exact if_pos hskip
        · split
          · rfl
          · split <;> rfl
      · simp only [if_pos hcount]
        rfl

/-- ReadDir terminates exactly where skipping unused records halts. -/
theorem readDir_terminates_iff :
    Terminates (fun fuel => readDirINode fs fuel t inode pos) ↔ Halts (nextSkipped fs inode) pos := by
  by_cases hdir : inode.iMode &&& ext2SIfDir = 0
  · have hnone : nextSkipped fs inode pos = none := by
      rw [nextSkipped,if_pos fun hin => hin.1 hdir]
    exact ⟨fun _ => halts_of_none hnone,fun _ => ⟨0,by simp [readDirINode,hdir]⟩⟩
  · simp only [Terminates,readDirINode,if_neg hdir]
    constructor
    · rintro ⟨fuel,hsome⟩
      obtain ⟨⟨e,q,inode₁⟩,hrun⟩ := Option.isSome_iff_exists.mp hsome
      obtain ⟨-,p,hreach,hstop,-⟩ := readDirLoop_spec hdir rfl hrun
      exact hreach.halts (halts_of_none hstop)
    · intro hhalts
      obtain ⟨least,hleast⟩ := @readDirLoop_total fs inode t pos hdir hhalts
      exact ⟨least,hleast least (le_refl least) inode rfl⟩

/-- A call of Lookup that returns has halted. -/
theorem lookupLoop_halts {fuel rounds : ℕ} (hdir : inode'.iMode &&& ext2SIfDir ≠ 0)
    (h : strip inode = strip inode')
    (hsome : (lookupLoop fs fuel t (fs.getSize inode') name rounds inode pos).isSome) :
    Halts (nextOther fs name inode') pos := by
  induction rounds generalizing inode pos with
  | zero => cases hsome
  | succ rounds ih =>
    rw [lookupLoop] at hsome
    by_cases hend : fs.getSize inode' ≤ pos
    · exact halts_of_none (by
        rw [nextOther,if_pos fun hin => absurd hin.2 (Nat.not_lt.mpr hend)])
    · have hmode : inode.iMode &&& ext2SIfDir ≠ 0 := by
        show (strip inode).iMode &&& ext2SIfDir ≠ 0
        rw [h]
        exact hdir
      rw [if_neg hend] at hsome
      cases hrun : readDirINode fs fuel t inode pos with
      | none => rw [hrun] at hsome; cases hsome
      | some r =>
        obtain ⟨e,q,inode₁⟩ := r
        rw [readDirINode,if_neg hmode,getSize_strip h] at hrun
        obtain ⟨h₁,p,hreach,-,hstop⟩ := readDirLoop_spec hdir h hrun
        refine (hreach.mono fun x y hxy => nextOther_of_nextSkipped hxy).halts ?_
        cases e with
        | none => exact halts_of_none (hstop name)
        | some de =>
          by_cases hname : de.name = name
          · exact halts_of_none (by rw [hstop]; exact if_pos hname)
          · refine halts_of_some (b := q) (by rw [hstop]; exact if_neg hname) (ih h₁ ?_)
            rw [readDirINode,if_neg hmode,getSize_strip h,hrun] at hsome
            simpa only [if_neg hname] using hsome

/-- Where going on to other names halts, Lookup returns. -/
theorem lookupLoop_total (hdir : inode'.iMode &&& ext2SIfDir ≠ 0)
    (hhalts : Halts (nextOther fs name inode') pos) :
    ∃ least,∀ fuel ≥ least,∀ rounds ≥ least,∀ inode,strip inode = strip inode' →
      (lookupLoop fs fuel t (fs.getSize inode') name rounds inode pos).isSome := by
  refine hhalts.later_induction (P := fun pos => ∃ least,∀ fuel ≥ least,∀ rounds ≥ least,
    ∀ inode,strip inode = strip inode' →
    (lookupLoop fs fuel t (fs.getSize inode') name rounds inode pos).isSome)
    fun pos hhalts ih => ?_
  have hskips : Halts (nextSkipped fs inode') pos :=
    Subrelation.accessible (fun hxy => nextOther_of_nextSkipped hxy) hhalts
  obtain ⟨least,hleast⟩ := @readDirLoop_total fs inode' t pos hdir hskips
  obtain ⟨p,hreach,hstop⟩ := hskips.exists_stop
  obtain ⟨later,hlater⟩ : ∃ later,∀ q,nextOther fs name inode' p = some q → ∀ fuel ≥ later,
      ∀ rounds ≥ later,∀ inode,strip inode = strip inode' →
      (lookupLoop fs fuel t (fs.getSize inode') name rounds inode q).isSome := by
    cases hnext : nextOther fs name inode' p with
    | none => exact ⟨0,nofun⟩
    | some q =>
      obtain ⟨later,h⟩ := ih p q (hreach.mono fun x y hxy => nextOther_of_nextSkipped hxy) hnext
      exact ⟨later,fun r hr => by cases hr; exact h⟩
  refine ⟨max least (later + 1),fun fuel hfuel rounds hrounds inode h => ?_⟩
  obtain ⟨rounds,rfl⟩ : ∃ k,rounds = k + 1 := ⟨rounds - 1,by omega⟩
  rw [lookupLoop]
  by_cases hend : fs.getSize inode' ≤ pos
  · rw [if_pos hend]
    rfl
  · have hmode : inode.iMode &&& ext2SIfDir ≠ 0 := by
      show (strip inode).iMode &&& ext2SIfDir ≠ 0
      rw [h]
      exact hdir
    rw [if_neg hend]
    obtain ⟨⟨e,q,inode₁⟩,hrun⟩ := Option.isSome_iff_exists.mp (hleast fuel (by omega) inode h)
    obtain ⟨h₁,p',hreach',hstop',hother⟩ := readDirLoop_spec hdir h hrun
    obtain rfl := hreach.stop_unique hstop hreach' hstop'
    rw [readDirINode,if_neg hmode,getSize_strip h,hrun]
    cases e with
    | none => rfl
    | some de =>
      by_cases hname : de.name = name
      · simp only [if_pos hname,Option.isSome_some]
      · simp only [if_neg hname]
        exact hlater q (by rw [hother]; exact if_neg hname) fuel (by omega) rounds (by omega)
          inode₁ h₁

/-- Lookup terminates exactly where going on to other names halts. -/
theorem lookup_terminates_iff :
    Terminates (fun fuel => lookup fs fuel t inode name) ↔ Halts (nextOther fs name inode) 0 := by
  by_cases hdir : inode.iMode &&& ext2SIfDir = 0
  · have hnone : nextOther fs name inode 0 = none := by
      rw [nextOther,if_pos fun hin => hin.1 hdir]
    refine ⟨fun _ => halts_of_none hnone,fun _ => ⟨1,?_⟩⟩
    by_cases hend : fs.getSize inode ≤ 0 <;>
      simp [lookup,lookupLoop,readDirINode,hdir,hend]
  · constructor
    · rintro ⟨fuel,hsome⟩
      exact lookupLoop_halts hdir rfl hsome
    · intro hhalts
      obtain ⟨least,hleast⟩ := @lookupLoop_total fs inode t 0 name hdir hhalts
      exact ⟨least,hleast least (le_refl least) least (le_refl least) inode rfl⟩

/-- A name has at most 255 bytes. -/
theorem nameLen_le (bytes : List UInt8) : (Record.ofBytes bytes).nameLen ≤ 255 := by
  have hlt := leValue_lt ((bytes.drop 6).take 1)
  have hlen : ((bytes.drop 6).take 1).length ≤ 1 := List.length_take_le 1 _
  have hpow : 256 ^ ((bytes.drop 6).take 1).length ≤ 256 ^ 1 :=
    Nat.pow_le_pow_right (by norm_num) hlen
  show leValue ((bytes.drop 6).take 1) ≤ 255
  omega

/-- Records are aligned to four bytes. -/
theorem minSize_bounds {n : ℕ} (hn : n ≤ 255) : 8 + n ≤ minSize n ∧ minSize n ≤ 11 + n := by
  have hsum : (headerSize + n + (4 - 1)) % 2 ^ 32 = headerSize + n + (4 - 1) :=
    Nat.mod_eq_of_lt (by rw [headerSize]; omega)
  rw [minSize,align32,hsum,headerSize]
  omega

/-- A record without room for the new one is long enough to go on behind it: a
shorter one looks large, as the difference wraps around. -/
theorem recLen_of_no_room {bytes : List UInt8} {n : ℕ} (hn : n ≤ 255)
    (h : ¬n ≤ unsigned 32
      (((Record.ofBytes bytes).recLen : ℤ) - minSize (Record.ofBytes bytes).nameLen)) :
    8 ≤ (Record.ofBytes bytes).recLen := by
  have hlen := nameLen_le bytes
  have hmin := minSize_bounds hlen
  by_contra hshort
  have hwrap : (((Record.ofBytes bytes).recLen : ℤ) - minSize (Record.ofBytes bytes).nameLen) =
      ((2 ^ 32 - (minSize (Record.ofBytes bytes).nameLen - (Record.ofBytes bytes).recLen) : ℕ) : ℤ)
        - 2 ^ 32 := by
    omega
  rw [hwrap,unsigned_neg (by omega)] at h
  omega

/-- The search for room terminates: it moves on by eight bytes at least. -/
theorem scanLoop_total {fuel : ℕ} {de : Record} (hname : de.nameLen ≤ 255)
    (hfuel : fs.getSize inode - pos < fuel) : (scanLoop fs t de fuel inode pos).isSome := by
  induction fuel generalizing inode pos with
  | zero => omega
  | succ fuel ih =>
    have hread := @read_strip fs inode inode t t headerSize pos rfl
    rw [scanLoop]
    simp only
    by_cases hcount : (fs.read t inode pos headerSize).1 = headerSize
    · rw [if_neg (not_not.mpr hcount)]
      have hin : pos < fs.getSize inode := by
        by_contra hend
        rw [read_past_end (Nat.not_lt.mp hend) (by decide)] at hcount
        cases hcount
      split
      · rfl
      · rename_i hroom
        have hrec := recLen_of_no_room hname hroom
        split
        · rfl
        · refine ih ?_
          rw [getSize_strip hread.2.2]
          omega
    · rw [if_pos hcount]
      rfl

/-- The search of Remove terminates. -/
theorem removeLoop_total {fuel size prevPos : ℕ} {prevDe : Record} (hfuel : size - pos < fuel) :
    (removeLoop fs t size name fuel inode prevDe prevPos pos).isSome := by
  have hH : headerSize = 8 := rfl
  induction fuel generalizing inode prevDe prevPos pos with
  | zero => omega
  | succ fuel ih =>
    rw [removeLoop]
    simp only
    split
    · rfl
    · split
      · rfl
      · rename_i hok
        obtain ⟨-,hlen⟩ := not_or.mp hok
        split
        · exact ih (by omega)
        · split
          · rfl
          · split
            · exact ih (by omega)
            · rfl

/-- So does the search through a directory that is to be removed. -/
theorem emptyLoop_total {fuel size self parent : ℕ} (hfuel : size - pos < fuel) :
    (emptyLoop fs t size fuel inode pos self parent).isSome := by
  have hH : headerSize = 8 := rfl
  induction fuel generalizing inode pos self parent with
  | zero => omega
  | succ fuel ih =>
    rw [emptyLoop]
    simp only
    split
    · rfl
    · split
      · rfl
      · split
        · exact ih (by omega)
        · split
          · rfl
          · split
            · exact ih (by omega)
            · split
              · exact ih (by omega)
              · rfl

/-- More fuel does not change what ReadDir returns. -/
theorem readDirLoop_mono {size fuel fuel' : ℕ} {r : Option DirectoryEntry × ℕ × FSINode}
    (hle : fuel ≤ fuel') (h : readDirLoop fs t size fuel inode pos = some r) :
    readDirLoop fs t size fuel' inode pos = some r := by
  induction fuel generalizing fuel' inode pos with
  | zero => cases h
  | succ fuel ih =>
    obtain ⟨fuel',rfl⟩ : ∃ k,fuel' = k + 1 := ⟨fuel' - 1,by omega⟩
    rw [readDirLoop] at h ⊢
    by_cases hend : size ≤ pos
    · rwa [if_pos hend] at h ⊢
    · rw [if_neg hend] at h ⊢
      by_cases hread : (fs.read t inode pos headerSize).1 ≠ headerSize
      · simpa only [if_pos hread] using h
      · simp only [if_neg hread] at h ⊢
        by_cases hskip : (Header.ofBytes (fs.read t inode pos headerSize).2.1).inode = 0 ∨
            (Header.ofBytes (fs.read t inode pos headerSize).2.1).nameLen = 0
        · rw [if_pos hskip] at h ⊢
          exact ih (by omega) h
        · rwa [if_neg hskip] at h ⊢

/-- Nor what Lookup returns. -/
theorem lookupLoop_mono {size fuel fuel' rounds rounds' : ℕ} {r : Option ℕ × FSINode}
    (hle : fuel ≤ fuel') (hle' : rounds ≤ rounds')
    (h : lookupLoop fs fuel t size name rounds inode pos = some r) :
    lookupLoop fs fuel' t size name rounds' inode pos = some r := by
  induction rounds generalizing rounds' inode pos with
  | zero => cases h
  | succ rounds ih =>
    obtain ⟨rounds',rfl⟩ : ∃ k,rounds' = k + 1 := ⟨rounds' - 1,by omega⟩
    rw [lookupLoop] at h ⊢
    by_cases hend : size ≤ pos
    · rwa [if_pos hend] at h ⊢
    · rw [if_neg hend] at h ⊢
      cases hrun : readDirINode fs fuel t inode pos with
      | none => rw [hrun] at h; cases h
      | some s =>
        have hrun' : readDirINode fs fuel' t inode pos = some s := by
          rw [readDirINode] at hrun ⊢
          split at hrun
          · rename_i hdir
            rwa [if_pos hdir]
          · rename_i hdir
            rw [if_neg hdir]
            exact readDirLoop_mono hle hrun
        obtain ⟨e,q,inode₁⟩ := s
        rw [hrun] at h
        rw [hrun']
        cases e with
        | none => exact h
        | some de =>
          by_cases hname : de.name = name
          · simpa only [if_pos hname] using h
          · simp only [if_neg hname] at h ⊢
            exact ih (by omega) h

/-- Nor what the search of Remove finds. -/
theorem removeLoop_mono {size fuel fuel' prevPos : ℕ} {prevDe : Record} {r : Found × FSINode}
    (hle : fuel ≤ fuel')
    (h : removeLoop fs t size name fuel inode prevDe prevPos pos = some r) :
    removeLoop fs t size name fuel' inode prevDe prevPos pos = some r := by
  induction fuel generalizing fuel' inode prevDe prevPos pos with
  | zero => cases h
  | succ fuel ih =>
    obtain ⟨fuel',rfl⟩ : ∃ k,fuel' = k + 1 := ⟨fuel' - 1,by omega⟩
    rw [removeLoop] at h ⊢
    simp only at h ⊢
    split at h
    · rename_i hend
      rwa [if_pos hend]
    · rename_i hend
      rw [if_neg hend]
      split at h
      · rename_i hbad
        rwa [if_pos hbad]
      · rename_i hok
        rw [if_neg hok]
        split at h
        · rename_i hskip
          rw [if_pos hskip]
          exact ih (by omega) h
        · rename_i hused
          rw [if_neg hused]
          split at h
          · rename_i hshort
            rwa [if_pos hshort]
          · rename_i hread
            rw [if_neg hread]
            split at h
            · rename_i hother
              rw [if_pos hother]
              exact ih (by omega) h
            · rename_i hfound
              rwa [if_neg hfound]

end Directories

section Calls

variable {m : Mount} {c : Caller} {this position mode : ℕ} {name : List UInt8}

/-- Once its record is found, an inode is removed with enough fuel for its own
records. -/
theorem removeEntry_total {prevPos pos : ℕ} {prevDe de : Record} :
    ∃ least,∀ fuel ≥ least,(m.removeEntry c fuel this prevDe prevPos de pos).isSome := by
  cases hget : m.getINode de.inode with
  | none => exact ⟨0,fun fuel _ => by simp only [Mount.removeEntry,hget,Option.isSome_some]⟩
  | some m₁ =>
    refine ⟨m₁.fs.getSize (m₁.object de.inode).node + 1,fun fuel hfuel => ?_⟩
    simp only [Mount.removeEntry,hget]
    split
    · rfl
    · have hscan := @emptyLoop_total m₁.fs (m₁.object de.inode).node c.curTime 0 fuel
        (m₁.fs.getSize (m₁.object de.inode).node) 0 0 (by omega)
      obtain ⟨⟨found,node⟩,hrun⟩ := Option.isSome_iff_exists.mp hscan
      rw [hrun]
      cases found <;> rfl

/-- Remove terminates. -/
theorem remove_terminates : Terminates fun fuel => m.remove c fuel this name := by
  by_cases hdir : (m.object this).node.iMode &&& ext2SIfDir = 0
  · exact ⟨0,by simp [Mount.remove,hdir]⟩
  · obtain ⟨⟨found,node⟩,hrun⟩ := Option.isSome_iff_exists.mp
      (@removeLoop_total m.fs (m.object this).node c.curTime 0 name _
        (m.fs.getSize (m.object this).node) 0 Record.blank (Nat.lt_succ_self _))
    generalize Nat.succ _ = enough at hrun
    cases found with
    | failed e => exact ⟨enough,by simp only [Mount.remove,if_neg hdir,hrun,Option.isSome_some]⟩
    | entry prevDe prevPos de pos =>
      obtain ⟨least,hleast⟩ :=
        @removeEntry_total (m.setNode this node) c this prevPos pos prevDe de
      refine ⟨max enough least,?_⟩
      have hrun' := removeLoop_mono (le_max_left enough least) hrun
      simp only [Mount.remove,if_neg hdir,hrun']
      exact hleast _ (le_max_right _ _)

/-- Once the name is known to be new, Create terminates. -/
theorem createNew_total :
    ∃ least,∀ fuel ≥ least,(m.createNew c fuel this name mode).isSome := by
  by_cases hino : m.fs.allocINode.1 = 0
  · exact ⟨0,fun fuel _ => by simp only [Mount.createNew,if_pos hino,Option.isSome_some]⟩
  · cases hproc : c.process with
    | none =>
      exact ⟨0,fun fuel _ => by
        simp only [Mount.createNew,if_neg hino,hproc,Option.isSome_some]⟩
    | some ids =>
      obtain ⟨uid,gid⟩ := ids
      cases hget : ({ m with fs := m.fs.allocINode.2.2 } : Mount).getINode m.fs.allocINode.1 with
      | none =>
        exact ⟨0,fun fuel _ => by
          simp only [Mount.createNew,if_neg hino,hproc,hget,Option.isSome_some]⟩
      | some m₁ =>
        generalize hm₂ : m₁.setObject m.fs.allocINode.1
          (initINode (m₁.object m.fs.allocINode.1) c.curTime uid gid mode) = m₂
        refine ⟨m₂.fs.getSize (m₂.object this).node + 1,fun fuel hfuel => ?_⟩
        simp only [Mount.createNew,if_neg hino,hproc,hget,hm₂,Option.isSome_map]
        refine scanLoop_total ?_ (by omega)
        show name.length % 2 ^ 8 ≤ 255
        omega

/-- Create terminates unless it gets to look the name up and that does not. -/
theorem create_terminates_iff :
    (Terminates fun fuel => m.create c fuel this name mode) ↔
      (isValidFileName name → isDir (m.object this).node.iMode →
        Terminates fun fuel => lookup m.fs fuel c.curTime (m.object this).node name) := by
  by_cases hvalid : isValidFileName name
  · by_cases hdir : isDir (m.object this).node.iMode
    · simp only [hvalid,hdir,forall_const,Mount.create,Bool.not_true,Bool.false_eq_true,if_false]
      constructor
      · rintro ⟨fuel,hsome⟩
        refine ⟨fuel,?_⟩
        show (lookup m.fs fuel c.curTime (m.object this).node name).isSome
        cases hrun : lookup m.fs fuel c.curTime (m.object this).node name with
        | none => simp only [hrun,Option.isSome_none,Bool.false_eq_true] at hsome
        | some r => rfl
      · rintro ⟨enough,hsome⟩
        obtain ⟨⟨found,node⟩,hrun⟩ := Option.isSome_iff_exists.mp hsome
        cases found with
        | some number => exact ⟨enough,by simp only [hrun,Option.isSome_some]⟩
        | none =>
          obtain ⟨least,hleast⟩ := @createNew_total (m.setNode this node) c this mode name
          refine ⟨max enough least,?_⟩
          have hle := le_max_left enough least
          have hrun' : lookup m.fs (max enough least) c.curTime (m.object this).node name =
              some (none,node) := lookupLoop_mono hle hle hrun
          simp only [hrun']
          exact hleast _ (le_max_right _ _)
    · exact ⟨fun _ _ h => absurd h hdir,fun _ => ⟨0,by simp [Mount.create,hvalid,hdir]⟩⟩
  · exact ⟨fun _ h => absurd h hvalid,fun _ => ⟨0,by simp [Mount.create,hvalid]⟩⟩

end Calls

section Stuck

variable {fs : Ext2} {inode : FSINode} {pos q : ℕ} {name : List UInt8}

/-- From the position on, ReadDir comes to a record of length zero that it skips. -/
def ReadDirStuck (fs : Ext2) (inode : FSINode) (pos : ℕ) : Prop :=
  ∃ q de,Reaches (nextSkipped fs inode) pos q ∧ InDirectory fs inode q ∧
    recordAt fs inode q = some de ∧ de.recLen = 0 ∧ (de.inode = 0 ∨ de.nameLen = 0)

/-- From the start on, Lookup comes to a record of length zero that is not used
or has another name. -/
def LookupStuck (fs : Ext2) (inode : FSINode) (name : List UInt8) : Prop :=
  ∃ q de,Reaches (nextOther fs name inode) 0 q ∧ InDirectory fs inode q ∧
    recordAt fs inode q = some de ∧ de.recLen = 0 ∧
    (de.inode = 0 ∨ de.nameLen = 0 ∨ OtherName fs inode name q de)

/-- The steps of ReadDir. -/
theorem nextSkipped_eq_some_iff : nextSkipped fs inode pos = some q ↔ InDirectory fs inode pos ∧
    ∃ de,recordAt fs inode pos = some de ∧ q = pos + de.recLen ∧
      (de.inode = 0 ∨ de.nameLen = 0) := by
  rw [nextSkipped]
  by_cases hin : InDirectory fs inode pos
  · cases recordAt fs inode pos with
    | none => simp [hin]
    | some de => simp [hin,eq_comm,and_comm]
  · simp [hin]

/-- The steps of Lookup. -/
theorem nextOther_eq_some_iff :
    nextOther fs name inode pos = some q ↔ InDirectory fs inode pos ∧
      ∃ de,recordAt fs inode pos = some de ∧ q = pos + de.recLen ∧
        (de.inode = 0 ∨ de.nameLen = 0 ∨ OtherName fs inode name pos de) := by
  rw [nextOther]
  by_cases hin : InDirectory fs inode pos
  · cases recordAt fs inode pos with
    | none => simp [hin]
    | some de => simp [hin,eq_comm,and_comm]
  · simp [hin]

/-- Skipping unused records halts unless a record of length zero is reached. -/
theorem halts_nextSkipped_iff : Halts (nextSkipped fs inode) pos ↔ ¬ReadDirStuck fs inode pos := by
  have hiff := @halts_iff ℕ (nextSkipped fs inode) pos id (fs.getSize inode)
    (fun hxy => by
      obtain ⟨-,de,-,rfl,-⟩ := nextSkipped_eq_some_iff.mp hxy
      simp only [id_eq]
      omega)
    (fun hxy => (nextSkipped_eq_some_iff.mp hxy).1.2)
  rw [hiff]
  constructor
  · rintro h ⟨q,de,hreach,hin,hrec,hzero,hskip⟩
    exact h q hreach (nextSkipped_eq_some_iff.mpr ⟨hin,de,hrec,by rw [hzero,Nat.add_zero],hskip⟩)
  · intro h q hreach hself
    obtain ⟨hin,de,hrec,hq,hskip⟩ := nextSkipped_eq_some_iff.mp hself
    exact h ⟨q,de,hreach,hin,hrec,by omega,hskip⟩

/-- Going on to other names halts unless a record of length zero is reached. -/
theorem halts_nextOther_iff : Halts (nextOther fs name inode) 0 ↔ ¬LookupStuck fs inode name := by
  have hiff := @halts_iff ℕ (nextOther fs name inode) 0 id (fs.getSize inode)
    (fun hxy => by
      obtain ⟨-,de,-,rfl,-⟩ := nextOther_eq_some_iff.mp hxy
      simp only [id_eq]
      omega)
    (fun hxy => (nextOther_eq_some_iff.mp hxy).1.2)
  rw [hiff]
  constructor
  · rintro h ⟨q,de,hreach,hin,hrec,hzero,hnext⟩
    exact h q hreach (nextOther_eq_some_iff.mpr ⟨hin,de,hrec,by rw [hzero,Nat.add_zero],hnext⟩)
  · intro h q hreach hself
    obtain ⟨hin,de,hrec,hq,hnext⟩ := nextOther_eq_some_iff.mp hself
    exact h ⟨q,de,hreach,hin,hrec,by omega,hnext⟩

end Stuck

/-- On every contents of a directory file, Remove terminates; ReadDir, Lookup
and Create do exactly if they do not come to a record of length zero that they
go on from. -/
theorem directory_terminates_iff (m : Mount) (c : Caller) (this position mode : ℕ)
    (name : List UInt8) :
    ((Terminates fun fuel => readDirINode m.fs fuel c.curTime (m.object this).node position) ↔
      ¬ReadDirStuck m.fs (m.object this).node position) ∧
    ((Terminates fun fuel => lookup m.fs fuel c.curTime (m.object this).node name) ↔
      ¬LookupStuck m.fs (m.object this).node name) ∧
    ((Terminates fun fuel => m.create c fuel this name mode) ↔
      (isValidFileName name → isDir (m.object this).node.iMode →
        ¬LookupStuck m.fs (m.object this).node name)) ∧
    Terminates fun fuel => m.remove c fuel this name := by
  refine ⟨?_,?_,?_,remove_terminates⟩
  · rw [readDir_terminates_iff,halts_nextSkipped_iff]
  · rw [lookup_terminates_iff,halts_nextOther_iff]
  · rw [create_terminates_iff,lookup_terminates_iff,halts_nextOther_iff]

/-- A directory whose only block is zero. -/
def zeroDirectory : CachedINode :=
  { CachedINode.ofBytes [] with
    node := { Ext2BlockMap.onePointer 0 5 with iMode := 0x41ED, iSize := 1024 }
    referenceCount := 1 }

/-- A file system in which inode 2 is such a directory. -/
def zeroMount : Mount where
  fs := Ext2BlockMap.plainFs 0 fun _ => 0
  bgUsedDirsCount := fun _ => 0
  bgPad := fun _ => 0
  inodeCache := fun n => if n = 2 then some zeroDirectory else none

/-- ReadDir, Lookup and Create stay at its first record for ever. -/
theorem zeroDirectory_stuck :
    ¬(Terminates fun fuel => readDirINode zeroMount.fs fuel 0 (zeroMount.object 2).node 0) ∧
    ¬(Terminates fun fuel => lookup zeroMount.fs fuel 0 (zeroMount.object 2).node [97]) ∧
    ¬(Terminates fun fuel => zeroMount.create ⟨0,some (0,0)⟩ fuel 2 [97] 0x81A4) := by
  have hskip : nextSkipped zeroMount.fs (zeroMount.object 2).node 0 = some 0 := by decide
  have hother : nextOther zeroMount.fs [97] (zeroMount.object 2).node 0 = some 0 :=
    nextOther_of_nextSkipped hskip
  refine ⟨?_,?_,?_⟩
  · rw [readDir_terminates_iff]
    exact not_halts_of_self hskip
  · rw [lookup_terminates_iff]
    exact not_halts_of_self hother
  · rw [create_terminates_iff,lookup_terminates_iff]
    exact fun h => not_halts_of_self hother (h (by decide) (by decide))

end WootOs.DirectoryTermination
