import WootOs.DigitStrings
import WootOs.ObjectTree
import Mathlib.Data.List.GetD
import Mathlib.Tactic.SplitIfs

/-!
# Numbers on streams

A number is written digit by digit from the highest place on. A place is left out
as long as no digit but zero has come, unless it is among the last ones that have
to be written. There are sixteen hexadecimal places, as many as a value has, but
only nineteen decimal ones: the values without a sign that need twenty digits are
written wrong. A negative value is written as a positive one where a plus is wanted.
-/

namespace WootOs.NumberOutput

open ObjectTree (Text)
open DigitStrings

/-- The digits in WriteDec. -/
def decTable : Text := "0123456789".toList

/-- The digits in WriteHex. -/
def hexTable (caps : Bool) : Text :=
  if caps then "0123456789ABCDEF".toList else "0123456789abcdef".toList

/-- The character of a digit, if its place is written. -/
def place (table : Text) (minDigits maxDigits left dig : ℕ) (nonzero : Bool) : Text :=
  if left ≤ maxDigits ∧ nonzero = true ∨ left ≤ minDigits then [table.getD dig '0'] else []

/-- The loop of WriteHex, with as many places left. -/
def hexLoop (table : Text) (minDigits maxDigits : ℕ) : ℕ → ℕ → Bool → Text
  | 0,_,_ => []
  | left + 1,value,nonzero =>
    let dig := value / 2 ^ 60 % 16
    let nonzero := nonzero || dig ≠ 0
    place table minDigits maxDigits (left + 1) dig nonzero ++
      hexLoop table minDigits maxDigits left (value * 16 % 2 ^ 64) nonzero

/-- The buffer of Stream::WriteHex. -/
def hexBuf (value : ℕ) (caps : Bool) (minDigits maxDigits : ℕ) : Text :=
  let minDigits := if minDigits < 1 then 1 else if 16 < minDigits then 16 else minDigits
  let maxDigits := if maxDigits < 1 then 1 else if 16 < minDigits then 16 else maxDigits
  let maxDigits := if maxDigits < minDigits then minDigits else maxDigits
  hexLoop (hexTable caps) minDigits maxDigits 16 value false

/-- The loop of WriteDec, with as many places left. -/
def decLoop (minDigits maxDigits : ℕ) : ℕ → ℕ → ℕ → Bool → Text
  | 0,_,_,_ => []
  | left + 1,d,value,nonzero =>
    if d = 0 then []
    else
      let dig := value / d
      let nonzero := nonzero || dig ≠ 0
      place decTable minDigits maxDigits (left + 1) (dig % 10) nonzero ++
        decLoop minDigits maxDigits left (d / 10) (value - dig * d) nonzero

/-- The buffer of Stream::WriteDec. The value is a word of 64 bits. -/
def decBuf (value minDigits maxDigits : ℕ) (showPlus unsig : Bool) : Text :=
  let minDigits := if minDigits < 1 then 1 else if 19 < minDigits then 19 else minDigits
  let maxDigits := if maxDigits < 1 then 19 else if 19 < maxDigits then 19 else maxDigits
  let maxDigits := if maxDigits < minDigits then minDigits else maxDigits
  if showPlus then '+' :: decLoop minDigits maxDigits 19 (10 ^ 18) value false
  else if !unsig ∧ 2 ^ 63 ≤ value then
    '-' :: decLoop minDigits maxDigits 19 (10 ^ 18) (2 ^ 64 - value) false
  else decLoop minDigits maxDigits 19 (10 ^ 18) value false

/-- Stream::WriteStr, on a stream that takes characters. -/
def writeStr {S : Type} (write : Text → S → ℕ × S) (str : Text) (maxLen : ℕ) : S → ℕ × S :=
  write (str.take (if maxLen ≠ 0 ∧ maxLen < str.length then maxLen else str.length))

/-- The end of WriteHex and WriteDec: the length of the buffer, or the buffer is written. -/
def finish {S : Type} (write : Text → S → ℕ × S) (buf : Text) (measure : Bool) (s : S) : ℕ × S :=
  if measure then (buf.length,s) else writeStr write buf 0 s

/-- Stream::WriteHex. -/
def writeHex {S : Type} (write : Text → S → ℕ × S) (value : ℕ) (caps : Bool)
    (minDigits maxDigits : ℕ) (measure : Bool) : S → ℕ × S :=
  finish write (hexBuf value caps minDigits maxDigits) measure

/-- Stream::WriteDec. -/
def writeDec {S : Type} (write : Text → S → ℕ × S) (value minDigits maxDigits : ℕ)
    (showPlus measure unsig : Bool) : S → ℕ × S :=
  finish write (decBuf value minDigits maxDigits showPlus unsig) measure

/-! ### What is to be written -/

/-- A text is a number: a sign if there is to be one, and enough digits with the right value. -/
def Shows (table : Text) (neg : Prop) (abs minDigits : ℕ) (text : Text) : Prop :=
  ∃ sign ds : Text,text = sign ++ ds ∧ (sign = [] ∨ sign = ['+'] ∨ sign = ['-']) ∧
    (sign = ['-'] ↔ neg) ∧ minDigits ≤ ds.length ∧ (∀ c ∈ ds,c ∈ table) ∧
    value table.length table.idxOf ds = abs

/-- On every stream a number is written as a text that shows it, and the length that is
measured is that of the text. -/
def Prints (run : ∀ S : Type,(Text → S → ℕ × S) → Bool → S → ℕ × S) (table : Text) (neg : Prop)
    (abs minDigits : ℕ) : Prop :=
  ∃ text : Text,Shows table neg abs minDigits text ∧ ∀ S write s,
    run S write false s = write text s ∧ run S write true s = (text.length,s)

/-- WriteHex prints a value. -/
def HexRight (value : ℕ) (caps : Bool) (minDigits maxDigits : ℕ) : Prop :=
  Prints (fun _ write => writeHex write value caps minDigits maxDigits) (hexTable caps) False value
    minDigits

/-- WriteDec prints a value, with a sign or without one. -/
def DecRight (value minDigits maxDigits : ℕ) (showPlus unsig : Bool) : Prop :=
  Prints (fun _ write measure => writeDec write value minDigits maxDigits showPlus measure unsig)
    decTable (unsig = false ∧ 2 ^ 63 ≤ value)
    (if unsig = false ∧ 2 ^ 63 ≤ value then 2 ^ 64 - value else value) minDigits

section Places

variable {table : Text} {minDigits maxDigits left : ℕ} {nonzero : Bool}

/-- Digits from the highest place on: what both loops write. -/
def places (table : Text) (minDigits maxDigits : ℕ) : ℕ → ℕ → Bool → Text
  | 0,_,_ => []
  | left + 1,v,nonzero =>
    let dig := v / table.length ^ left
    let nonzero := nonzero || dig ≠ 0
    place table minDigits maxDigits (left + 1) dig nonzero ++
      places table minDigits maxDigits left (v % table.length ^ left) nonzero

/-- The loop of WriteHex shifts the digits that are left to the top. -/
theorem hexLoop_eq (htable : table.length = 16) (hleft : left ≤ 16) {v : ℕ} (hv : v < 16 ^ left) :
    hexLoop table minDigits maxDigits left (v * 16 ^ (16 - left)) nonzero =
      places table minDigits maxDigits left v nonzero := by
  induction left generalizing v nonzero with
  | zero => rfl
  | succ left ih =>
    obtain ⟨m,hm⟩ : ∃ m,16 = left + 1 + m := ⟨15 - left,by omega⟩
    have hshift : 16 - (left + 1) = m := by omega
    have hdig : v * 16 ^ m / 2 ^ 60 % 16 = v / 16 ^ left := by
      have h60 : 2 ^ 60 = 16 ^ left * 16 ^ m := by
        rw [← Nat.pow_add,show left + m = 15 by omega]
        rfl
      rw [h60,Nat.mul_div_mul_right _ _ (Nat.pow_pos (by decide))]
      exact Nat.mod_eq_of_lt (Nat.div_lt_of_lt_mul (by rw [← Nat.pow_succ]; exact hv))
    have hrest : v * 16 ^ m * 16 % 2 ^ 64 = v % 16 ^ left * 16 ^ (16 - left) := by
      have h64 : 2 ^ 64 = 16 ^ left * 16 ^ (m + 1) := by
        rw [← Nat.pow_add,show left + (m + 1) = 16 by omega]
        rfl
      rw [h64,show 16 - left = m + 1 by omega,Nat.mul_assoc,← Nat.pow_succ,Nat.mul_mod_mul_right]
    rw [hexLoop,places,hshift,hdig,hrest,htable,
      ih (by omega) (Nat.mod_lt _ (Nat.pow_pos (by decide)))]

/-- The loop of WriteDec takes the powers of ten one after the other. -/
theorem decLoop_eq {v : ℕ} (hv : v < 10 ^ left) :
    decLoop minDigits maxDigits left (10 ^ left / 10) v nonzero =
      places decTable minDigits maxDigits left v nonzero := by
  induction left generalizing v nonzero with
  | zero => rfl
  | succ left ih =>
    have hd : 10 ^ (left + 1) / 10 = 10 ^ left := by
      rw [Nat.pow_succ,Nat.mul_div_cancel _ (by decide)]
    have hpos : 0 < 10 ^ left := Nat.pow_pos (by decide)
    have hdig : v / 10 ^ left % 10 = v / 10 ^ left :=
      Nat.mod_eq_of_lt (Nat.div_lt_of_lt_mul (by rw [← Nat.pow_succ]; exact hv))
    have hrest : v - v / 10 ^ left * 10 ^ left = v % 10 ^ left := by
      have := Nat.div_add_mod' v (10 ^ left)
      omega
    have htable : decTable.length = 10 := rfl
    rw [decLoop,places,hd,if_neg hpos.ne']
    simp only [hrest,hdig,htable]
    rw [ih (Nat.mod_lt _ hpos)]

/-- A place that is written holds one digit. -/
theorem place_of_written {dig : ℕ} (h : left ≤ maxDigits ∧ nonzero = true ∨ left ≤ minDigits) :
    place table minDigits maxDigits left dig nonzero = [table.getD dig '0'] := by
  rw [place,if_pos h]

/-- The digits that are written have the right value, there are enough of them, and there is
one for each place once one is not zero. -/
theorem places_spec (htable : table.Nodup) {v : ℕ} (hv : v < table.length ^ left)
    (hmax : v < table.length ^ maxDigits) (hleft : nonzero = true → left ≤ maxDigits) :
    let out := places table minDigits maxDigits left v nonzero
    (∀ c ∈ out,c ∈ table) ∧ value table.length table.idxOf out = v ∧
      min minDigits left ≤ out.length ∧ (nonzero = true → out.length = left) := by
  induction left generalizing v nonzero with
  | zero =>
    rw [Nat.pow_zero,Nat.lt_one_iff] at hv
    simp [places,hv]
  | succ left ih =>
    have hbase : 0 < table.length := by
      by_contra h0
      rw [Nat.eq_zero_of_not_pos h0,Nat.zero_pow (Nat.succ_pos _)] at hv
      exact absurd hv (Nat.not_lt_zero _)
    have hpow : 0 < table.length ^ left := Nat.pow_pos hbase
    have hdig : v / table.length ^ left < table.length :=
      Nat.div_lt_of_lt_mul (by rw [← Nat.pow_succ]; exact hv)
    have hdiv := Nat.div_add_mod' v (table.length ^ left)
    obtain ⟨nz,hnz⟩ : ∃ nz,nz = (nonzero || decide (v / table.length ^ left ≠ 0)) := ⟨_,rfl⟩
    have hleft' : nz = true → left + 1 ≤ maxDigits := by
      rw [hnz,Bool.or_eq_true,decide_eq_true_eq]
      rintro (h | h)
      · exact hleft h
      · by_contra hlt
        have hle : table.length ^ maxDigits ≤ table.length ^ left :=
          Nat.pow_le_pow_right hbase (by omega)
        exact h (Nat.div_eq_of_lt (hmax.trans_le hle))
    have hzero : nz = false → nonzero = false ∧ v / table.length ^ left = 0 := by
      intro h
      rw [h,eq_comm,Bool.or_eq_false_iff,decide_eq_false_iff_not,not_not] at hnz
      exact hnz
    obtain ⟨hmem,hval,hlen,hfull⟩ := @ih nz _ (Nat.mod_lt v hpow)
      ((Nat.mod_le _ _).trans_lt hmax) fun h => Nat.le_of_succ_le (hleft' h)
    intro out
    have hout : out = place table minDigits maxDigits (left + 1) (v / table.length ^ left) nz ++
        places table minDigits maxDigits left (v % table.length ^ left) nz := by
      rw [hnz]
      rfl
    generalize places table minDigits maxDigits left (v % table.length ^ left) nz = rest at *
    have hidx : table.idxOf (table.getD (v / table.length ^ left) '0') = v / table.length ^ left := by
      rw [List.getD_eq_getElem _ _ hdig,htable.idxOf_getElem]
    by_cases hw : left + 1 ≤ maxDigits ∧ nz = true ∨ left + 1 ≤ minDigits
    · rw [place_of_written hw,List.singleton_append] at hout
      rw [hout]
      refine ⟨?_,?_,?_,?_⟩
      · intro c hc
        rcases List.mem_cons.mp hc with rfl | hc
        · rw [List.getD_eq_getElem _ _ hdig]
          exact List.getElem_mem hdig
        · exact hmem c hc
      · rw [value_cons,hidx,hval]
        cases hb : nz with
        | true => rw [hfull hb,hdiv]
        | false =>
          rw [(hzero hb).2] at hdiv ⊢
          omega
      · rw [List.length_cons]
        omega
      · intro h
        rw [List.length_cons,hfull (by rw [hnz,h,Bool.true_or])]
    · have hnz' : nz = false := by
        cases hb : nz with
        | true => exact absurd (.inl ⟨hleft' hb,hb⟩) hw
        | false => rfl
      have hboth := hzero hnz'
      rw [place,if_neg hw,List.nil_append] at hout
      rw [hout]
      refine ⟨hmem,?_,by omega,?_⟩
      · rw [hval]
        rw [hboth.2] at hdiv
        omega
      · intro h
        rw [hboth.1] at h
        cases h

/-- There are never more digits than places. -/
theorem length_decLoop (d v : ℕ) :
    (decLoop minDigits maxDigits left d v nonzero).length ≤ left := by
  induction left generalizing d v nonzero with
  | zero => exact le_rfl
  | succ left ih =>
    rw [decLoop]
    by_cases hd : d = 0
    · rw [if_pos hd]
      exact Nat.zero_le _
    · rw [if_neg hd,List.length_append,place]
      split_ifs
      · have := @ih (nonzero || decide (v / d ≠ 0)) (d / 10) (v - v / d * d)
        simp only [List.length_singleton]
        omega
      · have := @ih (nonzero || decide (v / d ≠ 0)) (d / 10) (v - v / d * d)
        simp only [List.length_nil]
        omega

/-- The loop writes digits. -/
theorem mem_decLoop {c : Char} (d v : ℕ) (hc : c ∈ decLoop minDigits maxDigits left d v nonzero) :
    c ∈ decTable := by
  induction left generalizing d v nonzero with
  | zero => exact absurd hc List.not_mem_nil
  | succ left ih =>
    rw [decLoop] at hc
    by_cases hd : d = 0
    · rw [if_pos hd] at hc
      exact absurd hc List.not_mem_nil
    · rw [if_neg hd] at hc
      rcases List.mem_append.mp hc with hc | hc
      · rw [place] at hc
        split_ifs at hc
        · have hlt : v / d % 10 < decTable.length := Nat.mod_lt _ (by decide)
          rw [List.mem_singleton.mp hc,List.getD_eq_getElem _ _ hlt]
          exact List.getElem_mem hlt
        · exact absurd hc List.not_mem_nil
      · exact ih _ _ hc

end Places

section Numbers

variable {value minDigits maxDigits : ℕ} {showPlus unsig : Bool}

/-- A number is printed exactly when its buffer shows it. -/
theorem prints_finish {table buf : Text} {neg : Prop} {abs : ℕ} :
    Prints (fun _ write => finish write buf) table neg abs minDigits ↔
      Shows table neg abs minDigits buf := by
  have hwrite (S : Type) (write : Text → S → ℕ × S) : writeStr write buf 0 = write buf := by
    rw [writeStr,if_neg (by simp),List.take_length]
  constructor
  · rintro ⟨text,hshows,hrun⟩
    have h := (hrun Text (fun t _ => (0,t)) []).1
    simp only [finish,hwrite,Bool.false_eq_true,if_false,Prod.mk.injEq,true_and] at h
    rwa [h]
  · intro hshows
    refine ⟨buf,hshows,fun S write s => ⟨?_,?_⟩⟩
    · simp only [finish,hwrite,Bool.false_eq_true,if_false]
    · simp only [finish,if_true]

/-- A text without a sign, or with one. -/
theorem shows_digits {table ds : Text} {n minDigits : ℕ} (hds : ∀ c ∈ ds,c ∈ table)
    (hval : DigitStrings.value table.length table.idxOf ds = n) (hlen : minDigits ≤ ds.length) :
    Shows table False n minDigits ds ∧ Shows table False n minDigits ('+' :: ds) ∧
      Shows table True n minDigits ('-' :: ds) :=
  ⟨⟨[],ds,rfl,.inl rfl,by simp,hlen,hds,hval⟩,⟨['+'],ds,rfl,.inr (.inl rfl),by simp,hlen,hds,hval⟩,
    ⟨['-'],ds,rfl,.inr (.inr rfl),by simp,hlen,hds,hval⟩⟩

/-- WriteHex is right. -/
theorem hexRight (caps : Bool) (hv : value < 2 ^ 64) (hmin : minDigits ≤ 16)
    (hmax : value < 16 ^ maxDigits) (hpos : 1 ≤ maxDigits) :
    HexRight value caps minDigits maxDigits := by
  have htable : (hexTable caps).length = 16 ∧ (hexTable caps).Nodup := by
    cases caps <;> decide
  refine prints_finish.mpr ?_
  have hbuf : hexBuf value caps minDigits maxDigits = places (hexTable caps) (max 1 minDigits)
      (max maxDigits (max 1 minDigits)) 16 value false := by
    have h := @hexLoop_eq _ (max 1 minDigits) (max maxDigits (max 1 minDigits)) _ false htable.1
      le_rfl value hv
    rw [Nat.sub_self,Nat.pow_zero,Nat.mul_one] at h
    rw [← h,hexBuf]
    congr 1
    · split_ifs <;> omega
    · split_ifs <;> omega
  have hmax' : value < (hexTable caps).length ^ max maxDigits (max 1 minDigits) := by
    rw [htable.1]
    exact hmax.trans_le (Nat.pow_le_pow_right (by decide) (Nat.le_max_left _ _))
  obtain ⟨hmem,hval,hlen,-⟩ := @places_spec _ (max 1 minDigits) _ 16 false htable.2 _
    (by rw [htable.1]; exact hv) hmax' (fun h => by cases h)
  rw [hbuf]
  exact (shows_digits hmem hval (by omega)).1

/-- The buffer of WriteDec, with the limits that it sets. -/
theorem decBuf_eq (hmin : minDigits ≤ 19) (hpos : 1 ≤ maxDigits) :
    let lo := max 1 minDigits
    let hi := max (min maxDigits 19) lo
    decBuf value minDigits maxDigits showPlus unsig =
      if showPlus = true then '+' :: decLoop lo hi 19 (10 ^ 18) value false
      else if unsig = false ∧ 2 ^ 63 ≤ value then
        '-' :: decLoop lo hi 19 (10 ^ 18) (2 ^ 64 - value) false
      else decLoop lo hi 19 (10 ^ 18) value false := by
  intro lo hi
  have hlo : (if minDigits < 1 then 1 else if 19 < minDigits then 19 else minDigits) = lo := by
    split_ifs <;> omega
  have hhi : (if maxDigits < 1 then 19 else if 19 < maxDigits then 19 else maxDigits) =
      min maxDigits 19 := by
    split_ifs <;> omega
  have hmax : (if min maxDigits 19 < lo then lo else min maxDigits 19) = hi := by
    split_ifs <;> omega
  rw [decBuf]
  simp only [hlo,hhi,hmax,Bool.not_eq_true']

/-- The digits that WriteDec writes of a value with at most nineteen of them. -/
theorem decLoop_spec (hv : value < 10 ^ 19) (hmin : minDigits ≤ 19)
    (hmax : value < 10 ^ maxDigits) :
    let lo := max 1 minDigits
    let ds := decLoop lo (max (min maxDigits 19) lo) 19 (10 ^ 18) value false
    (∀ c ∈ ds,c ∈ decTable) ∧ DigitStrings.value decTable.length decTable.idxOf ds = value ∧
      minDigits ≤ ds.length := by
  intro lo ds
  have hhi : value < 10 ^ max (min maxDigits 19) lo := by
    refine lt_of_lt_of_le ?_ (Nat.pow_le_pow_right (by decide) (Nat.le_max_left _ _))
    rcases Nat.le_total maxDigits 19 with hle | hle
    · rwa [Nat.min_eq_left hle]
    · rwa [Nat.min_eq_right hle]
  have h : ds = _ := @decLoop_eq _ _ 19 _ _ hv
  obtain ⟨hmem,hval,hlen,-⟩ := @places_spec decTable lo _ 19 false (by decide) _ hv hhi
    (fun h => by cases h)
  rw [h]
  exact ⟨hmem,hval,by omega⟩

/-- Behind a sign or without one, nineteen digits show no larger number. -/
theorem Shows.lt {ds sign : Text} {neg : Prop} {abs : ℕ} (hsign : sign = [] ∨ sign = ['+'])
    (hds : ∀ c ∈ ds,c ∈ decTable) (hlen : ds.length ≤ 19)
    (h : Shows decTable neg abs minDigits (sign ++ ds)) : ¬neg ∧ abs < 10 ^ 19 := by
  obtain ⟨sign',ds',htext,hsign',hneg,-,hds₂,hval⟩ := h
  have hplus : '+' ∉ decTable := by decide
  have hminus : '-' ∉ decTable := by decide
  have hsame : sign' = sign ∧ ds' = ds := by
    rcases hsign with rfl | rfl <;> rcases hsign' with rfl | rfl | rfl
    · exact ⟨rfl,htext.symm⟩
    · exact absurd (hds '+' (by simp at htext; simp [htext])) hplus
    · exact absurd (hds '-' (by simp at htext; simp [htext])) hminus
    · exact absurd (hds₂ '+' (by simp at htext; simp [← htext])) hplus
    · exact ⟨rfl,by simpa using htext.symm⟩
    · simp at htext
  obtain ⟨rfl,rfl⟩ := hsame
  constructor
  · rw [← hneg]
    rcases hsign with rfl | rfl <;> decide
  · rw [← hval]
    refine (value_lt _ _ fun c hc => List.idxOf_lt_length_iff.mpr (hds c hc)).trans_le ?_
    exact Nat.pow_le_pow_right (by decide) hlen

/-- WriteDec is right exactly for the values of nineteen digits without a sign, and for all
values with a sign where no plus is wanted or they are not negative. -/
theorem decRight_iff (hv : value < 2 ^ 64) (hmin : minDigits ≤ 19)
    (hmax : (if unsig = false ∧ 2 ^ 63 ≤ value then 2 ^ 64 - value else value) < 10 ^ maxDigits)
    (hpos : 1 ≤ maxDigits) : DecRight value minDigits maxDigits showPlus unsig ↔
      if unsig = true then value < 10 ^ 19 else showPlus = true → value < 2 ^ 63 := by
  have hbuf := @decBuf_eq value minDigits maxDigits showPlus unsig hmin hpos
  refine prints_finish.trans ?_
  rw [hbuf]
  constructor
  · intro h
    cases unsig with
    | true =>
      rw [if_pos rfl]
      simp only [Bool.true_eq_false,false_and,if_false] at h
      cases showPlus with
      | true =>
        exact (Shows.lt (.inr rfl) (fun c => mem_decLoop _ _) (length_decLoop _ _) h).2
      | false =>
        rw [if_neg (by decide),← List.nil_append (decLoop _ _ _ _ _ _)] at h
        exact (Shows.lt (.inl rfl) (fun c => mem_decLoop _ _) (length_decLoop _ _) h).2
    | false =>
      rw [if_neg (by decide)]
      rintro rfl
      have hno := (Shows.lt (.inr rfl) (fun c => mem_decLoop _ _) (length_decLoop _ _) h).1
      exact Nat.not_le.mp fun hle => hno ⟨rfl,hle⟩
  · intro h
    by_cases hneg : unsig = false ∧ 2 ^ 63 ≤ value
    · have hplus : showPlus ≠ true := by
        intro hs
        rw [if_neg (by rw [hneg.1]; decide)] at h
        exact absurd (h hs) (Nat.not_lt.mpr hneg.2)
      rw [if_pos hneg] at hmax
      rw [if_neg hplus,if_pos hneg,if_pos hneg]
      obtain ⟨hmem,hval,hlen⟩ := decLoop_spec (by have := hneg.2; omega) hmin hmax
      have hshows := (shows_digits hmem hval hlen).2.2
      rwa [← eq_true hneg] at hshows
    · have hlt : value < 10 ^ 19 := by
        cases unsig with
        | true => exact h
        | false =>
          have hsmall : value < 2 ^ 63 := Nat.not_le.mp fun hle => hneg ⟨rfl,hle⟩
          omega
      rw [if_neg hneg] at hmax
      rw [if_neg hneg,if_neg hneg]
      obtain ⟨hmem,hval,hlen⟩ := decLoop_spec hlt hmin hmax
      have hshows := shows_digits hmem hval hlen
      rw [← eq_false hneg] at hshows
      by_cases hs : showPlus = true
      · rw [if_pos hs]
        exact hshows.2.1
      · rw [if_neg hs]
        exact hshows.1

/-- Hexadecimal numbers are always right; decimal ones of at most nineteen digits are, where
they have no sign, and where they have one unless a plus is wanted of a negative one. -/
theorem numbers_right (hv : value < 2 ^ 64) :
    (∀ caps,minDigits ≤ 16 → 1 ≤ maxDigits → value < 16 ^ maxDigits →
      HexRight value caps minDigits maxDigits) ∧
    ∀ showPlus unsig,minDigits ≤ 19 → 1 ≤ maxDigits →
      (if unsig = false ∧ 2 ^ 63 ≤ value then 2 ^ 64 - value else value) < 10 ^ maxDigits →
      (DecRight value minDigits maxDigits showPlus unsig ↔
        if unsig = true then value < 10 ^ 19 else showPlus = true → value < 2 ^ 63) :=
  ⟨fun caps hmin hpos hmax => hexRight caps hv hmin hmax hpos,
    fun _ _ hmin hpos hmax => decRight_iff hv hmin hmax hpos⟩

/-- The largest value without a sign, and minus one with a plus. -/
theorem numbers_right_largest :
    HexRight (2 ^ 64 - 1) true 16 16 ∧
    (DecRight (2 ^ 64 - 1) 1 20 false true ↔ if true = true then 2 ^ 64 - 1 < 10 ^ 19
      else false = true → 2 ^ 64 - 1 < 2 ^ 63) :=
  ⟨(@numbers_right _ 16 16 (by decide)).1 true (by decide) (by decide) (by decide),
    (@numbers_right _ 1 20 (by decide)).2 false true (by decide) (by decide) (by decide)⟩

/-- The largest value loses its first digit, and minus one becomes a positive number. -/
theorem twentieth_digit_lost :
    decBuf (2 ^ 64 - 1) 1 20 false true = "8446744073709551615".toList ∧
    ¬DecRight (2 ^ 64 - 1) 1 20 false true ∧
    decBuf (2 ^ 64 - 1) 1 19 true false = "+8446744073709551615".toList ∧
    ¬DecRight (2 ^ 64 - 1) 1 19 true false := by
  refine ⟨by decide,?_,by decide,?_⟩
  · rw [decRight_iff (by decide) (by decide) (by decide) (by decide)]
    decide
  · rw [decRight_iff (by decide) (by decide) (by decide) (by decide)]
    decide

end Numbers

end WootOs.NumberOutput
