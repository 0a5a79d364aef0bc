import WootOs.Characters
import Mathlib.Data.BitVec
import Mathlib.Data.List.GetD
import Mathlib.Logic.Function.Basic
import Mathlib.Tactic.IntervalCases

/-!
# UUIDs and their texts

A UUID is written as thirty-two hexadecimal digits with four dashes between them.
Reading shifts the digits into the bytes, which hold anything at first, two digits
into each, and passes over every other character.
-/

namespace WootOs.UuidText

open ObjectTree (Text)
open Characters

/-- The sixteen bytes. -/
abbrev Data : Type := Fin 16 → BitVec 8

/-- The value of a digit, as UUID::UUID computes it. -/
def hexValue (c : Char) : ℕ :=
  if between '0' '9' c then c.toNat - '0'.toNat
  else (if between 'a' 'f' c then c.toNat - 'a'.toNat else c.toNat - 'A'.toNat) + 10

/-- A digit goes into the byte with an index, if there is one. -/
def shiftIn (data : Data) (bt value : ℕ) : Option Data :=
  if h : bt < 16 then
    some (Function.update data ⟨bt,h⟩ (data ⟨bt,h⟩ <<< 4 ||| BitVec.ofNat 8 value))
  else none

/-- The loop of UUID::UUID over a string. A store outside the bytes has no result. -/
def readFrom : ℕ → Text → Data → Option Data
  | _,[],data => some data
  | digit,c :: str,data =>
    if 32 ≤ digit then some data
    else if !isHexDigit c then readFrom digit str data
    else do readFrom (digit + 1) str (← shiftIn data (digit / 2) (hexValue c))

/-- UUID::UUID, from a string, over what the bytes hold before. -/
def read (str : Text) (data : Data) : Option Data := readFrom 0 str data

/-- The table of digits in UUID::ToString. -/
def hexTable : Text := "0123456789abcdef".toList

/-- The digit with an index. -/
def digitAt (data : Data) (i : Fin 32) : ℕ :=
  (data ⟨i.val / 2,by omega⟩ >>> (4 * ((i.val + 1) % 2)) &&& 0x0F).toNat

/-- UUID::ToString: the characters that it puts into the buffer, from its beginning. -/
def toString (data : Data) : Text :=
  (List.finRange 32).flatMap fun i =>
    (if i.val = 8 ∨ i.val = 12 ∨ i.val = 16 ∨ i.val = 20 then ['-'] else []) ++
      [hexTable.getD (digitAt data i) '0']

/-! ### Canonical texts -/

/-- Digits in groups of eight, four, four, four and the rest. -/
def grouped (ds : Text) : Text :=
  ds.take 8 ++ '-' :: ((ds.drop 8).take 4 ++ '-' :: ((ds.drop 12).take 4 ++ '-' ::
    ((ds.drop 16).take 4 ++ '-' :: ds.drop 20)))

/-- The canonical lower-case form. -/
def Canonical (str : Text) : Prop :=
  ∃ ds : Text,ds.length = 32 ∧ (∀ c ∈ ds,c ∈ hexTable) ∧ str = grouped ds

/-- What ToString writes are digits in groups. -/
theorem toString_eq (data : Data) : toString data =
    grouped ((List.finRange 32).map fun i => hexTable.getD (digitAt data i) '0') := by
  have h : List.finRange 32 = [0,1,2,3,4,5,6,7,8,9,10,11,12,13,14,15,16,17,18,19,20,21,22,23,24,
    25,26,27,28,29,30,31] := by decide
  rw [toString,h]
  rfl

/-- The terminator stands right behind them, in the last place that is written. -/
theorem length_toString (data : Data) : (toString data).length = 36 := by
  rw [toString_eq,grouped]
  simp

section Reading

variable {str str' : Text} {data : Data}

/-- The digits of a string. -/
def values (str : Text) : List ℕ := (str.filter isHexDigit).map hexValue

/-- Digits go into the bytes until these are full. -/
def shifts : ℕ → List ℕ → Data → Data
  | _,[],data => data
  | k,v :: vs,data =>
    if h : k < 32 then
      shifts (k + 1) vs (Function.update data ⟨k / 2,by omega⟩
        (data ⟨k / 2,by omega⟩ <<< 4 ||| BitVec.ofNat 8 v))
    else data

/-- Reading is about the digits only, and stores nothing outside the bytes. -/
theorem readFrom_eq (k : ℕ) : readFrom k str data = some (shifts k (values str) data) := by
  induction str generalizing k data with
  | nil => rfl
  | cons c str ih =>
    rw [readFrom]
    by_cases hk : 32 ≤ k
    · rw [if_pos hk]
      cases values (c :: str) with
      | nil => rfl
      | cons v vs => rw [shifts,dif_neg (by omega)]
    · rw [if_neg hk]
      by_cases hc : isHexDigit c = true
      · have hbt : k / 2 < 16 := by omega
        rw [if_neg (by simp [hc]),shiftIn,dif_pos hbt]
        have hvalues : values (c :: str) = hexValue c :: values str := by
          rw [values,List.filter_cons_of_pos hc,List.map_cons,values]
        change readFrom (k + 1) str _ = _
        rw [ih,hvalues,shifts,dif_pos (by omega)]
      · rw [if_pos (by simpa using hc),ih,values,values,List.filter_cons_of_neg hc]

/-- A digit that is shifted in. -/
theorem toNat_shift {x : BitVec 8} {v : ℕ} (hv : v < 16) :
    (x <<< 4 ||| BitVec.ofNat 8 v).toNat = (x.toNat * 16 + v) % 256 := by
  have hx : (x.toNat <<< 4) % 2 ^ 8 = 2 ^ 4 * (x.toNat % 16) := by
    rw [Nat.shiftLeft_eq]
    omega
  have hv' : v % 2 ^ 8 = v := Nat.mod_eq_of_lt (by omega)
  rw [BitVec.toNat_or,BitVec.toNat_shiftLeft,BitVec.toNat_ofNat,hv',hx,
    ← Nat.two_pow_add_eq_or_of_lt hv]
  omega

/-- What the bytes hold when they are full: two digits each, whatever they held before. -/
theorem toNat_shifts (vs : List ℕ) (hvs : ∀ v ∈ vs,v < 16) (k : ℕ) (hk : k + vs.length = 32)
    (data : Data) (b : Fin 16) : (shifts k vs data b).toNat =
      if k ≤ 2 * b.val then vs.getD (2 * b - k) 0 * 16 + vs.getD (2 * b + 1 - k) 0
      else if k = 2 * b + 1 then ((data b).toNat * 16 + vs.getD 0 0) % 256
      else (data b).toNat := by
  induction vs generalizing k data with
  | nil =>
    rw [List.length_nil] at hk
    rw [shifts,if_neg (by omega),if_neg (by omega)]
  | cons v vs ih =>
    rw [List.length_cons] at hk
    have hv := hvs v List.mem_cons_self
    rw [shifts,dif_pos (by omega),ih (fun w hw => hvs w (List.mem_cons_of_mem _ hw)) _ (by omega)]
    have hget (i : ℕ) (hi : k < i) : (v :: vs).getD (i - k) 0 = vs.getD (i - (k + 1)) 0 := by
      rw [show i - k = i - (k + 1) + 1 by omega,List.getD_cons_succ]
    by_cases hb : k / 2 = b.val
    · have hdata : (⟨k / 2,by omega⟩ : Fin 16) = b := Fin.ext hb
      rw [hdata,Function.update_self,toNat_shift hv]
      rcases Nat.even_or_odd' k with ⟨q,hq | hq⟩
      · have hkb : k = 2 * b.val := by omega
        have hnext : vs.getD 0 0 < 16 := by
          cases vs with
          | nil => decide
          | cons w vs => exact hvs w (by simp)
        rw [if_neg (by omega),if_pos (by omega),if_pos (by omega),hget (2 * b + 1) (by omega),hkb,
          show 2 * b.val + 1 - (2 * b.val + 1) = 0 by omega,Nat.sub_self,List.getD_cons_zero]
        omega
      · have hkb : k = 2 * b.val + 1 := by omega
        rw [if_neg (by omega),if_neg (by omega),if_neg (by omega),if_pos hkb,List.getD_cons_zero]
    · rw [Function.update_of_ne fun h => hb (congrArg Fin.val h).symm]
      by_cases hle : k ≤ 2 * b.val
      · rw [if_pos (by omega),if_pos hle,hget _ (by omega),hget _ (by omega)]
      · rw [if_neg (by omega),if_neg (by omega),if_neg hle,if_neg (by omega)]

/-- The bytes after thirty-two digits. -/
theorem read_spec {ds : Text} (hlen : ds.length = 32) (hds : ∀ c ∈ ds,hexValue c < 16)
    (hstr : str.filter isHexDigit = ds) : ∃ u : Data,read str data = some u ∧
      ∀ b : Fin 16,(u b).toNat = (ds.map hexValue).getD (2 * b) 0 * 16 +
        (ds.map hexValue).getD (2 * b + 1) 0 := by
  refine ⟨_,readFrom_eq 0,fun b => ?_⟩
  rw [values,hstr,toNat_shifts _ ?_ 0 (by rw [List.length_map,hlen]),if_pos (Nat.zero_le _),
    Nat.sub_zero,Nat.sub_zero]
  rintro v hv
  obtain ⟨c,hc,rfl⟩ := List.mem_map.mp hv
  exact hds c hc

/-- A digit in lower case. -/
theorem of_mem_hexTable {c : Char} (hc : c ∈ hexTable) : isHexDigit c = true ∧ hexValue c < 16 ∧
    hexTable.getD (hexValue c) '0' = c := by
  have hall : hexTable.all (fun c => decide (isHexDigit c = true ∧ hexValue c < 16 ∧
      hexTable.getD (hexValue c) '0' = c)) = true := by decide
  exact of_decide_eq_true (List.all_eq_true.mp hall c hc)

/-- The table gives digits in lower case with their values. -/
theorem hexTable_getD {v : ℕ} (hv : v < 16) : hexTable.getD v '0' ∈ hexTable ∧
    hexValue (hexTable.getD v '0') = v := by
  interval_cases v <;> decide

/-- The digits of a grouped text. -/
theorem filter_grouped {ds : Text} (hds : ∀ c ∈ ds,c ∈ hexTable) :
    (grouped ds).filter isHexDigit = ds := by
  have hall (t : Text) (ht : t ⊆ ds) : t.filter isHexDigit = t :=
    List.filter_eq_self.mpr fun c hc => (of_mem_hexTable (hds c (ht hc))).1
  have hdash : isHexDigit '-' = false := by decide
  have htake (n m : ℕ) : (ds.drop n).take m ⊆ ds := fun c hc =>
    List.mem_of_mem_drop (List.mem_of_mem_take hc)
  rw [grouped]
  simp only [List.filter_append,List.filter_cons,hdash,Bool.false_eq_true,if_false]
  rw [hall _ (List.take_subset _ _),hall _ (htake _ _),hall _ (htake _ _),hall _ (htake _ _),
    hall _ (List.drop_subset _ _)]
  have hjoin (n m : ℕ) : (ds.drop n).take m ++ ds.drop (n + m) = ds.drop n := by
    rw [← List.drop_drop,List.take_append_drop]
  rw [hjoin 16 4,hjoin 12 4,hjoin 8 4,List.take_append_drop]

/-- The digits of a byte, the upper half first. -/
theorem digitAt_eq (data : Data) (i : Fin 32) : digitAt data i =
    if i.val % 2 = 0 then (data ⟨i.val / 2,by omega⟩).toNat / 16
    else (data ⟨i.val / 2,by omega⟩).toNat % 16 := by
  have hmask (n : ℕ) : n &&& 15 = n % 16 := Nat.and_two_pow_sub_one_eq_mod n 4
  have hx := (data ⟨i.val / 2,by omega⟩).isLt
  rw [digitAt,BitVec.toNat_and,BitVec.toNat_ushiftRight,Nat.shiftRight_eq_div_pow]
  change _ &&& 15 = _
  rw [hmask]
  rcases Nat.mod_two_eq_zero_or_one i.val with h | h
  · have h4 : 4 * ((i.val + 1) % 2) = 4 := by omega
    rw [if_pos h,h4]
    omega
  · have h0 : 4 * ((i.val + 1) % 2) = 0 := by omega
    rw [if_neg (by omega),h0,Nat.pow_zero,Nat.div_one]

/-- The digits of bytes that were put together from digits. -/
theorem digitAt_of_bytes {u : Data} {vs : List ℕ} (hvs : ∀ i,vs.getD i 0 < 16)
    (hu : ∀ b : Fin 16,(u b).toNat = vs.getD (2 * b) 0 * 16 + vs.getD (2 * b + 1) 0)
    (i : Fin 32) : digitAt u i = vs.getD i 0 := by
  have h₁ := hvs (2 * (i.val / 2) + 1)
  rw [digitAt_eq,hu]
  rcases Nat.mod_two_eq_zero_or_one i.val with h | h
  · rw [if_pos h,show 2 * (i.val / 2) = i.val by omega] at *
    omega
  · rw [if_neg (by omega),show 2 * (i.val / 2) + 1 = i.val by omega] at *
    omega

/-- The case of a letter does not matter. -/
theorem hexValue_toLower {c : Char} (hc : isHexDigit c = true) :
    hexValue (toLower c) = hexValue c := by
  by_cases hu : between 'A' 'Z' c = true
  · have hrange : 65 ≤ c.toNat ∧ c.toNat ≤ 70 := by
      simp only [isHexDigit,Bool.or_eq_true,between_iff] at hc hu
      change 65 ≤ _ ∧ _ ≤ 90 at hu
      change ((48 ≤ _ ∧ _ ≤ 57) ∨ (97 ≤ _ ∧ _ ≤ 102)) ∨ (65 ≤ _ ∧ _ ≤ 70) at hc
      omega
    obtain ⟨hl,hr⟩ := hrange
    rw [← Char.ofNat_toNat c]
    generalize c.toNat = n at hl hr
    interval_cases n <;> decide
  · rw [toLower,if_neg hu]

/-- Reading depends on the digits only, in either case. -/
theorem values_congr (h : (str.filter isHexDigit).map toLower =
    (str'.filter isHexDigit).map toLower) : values str = values str' := by
  have hlow (t : Text) : values t = ((t.filter isHexDigit).map toLower).map hexValue := by
    rw [values,List.map_map]
    refine List.map_congr_left fun c hc => ?_
    exact (hexValue_toLower (List.mem_filter.mp hc).2).symm
  rw [hlow,hlow,h]

/-- Digits in lower case and in groups, read and written again. -/
theorem read_grouped {ds : Text} (hlen : ds.length = 32) (hds : ∀ c ∈ ds,c ∈ hexTable)
    (data : Data) : ∃ u : Data,read (grouped ds) data = some u ∧
      ∀ i : Fin 32,digitAt u i = hexValue (ds.getD i '0') := by
  obtain ⟨u,hread,hu⟩ := @read_spec _ data _ hlen
    (fun c hc => (of_mem_hexTable (hds c hc)).2.1) (filter_grouped hds)
  have hget (i : ℕ) : (ds.map hexValue).getD i 0 = hexValue (ds.getD i '0') := by
    rw [show (0 : ℕ) = hexValue '0' by decide,List.getD_map]
  refine ⟨u,hread,fun i => ?_⟩
  rw [← hget]
  refine digitAt_of_bytes (fun k => ?_) hu i
  rw [hget]
  by_cases hk : k < ds.length
  · rw [List.getD_eq_getElem _ _ hk]
    exact (of_mem_hexTable (hds _ (List.getElem_mem hk))).2.1
  · rw [List.getD_eq_default _ _ (Nat.not_lt.mp hk)]
    decide

/-- Bytes with the same digits are the same. -/
theorem eq_of_digitAt {u v : Data} (h : ∀ i,digitAt u i = digitAt v i) : u = v := by
  funext b
  apply BitVec.eq_of_toNat_eq
  have h₀ := h ⟨2 * b,by omega⟩
  have h₁ := h ⟨2 * b + 1,by omega⟩
  have hb : (⟨2 * b.val / 2,by omega⟩ : Fin 16) = b := Fin.ext (by simp)
  have hb' : (⟨(2 * b.val + 1) / 2,by omega⟩ : Fin 16) = b := Fin.ext (by simp; omega)
  rw [digitAt_eq,digitAt_eq,if_pos (by simp),if_pos (by simp),hb] at h₀
  rw [digitAt_eq,digitAt_eq,if_neg (by simp),if_neg (by simp),hb'] at h₁
  omega

/-- Each UUID is read back from its text and each canonical text is written again. Reading
takes digits only, in either case, and never stores outside the bytes. -/
theorem text_round_trip :
    (∀ u data : Data,read (toString u) data = some u) ∧
    (∀ str,Canonical str → ∀ data,∃ u,read str data = some u ∧ toString u = str) ∧
    (∀ str str' : Text,(str.filter isHexDigit).map toLower = (str'.filter isHexDigit).map toLower →
      ∀ data,read str data = read str' data) ∧
    ∀ str data,∃ u,read str data = some u := by
  refine ⟨fun u data => ?_,?_,fun str str' h data => ?_,fun str data => ⟨_,readFrom_eq 0⟩⟩
  · have hlt (i : Fin 32) : digitAt u i < 16 := by
      rw [digitAt,BitVec.toNat_and]
      exact Nat.lt_of_le_of_lt Nat.and_le_right (by decide)
    obtain ⟨v,hread,hv⟩ := @read_grouped
      ((List.finRange 32).map fun i => hexTable.getD (digitAt u i) '0') (by simp) (by
        intro c hc
        obtain ⟨i,-,rfl⟩ := List.mem_map.mp hc
        exact (hexTable_getD (hlt i)).1) data
    rw [toString_eq,hread,Option.some.injEq]
    refine eq_of_digitAt fun i => ?_
    rw [hv,List.getD_eq_getElem _ _ (by simp),List.getElem_map,List.getElem_finRange]
    exact (hexTable_getD (hlt _)).2
  · rintro str ⟨ds,hlen,hds,rfl⟩ data
    obtain ⟨u,hread,hu⟩ := read_grouped hlen hds data
    refine ⟨u,hread,?_⟩
    rw [toString_eq]
    congr 1
    refine List.ext_getElem (by simp [hlen]) fun i hi hi' => ?_
    rw [List.getElem_map,List.getElem_finRange,hu]
    simp only [Fin.val_cast]
    rw [List.getD_eq_getElem _ _ hi']
    exact (of_mem_hexTable (hds _ (List.getElem_mem hi'))).2.2
  · rw [read,read,readFrom_eq,readFrom_eq,values_congr h]

/-- Thirty-two times the digit a, and two digits in either case. -/
theorem text_round_trip_letters :
    (∃ u,read (grouped (List.replicate 32 'a')) (fun _ => 0) = some u ∧
      toString u = grouped (List.replicate 32 'a')) ∧
    read ['A','b'] (fun _ => 0) = read ['a','-','B'] fun _ => 0 :=
  ⟨text_round_trip.2.1 _ ⟨_,by decide,fun c hc => by
      rw [List.eq_of_mem_replicate hc]
      decide,rfl⟩ _,text_round_trip.2.2.1 _ _ (by decide) _⟩

end Reading

end WootOs.UuidText
