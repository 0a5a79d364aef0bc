import WootOs.Characters
import WootOs.DigitStrings
import WootOs.MachineInt
import Mathlib.Data.List.TakeWhile

/-!
# Numbers in strings

The four functions that read a number skip everything in front of it, without
looking for the end of the string, and take digits as long as these are below the
base. A letter counts from zero, not from ten. The number is computed in a machine
word, and a digit that makes it smaller is taken for an overflow.
-/

namespace WootOs.NumberParsing

open ObjectTree (Text)
open Characters DigitStrings

/-- An integer type. -/
structure Kind where
  /-- Its bits. -/
  width : ℕ
  /-- Whether it has a sign. -/
  signed : Bool
  /-- There is at least one. -/
  pos : 0 < width

/-- The type long. -/
def long : Kind := ⟨32,true,by decide⟩

/-- The type unsigned long. -/
def unsignedLong : Kind := ⟨32,false,by decide⟩

/-- The type long long. -/
def longLong : Kind := ⟨64,true,by decide⟩

/-- The type unsigned long long. -/
def unsignedLongLong : Kind := ⟨64,false,by decide⟩

namespace Kind

variable (k : Kind)

/-- A number in a machine word. -/
def wrap (x : ℤ) : ℤ :=
  if k.signed then MachineInt.signed k.width x else MachineInt.unsigned k.width x

/-- The result of an overflow. -/
def limit (neg : Bool) : ℤ :=
  if k.signed then if neg then -2 ^ (k.width - 1) else 2 ^ (k.width - 1) - 1 else 2 ^ k.width - 1

/-- Whether an absolute value can be a result. -/
def Fits (neg : Bool) (abs : ℕ) : Prop :=
  if k.signed then if neg then abs ≤ 2 ^ (k.width - 1) else abs < 2 ^ (k.width - 1)
  else abs < 2 ^ k.width

instance (neg : Bool) (abs : ℕ) : Decidable (k.Fits neg abs) := by
  unfold Fits
  infer_instance

end Kind

/-- What is returned: a value, whether errno becomes ERANGE, and where endptr points to. -/
structure Parsed where
  /-- The value. -/
  value : ℤ
  /-- Whether there was an overflow. -/
  erange : Bool
  /-- What stands at endptr. -/
  rest : Text

/-- The loop over leading characters. It has no result where it reads on behind the terminator. -/
def skip (signed : Bool) : Text → Option Text
  | [] => none
  | c :: str =>
    if isDigit c || signed && (c == '+' || c == '-') then some (c :: str) else skip signed str

/-- The sign. -/
def takeSign (signed : Bool) (str : Text) : Bool × Text :=
  if signed && str.head? == some '-' then (true,str.tail)
  else if signed && str.head? == some '+' then (false,str.tail)
  else (false,str)

/-- The prefix 0x or 0b, and the base. -/
def takePrefix (base : ℕ) (str : Text) : ℕ × Text :=
  if (base = 0 ∨ base = 16) ∧ str.head? = some '0' ∧
      (str.tail.head? = some 'x' ∨ str.tail.head? = some 'X') then (16,str.drop 2)
  else if (base = 0 ∨ base = 2) ∧ str.head? = some '0' ∧
      (str.tail.head? = some 'b' ∨ str.tail.head? = some 'B') then (2,str.drop 2)
  else if base = 0 then (if str.head? = some '0' then 8 else 10,str)
  else (base,str)

/-- The value of a character as a digit: letters count from zero. -/
def digitOf (c : Char) : Option ℕ :=
  if between '0' '9' c then some (c.toNat - '0'.toNat)
  else if between 'a' 'z' c then some (c.toNat - 'a'.toNat)
  else none

/-- A number times a sign. -/
def withSign (neg : Bool) (n : ℕ) : ℤ := if neg then -n else n

/-- The loop over the digits. -/
def loop (k : Kind) (neg : Bool) (base : ℕ) : Text → ℤ → Parsed
  | [],result => ⟨result,false,[]⟩
  | c :: str,result =>
    match digitOf (toLower c) with
    | none => ⟨result,false,c :: str⟩
    | some digit =>
      if base ≤ digit then ⟨result,false,c :: str⟩
      else
        let val := k.wrap (result * base + withSign neg digit)
        if if neg then result < val else val < result then ⟨k.limit neg,true,c :: str⟩
        else loop k neg base str val

/-- Where parsing starts: the sign, the base and the text. -/
def start (k : Kind) (str : Text) (base : ℕ) : Option (Bool × ℕ × Text) := do
  let str ← skip k.signed str
  let (neg,str) := takeSign k.signed str
  return (neg,takePrefix base str)

/-- The function for a type. -/
def toNumber (k : Kind) (str : Text) (base : ℕ) : Option Parsed := do
  let (neg,base,str) ← start k str base
  return loop k neg base str 0

/-- String::ToLong. -/
def toLong : Text → ℕ → Option Parsed := toNumber long

/-- String::ToULong. -/
def toULong : Text → ℕ → Option Parsed := toNumber unsignedLong

/-- String::ToLLong. -/
def toLLong : Text → ℕ → Option Parsed := toNumber longLong

/-- String::ToULLong. -/
def toULLong : Text → ℕ → Option Parsed := toNumber unsignedLongLong

/-! ### What is to be returned -/

/-- The value of a character as a digit, letters counting from ten. -/
def digitValue (c : Char) : Option ℕ :=
  if between '0' '9' c then some (c.toNat - '0'.toNat)
  else if between 'a' 'z' c then some (c.toNat - 'a'.toNat + 10)
  else none

/-- The longest string of digits that a text begins with, for what a character counts. -/
def digits (digit : Char → Option ℕ) (base : ℕ) (str : Text) : Text :=
  str.takeWhile fun c => (digit (toLower c)).any (· < base)

/-- The number that they make up. -/
def number (digit : Char → Option ℕ) (base : ℕ) (ds : Text) : ℕ :=
  value base (fun c => (digit (toLower c)).getD 0) ds

/-- The right result for a sign, a base and a text that parsing starts with: the exact value of
the digits, or the limit and ERANGE. The end is right behind the digits that were taken. -/
def Right (k : Kind) (neg : Bool) (base : ℕ) (str : Text) (p : Parsed) : Prop :=
  let ds := digits digitValue base str
  if k.Fits neg (number digitValue base ds) then
    p = ⟨withSign neg (number digitValue base ds),false,str.drop ds.length⟩
  else p.value = k.limit neg ∧ p.erange = true ∧ ∃ n ≤ ds.length,p.rest = str.drop n

/-- A function does not read behind the terminator and returns the right result. -/
def Parses (k : Kind) (str : Text) (base : ℕ) (result : Option Parsed) : Prop :=
  ∃ p ∈ result,∃ neg base' str',start k str base = some (neg,base',str') ∧
    Right k neg base' str' p

/-- With one more digit the number in the machine word comes out on the wrong side. -/
def Falls (k : Kind) (neg : Bool) (base : ℕ) (ds : Text) (n : ℕ) : Prop :=
  let before := k.wrap (withSign neg (number digitOf base (ds.take n)))
  let after := k.wrap (withSign neg (number digitOf base (ds.take (n + 1))))
  if neg then before < after else after < before

instance (k : Kind) (neg : Bool) (base : ℕ) (ds : Text) (n : ℕ) :
    Decidable (Falls k neg base ds n) := by
  unfold Falls
  infer_instance

/-- The texts at the start of parsing that are read right: those without a letter among their
digits, the letters counting from zero, whose number fits; and those whose number does not fit
where that shows at one of the digits, or right behind them. -/
def Readable (k : Kind) (neg : Bool) (base : ℕ) (str : Text) : Prop :=
  if k.Fits neg (number digitValue base (digits digitValue base str)) then
    ∀ c ∈ digits digitOf base str,isDigit c = true
  else ∃ n < (digits digitOf base str).length,n ≤ (digits digitValue base str).length ∧
    Falls k neg base (digits digitOf base str) n

instance (k : Kind) (neg : Bool) (base : ℕ) (str : Text) : Decidable (Readable k neg base str) := by
  letI : Decidable (∀ c ∈ digits digitOf base str,isDigit c = true) := List.decidableBAll _ _
  unfold Readable
  infer_instance

section Words

variable {k : Kind} {neg : Bool} {x y : ℤ} {m n : ℕ}

/-- A machine word in a product and a sum. -/
theorem Kind.wrap_wrap (k : Kind) (x y : ℤ) (b : ℕ) :
    k.wrap (k.wrap x * b + y) = k.wrap (x * b + y) := by
  cases hs : k.signed with
  | true =>
    simp only [Kind.wrap,hs,if_true,MachineInt.signed]
    rw [← Int.bmod_add_bmod,Int.bmod_mul_bmod,Int.bmod_add_bmod]
  | false =>
    have hpos : (0 : ℤ) < 2 ^ k.width := by positivity
    simp only [Kind.wrap,hs,Bool.false_eq_true,if_false,MachineInt.unsigned]
    rw [Int.toNat_of_nonneg (Int.emod_nonneg x hpos.ne')]
    congr 1
    rw [Int.add_emod,Int.mul_emod,Int.emod_emod,← Int.mul_emod,← Int.add_emod]

/-- A number that fits is itself in a machine word. -/
theorem Kind.wrap_of_fits (hneg : neg = true → k.signed = true) (h : k.Fits neg n) :
    k.wrap (withSign neg n) = withSign neg n := by
  obtain ⟨w,hw⟩ : ∃ w,k.width = w + 1 := ⟨k.width - 1,by have := k.pos; omega⟩
  have hcast : ((2 ^ w : ℕ) : ℤ) = 2 ^ w := by push_cast; rfl
  have hpos : (0 : ℤ) < 2 ^ w := by positivity
  cases hs : k.signed with
  | true =>
    simp only [Kind.Fits,hs,if_true,hw,Nat.add_sub_cancel] at h
    simp only [Kind.wrap,hs,if_true,hw]
    refine MachineInt.signed_of_range ?_ ?_
    · cases neg <;> simp [withSign] at h ⊢ <;> omega
    · cases neg <;> simp [withSign] at h ⊢ <;> omega
  | false =>
    have hn : neg = false := by
      cases neg with
      | true => exact absurd (hneg rfl) (by rw [hs]; decide)
      | false => rfl
    simp only [Kind.Fits,hs,Bool.false_eq_true,if_false] at h
    simp only [Kind.wrap,hs,Bool.false_eq_true,if_false,withSign,hn]
    rw [MachineInt.unsigned_natCast h]

/-- Smaller numbers fit. -/
theorem Kind.Fits.mono (h : k.Fits neg n) (hle : m ≤ n) : k.Fits neg m := by
  unfold Kind.Fits at *
  split_ifs at * <;> omega

end Words

section Digits

variable {base : ℕ} {str ds : Text} {c : Char}

/-- A text that begins with a digit, and one that does not. -/
theorem digits_cons (digit : Char → Option ℕ) (c : Char) : digits digit base (c :: str) =
    if (digit (toLower c)).any (· < base) then c :: digits digit base str else [] := by
  rw [digits,List.takeWhile_cons]
  rfl

/-- A digit counts the same for both, and a letter ten less where letters count from zero. -/
theorem digit_cases (c : Char) : (isDigit c = true ∧ digitValue c = digitOf c) ∨
    (isDigit c = false ∧ ∃ v,digitOf c = some v ∧ digitValue c = some (v + 10)) ∨
    digitOf c = none ∧ digitValue c = none := by
  by_cases hd : between '0' '9' c = true
  · exact .inl ⟨hd,by rw [digitValue,digitOf,if_pos hd,if_pos hd]⟩
  · right
    by_cases hl : between 'a' 'z' c = true
    · refine .inl ⟨by simpa [isDigit] using hd,_,by rw [digitOf,if_neg hd,if_pos hl],?_⟩
      rw [digitValue,if_neg hd,if_pos hl]
    · exact .inr ⟨by rw [digitOf,if_neg hd,if_neg hl],by rw [digitValue,if_neg hd,if_neg hl]⟩

/-- What a character counts for as a digit. -/
def count (digit : Char → Option ℕ) (c : Char) : ℕ := (digit (toLower c)).getD 0

/-- Letters that count from zero count for less. -/
theorem count_le (c : Char) : count digitOf c ≤ count digitValue c := by
  rw [count,count]
  rcases digit_cases (toLower c) with ⟨-,h⟩ | ⟨-,v,h,h'⟩ | ⟨h,h'⟩
  · rw [h]
  · rw [h,h']
    exact Nat.le_add_right _ _
  · rw [h,h']

/-- A string of digits is one where letters count from zero. -/
theorem digits_prefix (base : ℕ) (str : Text) :
    digits digitValue base str <+: digits digitOf base str := by
  induction str with
  | nil => exact List.prefix_refl _
  | cons c str ih =>
    rw [digits_cons,digits_cons]
    by_cases hv : (digitValue (toLower c)).any (· < base) = true
    · have ho : (digitOf (toLower c)).any (· < base) = true := by
        rcases digit_cases (toLower c) with ⟨-,h⟩ | ⟨-,v,h,h'⟩ | ⟨h,h'⟩
        · rw [← h]
          exact hv
        · rw [h'] at hv
          rw [h]
          simp only [Option.any_some,decide_eq_true_eq] at hv ⊢
          omega
        · rw [h'] at hv
          exact absurd hv (by simp)
      rw [if_pos hv,if_pos ho]
      exact (List.prefix_cons_inj c).mpr ih
    · rw [if_neg hv]
      exact List.nil_prefix

/-- Without a letter they are the same. -/
theorem digits_eq (h : ∀ c ∈ digits digitOf base str,isDigit c = true) :
    digits digitValue base str = digits digitOf base str := by
  induction str with
  | nil => rfl
  | cons c str ih =>
    rw [digits_cons] at h ⊢
    rw [digits_cons]
    by_cases ho : (digitOf (toLower c)).any (· < base) = true
    · rw [if_pos ho] at h ⊢
      have hc : isDigit (toLower c) = true := by
        rw [isDigit_toLower]
        exact h c List.mem_cons_self
      have hv : digitValue (toLower c) = digitOf (toLower c) := by
        rcases digit_cases (toLower c) with ⟨-,h⟩ | ⟨h,-⟩ | ⟨h,h'⟩
        · exact h
        · rw [hc] at h
          cases h
        · rw [h,h']
      rw [hv,if_pos ho,ih fun d hd => h d (List.mem_cons_of_mem _ hd)]
    · have hv : ¬(digitValue (toLower c)).any (· < base) = true := by
        intro hv
        have hpre := digits_prefix base (c :: str)
        rw [digits_cons,digits_cons,if_pos hv,if_neg ho] at hpre
        exact absurd hpre (by simp)
      rw [if_neg ho,if_neg hv]

/-- A digit of a string that counts the same for both is no letter. -/
theorem isDigit_of_count {c : Char} (hc : c ∈ digits digitOf base str)
    (he : count digitOf c = count digitValue c) : isDigit c = true := by
  have hany := List.mem_takeWhile_imp hc
  rw [← isDigit_toLower]
  rw [count,count] at he
  rcases digit_cases (toLower c) with ⟨h,-⟩ | ⟨-,v,h,h'⟩ | ⟨h,-⟩
  · exact h
  · rw [h,h'] at he
    simp at he
  · rw [h] at hany
    exact absurd hany (by simp)

/-- A digit that is no letter counts the same. -/
theorem count_eq_of_isDigit {c : Char} (hc : isDigit c = true) :
    count digitOf c = count digitValue c := by
  rw [← isDigit_toLower] at hc
  rw [count,count]
  rcases digit_cases (toLower c) with ⟨-,h⟩ | ⟨h,-⟩ | ⟨h,h'⟩
  · rw [h]
  · rw [hc] at h
    cases h
  · rw [h,h']

end Digits

section Loop

variable {k : Kind} {neg : Bool} {base : ℕ} {str done : Text} {n : ℕ}

/-- The number in the machine word after some digits. -/
def word (k : Kind) (neg : Bool) (base : ℕ) (ds : Text) : ℤ :=
  k.wrap (withSign neg (number digitOf base ds))

/-- One turn of the loop. -/
theorem word_concat {c : Char} {d : ℕ} (hc : digitOf (toLower c) = some d) :
    k.wrap (word k neg base done * base + withSign neg d) = word k neg base (done ++ [c]) := by
  have hval : number digitOf base (done ++ [c]) = number digitOf base done * base + d := by
    rw [number,value_concat,hc,number]
    rfl
  rw [word,word,Kind.wrap_wrap,hval]
  congr 1
  cases neg with
  | true =>
    simp only [withSign,if_true]
    push_cast
    ring
  | false =>
    simp only [withSign,Bool.false_eq_true,if_false]
    push_cast
    ring

/-- Whether the number comes out on the wrong side at a digit. -/
theorem falls_length {c : Char} {rest : Text} : Falls k neg base (done ++ c :: rest) done.length ↔
    if neg then word k neg base done < word k neg base (done ++ [c])
    else word k neg base (done ++ [c]) < word k neg base done := by
  have htake : (done ++ c :: rest).take (done.length + 1) = done ++ [c] := by
    rw [List.append_cons,List.take_left' (by simp)]
  rw [Falls,htake,List.take_left]
  rfl

/-- What the loop does at the first character. -/
theorem loop_cons {c : Char} : (digits digitOf base (c :: str) = [] ∧
      loop k neg base (c :: str) (word k neg base done) = ⟨word k neg base done,false,c :: str⟩) ∨
    digits digitOf base (c :: str) = c :: digits digitOf base str ∧
      loop k neg base (c :: str) (word k neg base done) =
        if Falls k neg base (done ++ c :: digits digitOf base str) done.length then
          ⟨k.limit neg,true,c :: str⟩
        else loop k neg base str (word k neg base (done ++ [c])) := by
  rw [digits_cons,loop]
  cases hc : digitOf (toLower c) with
  | none => exact .inl ⟨by simp,rfl⟩
  | some d =>
    by_cases hd : base ≤ d
    · exact .inl ⟨by simp [hd],by simp only [if_pos hd]⟩
    · right
      refine ⟨by simp [Nat.not_le.mp hd],?_⟩
      simp only [if_neg hd,word_concat hc,falls_length]

/-- Without a wrong turn the loop takes all digits. -/
theorem loop_of_not_falls (h : ∀ i,done.length ≤ i → i < (done ++ digits digitOf base str).length →
    ¬Falls k neg base (done ++ digits digitOf base str) i) :
    loop k neg base str (word k neg base done) =
      ⟨word k neg base (done ++ digits digitOf base str),false,
        str.drop (digits digitOf base str).length⟩ := by
  induction str generalizing done with
  | nil =>
    rw [loop,digits,List.takeWhile_nil,List.append_nil]
    rfl
  | cons c str ih =>
    rcases @loop_cons k neg base str done c with ⟨hds,hrun⟩ | ⟨hds,hrun⟩
    · rw [hrun,hds,List.append_nil]
      rfl
    · rw [hds] at h ⊢
      rw [hrun,if_neg (h _ le_rfl (by simp))]
      rw [List.append_cons done c (digits digitOf base str)] at h ⊢
      rw [ih fun i hi => h i (by rw [List.length_append] at hi; omega)]
      rfl

/-- At the first wrong turn the loop ends. -/
theorem loop_of_falls (hn : n < (digits digitOf base str).length)
    (hfalls : Falls k neg base (done ++ digits digitOf base str) (done.length + n))
    (hfirst : ∀ i < n,¬Falls k neg base (done ++ digits digitOf base str) (done.length + i)) :
    loop k neg base str (word k neg base done) = ⟨k.limit neg,true,str.drop n⟩ := by
  induction str generalizing done n with
  | nil =>
    rw [digits,List.takeWhile_nil] at hn
    exact absurd hn (Nat.not_lt_zero _)
  | cons c str ih =>
    rcases @loop_cons k neg base str done c with ⟨hds,hrun⟩ | ⟨hds,hrun⟩
    · rw [hds] at hn
      exact absurd hn (Nat.not_lt_zero _)
    · rw [hds] at hn hfalls hfirst
      rw [hrun]
      cases n with
      | zero =>
        rw [Nat.add_zero] at hfalls
        rw [if_pos hfalls,List.drop_zero]
      | succ n =>
        have hno := hfirst 0 (Nat.succ_pos _)
        rw [Nat.add_zero] at hno
        rw [if_neg hno]
        rw [List.append_cons done c (digits digitOf base str)] at hfalls hfirst
        have hlen (i : ℕ) : (done ++ [c]).length + i = done.length + (i + 1) := by
          rw [List.length_append,List.length_singleton]
          omega
        rw [ih (Nat.lt_of_succ_lt_succ hn) (hlen n ▸ hfalls)
          (fun i hi => hlen i ▸ hfirst (i + 1) (Nat.succ_lt_succ hi)),List.drop_succ_cons]

/-- How the loop ends, from the beginning. -/
theorem loop_cases (k : Kind) (neg : Bool) (base : ℕ) (str : Text) :
    ((∀ i < (digits digitOf base str).length,¬Falls k neg base (digits digitOf base str) i) ∧
      loop k neg base str 0 = ⟨word k neg base (digits digitOf base str),false,
        str.drop (digits digitOf base str).length⟩) ∨
    ∃ n < (digits digitOf base str).length,Falls k neg base (digits digitOf base str) n ∧
      (∀ i < n,¬Falls k neg base (digits digitOf base str) i) ∧
      loop k neg base str 0 = ⟨k.limit neg,true,str.drop n⟩ := by
  have hzero : word k neg base [] = 0 := by
    have h0 : withSign neg 0 = 0 := by cases neg <;> rfl
    rw [word,number,value_nil,h0,Kind.wrap]
    split_ifs <;> simp [MachineInt.signed,MachineInt.unsigned]
  by_cases h : ∃ n < (digits digitOf base str).length,Falls k neg base (digits digitOf base str) n
  · right
    have hmin := Nat.find_spec h
    refine ⟨Nat.find h,hmin.1,hmin.2,fun i hi hf => ?_,?_⟩
    · exact Nat.find_min h hi ⟨hi.trans hmin.1,hf⟩
    · have hrun := @loop_of_falls k neg base str [] (Nat.find h) hmin.1
        (by rw [List.nil_append,List.length_nil,Nat.zero_add]; exact hmin.2) (by
          intro i hi hf
          rw [List.nil_append,List.length_nil,Nat.zero_add] at hf
          exact Nat.find_min h hi ⟨hi.trans hmin.1,hf⟩)
      rwa [hzero] at hrun
  · left
    have hno : ∀ i < (digits digitOf base str).length,
        ¬Falls k neg base (digits digitOf base str) i := fun i hi hf => h ⟨i,hi,hf⟩
    refine ⟨hno,?_⟩
    have hrun := @loop_of_not_falls k neg base str [] fun i _ hi => hno i hi
    rwa [hzero] at hrun

/-- The function is right exactly for the readable texts. -/
theorem right_iff (hneg : neg = true → k.signed = true) (hbase : 0 < base) :
    Right k neg base str (loop k neg base str 0) ↔ Readable k neg base str := by
  have hpre := digits_prefix base str
  have hlen : (digits digitOf base str).length ≤ str.length :=
    (List.takeWhile_prefix _).length_le
  have hle := hpre.length_le
  have hdrop {i j : ℕ} (hi : i ≤ str.length) (hj : j ≤ str.length)
      (h : str.drop i = str.drop j) : i = j := by
    have := congrArg List.length h
    rw [List.length_drop,List.length_drop] at this
    omega
  have hnum : number digitOf base (digits digitValue base str) ≤
      number digitValue base (digits digitValue base str) :=
    value_le_value fun c _ => count_le c
  rw [Right,Readable]
  by_cases hfits : k.Fits neg (number digitValue base (digits digitValue base str))
  · rw [if_pos hfits,if_pos hfits]
    constructor
    · intro hright
      rcases loop_cases k neg base str with ⟨-,hrun⟩ | ⟨n,-,-,-,hrun⟩
      · rw [hrun,Parsed.mk.injEq] at hright
        obtain ⟨hword,-,hrest⟩ := hright
        have heq : digits digitValue base str = digits digitOf base str :=
          hpre.eq_of_length (hdrop hlen (hle.trans hlen) hrest).symm
        rw [← heq] at hword ⊢
        rw [word,Kind.wrap_of_fits hneg (hfits.mono hnum)] at hword
        have hval : number digitOf base (digits digitValue base str) =
            number digitValue base (digits digitValue base str) := by
          cases neg <;> simpa [withSign] using hword
        intro c hc
        refine isDigit_of_count (heq ▸ hc) ?_
        exact eq_of_value_eq hbase (fun c _ => count_le c) hval c hc
      · rw [hrun,Parsed.mk.injEq] at hright
        exact absurd hright.2.1 (by decide)
    · intro hdigits
      have heq := digits_eq hdigits
      have hval : number digitOf base (digits digitOf base str) =
          number digitValue base (digits digitValue base str) := by
        rw [heq]
        refine le_antisymm (value_le_value fun c _ => count_le c) (value_le_value fun c hc => ?_)
        exact (count_eq_of_isDigit (hdigits c hc)).ge
      have hfit (i : ℕ) : word k neg base ((digits digitOf base str).take i) =
          withSign neg (number digitOf base ((digits digitOf base str).take i)) := by
        refine Kind.wrap_of_fits hneg (hfits.mono ?_)
        rw [← hval]
        exact value_take_le _ _ hbase _ _
      rcases loop_cases k neg base str with ⟨-,hrun⟩ | ⟨n,-,hfalls,-,-⟩
      · have hall := hfit (digits digitOf base str).length
        rw [List.take_length] at hall
        rw [hrun,hall,hval,heq]
      · have hmono : number digitOf base ((digits digitOf base str).take n) ≤
            number digitOf base ((digits digitOf base str).take (n + 1)) := by
          have := value_take_le base (count digitOf) hbase
            ((digits digitOf base str).take (n + 1)) n
          rwa [List.take_take,Nat.min_eq_left (Nat.le_succ n)] at this
        rw [Falls] at hfalls
        have h₀ := hfit n
        have h₁ := hfit (n + 1)
        rw [word] at h₀ h₁
        rw [h₀,h₁] at hfalls
        cases neg with
        | true =>
          simp only [withSign,if_true] at hfalls
          omega
        | false =>
          simp only [withSign,Bool.false_eq_true,if_false] at hfalls
          omega
  · rw [if_neg hfits,if_neg hfits]
    constructor
    · rintro ⟨-,herange,n,hn,hrest⟩
      rcases loop_cases k neg base str with ⟨-,hrun⟩ | ⟨m,hm,hfalls,-,hrun⟩
      · rw [hrun] at herange
        cases herange
      · rw [hrun] at hrest
        obtain rfl := hdrop (hm.le.trans hlen) (hn.trans (hle.trans hlen)) hrest
        exact ⟨m,hm,hn,hfalls⟩
    · rintro ⟨n,hn,hle',hfalls⟩
      rcases loop_cases k neg base str with ⟨hno,-⟩ | ⟨m,hm,-,hfirst,hrun⟩
      · exact absurd hfalls (hno n hn)
      · rw [hrun]
        refine ⟨rfl,rfl,m,?_,rfl⟩
        by_contra hlt
        exact hfirst n (by omega) hfalls

end Loop

section Functions

variable {k : Kind} {str : Text} {base : ℕ}

/-- Only the functions with a sign take one. -/
theorem takeSign_neg {signed : Bool} (h : (takeSign signed str).1 = true) : signed = true := by
  cases signed with
  | true => rfl
  | false => cases h

/-- The base that is used is not zero. -/
theorem takePrefix_pos (hbase : base = 0 ∨ 2 ≤ base) : 0 < (takePrefix base str).1 := by
  rw [takePrefix]
  split_ifs with h₁ h₂ h₃ h₄
  · exact Nat.succ_pos _
  · exact Nat.succ_pos _
  · exact Nat.succ_pos _
  · exact Nat.succ_pos _
  · exact Nat.lt_of_lt_of_le (by decide) (hbase.resolve_left h₃)

/-- The sign is taken by the functions with a sign only, and the base is not zero. -/
theorem start_spec (hbase : base = 0 ∨ 2 ≤ base) {neg : Bool} {base' : ℕ} {str' : Text}
    (h : start k str base = some (neg,base',str')) :
    (neg = true → k.signed = true) ∧ 0 < base' := by
  rw [start] at h
  cases hs : skip k.signed str with
  | none =>
    rw [hs] at h
    cases h
  | some t =>
    rw [hs] at h
    obtain ⟨hneg,hrest₀⟩ : (takeSign k.signed t).1 = neg ∧
        takePrefix base (takeSign k.signed t).2 = (base',str') := by
      simpa using h
    refine ⟨fun hn => takeSign_neg (hneg.trans hn),?_⟩
    have hpos := @takePrefix_pos (takeSign k.signed t).2 base hbase
    rwa [hrest₀] at hpos

/-- A function for a type is right exactly where there is something to start at, and the text
there is readable. -/
theorem parses_iff (hbase : base = 0 ∨ 2 ≤ base) : Parses k str base (toNumber k str base) ↔
    ∃ neg base' str',start k str base = some (neg,base',str') ∧ Readable k neg base' str' := by
  rw [Parses,toNumber]
  cases hs : start k str base with
  | none =>
    constructor
    · rintro ⟨p,-,_,_,_,h,-⟩
      cases h
    · rintro ⟨_,_,_,h,-⟩
      cases h
  | some r =>
    obtain ⟨neg,base',str'⟩ := r
    obtain ⟨hneg,hpos⟩ := start_spec hbase hs
    constructor
    · rintro ⟨p,hp,_,_,_,h,hright⟩
      obtain ⟨rfl,rfl,rfl⟩ : neg = _ ∧ base' = _ ∧ str' = _ := by simpa using h
      obtain rfl : loop k neg base' str' 0 = p := by simpa using hp
      exact ⟨_,_,_,rfl,(right_iff hneg hpos).mp hright⟩
    · rintro ⟨_,_,_,h,hread⟩
      obtain ⟨rfl,rfl,rfl⟩ : neg = _ ∧ base' = _ ∧ str' = _ := by simpa using h
      exact ⟨_,rfl,_,_,_,rfl,(right_iff hneg hpos).mpr hread⟩

/-- A text that is not readable is read wrong. -/
theorem not_parses {neg : Bool} {b : ℕ} {t : Text} (hbase : base = 0 ∨ 2 ≤ base)
    (hs : start k str base = some (neg,b,t)) (h : ¬Readable k neg b t) :
    ¬Parses k str base (toNumber k str base) := by
  rw [parses_iff hbase]
  rintro ⟨neg',b',t',hs',hread⟩
  rw [hs] at hs'
  obtain ⟨rfl,rfl,rfl⟩ : neg = neg' ∧ b = b' ∧ t = t' := by simpa using hs'
  exact h hread

/-- The four functions are right exactly for the readable texts. -/
theorem numbers_parsed (hbase : base = 0 ∨ 2 ≤ base ∧ base ≤ 36) :
    (Parses long str base (toLong str base) ↔
      ∃ neg b t,start long str base = some (neg,b,t) ∧ Readable long neg b t) ∧
    (Parses unsignedLong str base (toULong str base) ↔
      ∃ neg b t,start unsignedLong str base = some (neg,b,t) ∧ Readable unsignedLong neg b t) ∧
    (Parses longLong str base (toLLong str base) ↔
      ∃ neg b t,start longLong str base = some (neg,b,t) ∧ Readable longLong neg b t) ∧
    (Parses unsignedLongLong str base (toULLong str base) ↔
      ∃ neg b t,start unsignedLongLong str base = some (neg,b,t) ∧
        Readable unsignedLongLong neg b t) :=
  have h : base = 0 ∨ 2 ≤ base := hbase.imp_right And.left
  ⟨parses_iff h,parses_iff h,parses_iff h,parses_iff h⟩

/-- The smallest number of type long. -/
theorem numbers_parsed_smallest :
    (Parses long "-2147483648".toList 10 (toLong "-2147483648".toList 10) ↔
      ∃ neg b t,start long "-2147483648".toList 10 = some (neg,b,t) ∧ Readable long neg b t) :=
  (@numbers_parsed "-2147483648".toList 10 (by decide)).1

/-- Hexadecimal ff is read as eighty-five, and a decimal number goes on in a letter. A string
without a digit is read on behind its end, and ten thousand million is not noticed to be too
large. -/
theorem letters_count_from_zero :
    (∃ p,toULong "0xff".toList 0 = some p ∧ p.value = 85) ∧
    ¬Parses unsignedLong "0xff".toList 0 (toULong "0xff".toList 0) ∧
    (∃ p,toLong "12a".toList 10 = some p ∧ p.value = 120) ∧
    ¬Parses long "12a".toList 10 (toLong "12a".toList 10) ∧
    ¬Parses long [] 10 (toLong [] 10) ∧
    (∃ p,toULong "10000000000".toList 10 = some p ∧ p.value = 1410065408 ∧ p.erange = false) ∧
    ¬Parses unsignedLong "10000000000".toList 10 (toULong "10000000000".toList 10) := by
  refine ⟨⟨_,rfl,by decide⟩,?_,⟨_,rfl,by decide⟩,?_,?_,
    ⟨_,rfl,by decide,by decide⟩,?_⟩
  · exact @not_parses _ _ _ false 16 ['f','f'] (by decide) rfl (by decide)
  · exact @not_parses _ _ _ false 10 ['1','2','a'] (by decide) rfl (by decide)
  · rintro ⟨p,hp,-⟩
    cases hp
  · exact @not_parses _ _ _ false 10 "10000000000".toList (by decide) rfl (by decide)

end Functions

end WootOs.NumberParsing
