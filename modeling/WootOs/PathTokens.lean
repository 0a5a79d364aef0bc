import WootOs.ObjectTree
import Mathlib.Data.List.TakeWhile

/-!
# The tokens of a path

A path is cut into tokens at its separators. Where the text that is still to be
read begins with a quotation mark, the next token goes from behind the marks to the
next mark instead, whatever stands between them. That is for command lines, but
paths are cut by the same class.

A path has quoted tokens exactly when it begins with a quotation mark or one comes
right behind the first separator after a component. Without them the tokens are the
components of the path; with them at least one quotation mark is in no token.
-/

namespace WootOs.PathTokens

open ObjectTree (Text)

/-- The quotation mark. -/
def quotationMark : Char := Char.ofNat 34

/-- PATH_SEPARATORS, a slash or a backslash. -/
def separator (c : Char) : Bool := c == '/' || c == Char.ofNat 92

/-- Tokenizer::Token. -/
structure Token where
  /-- The text. -/
  text : Text
  /-- Where it stands in the string. -/
  offset : ℕ

/-- String::Tokenize: how many delimiters are skipped, the token and what comes behind it and
one delimiter. -/
def tokenize (delim : Char → Bool) (str : Text) : Option (ℕ × Text × Text) :=
  let s := str.dropWhile delim
  if s = [] then none
  else some (str.length - s.length,s.takeWhile fun c => !delim c,
    (s.dropWhile fun c => !delim c).tail)

/-- The delimiters for the text that is still to be read. -/
def delims (str : Text) : Char → Bool :=
  if str.head? = some quotationMark then (· == quotationMark) else separator

/-- The loop of the constructor of Tokenizer without a bound on the number of tokens. -/
def tokensFrom : ℕ → ℕ → Text → List Token
  | 0,_,_ => []
  | n + 1,offset,str =>
    match tokenize (delims str) str with
    | none => []
    | some (skipped,text,nextp) =>
      ⟨text,offset + skipped⟩ :: tokensFrom n (offset + skipped + text.length + 1) nextp

/-- Tokenizer, for a path. There are no more tokens than characters. -/
def tokens (str : Text) : List Token := tokensFrom str.length 0 str

/-- The texts of the tokens. -/
def texts (str : Text) : List Text := (tokens str).map Token.text

/-- The components of a path, without regard to quotation marks. -/
def components (path : Text) : List Text := (path.splitOnP separator).filter (· ≠ [])

/-- Some token of a path is read as quoted. -/
def Quoted (path : Text) : Prop :=
  path[0]? = some quotationMark ∨ ∃ (n : ℕ) (x y : Char),path[n]? = some x ∧
    separator x = false ∧ path[n + 1]? = some y ∧ separator y = true ∧
    path[n + 2]? = some quotationMark

/-- A path is a part to be skipped, a token and what comes behind it. -/
structure Cut (delim : Char → Bool) (str skip tok tail : Text) : Prop where
  /-- The parts make up the path. -/
  parts : str = skip ++ tok ++ tail
  /-- Delimiters are skipped. -/
  skips : ∀ c ∈ skip,delim c = true
  /-- There is a token. -/
  token : tok ≠ []
  /-- It has no delimiter. -/
  keeps : ∀ c ∈ tok,delim c = false
  /-- It ends with the path or at a delimiter. -/
  ends : ∀ c ∈ tail.head?,delim c = true

/-- A path has only delimiters, or a first token can be cut off. -/
theorem cut_cases (delim : Char → Bool) (str : Text) :
    (∀ c ∈ str,delim c = true) ∨ ∃ skip tok tail,Cut delim str skip tok tail := by
  have whole := List.takeWhile_append_dropWhile (p := delim) (l := str)
  have first := List.takeWhile_append_dropWhile (p := fun c => !delim c)
    (l := str.dropWhile delim)
  cases hs : str.dropWhile delim with
  | nil =>
    refine .inl fun c hc => List.mem_takeWhile_imp (p := delim) (l := str) ?_
    rw [hs,List.append_nil] at whole
    rwa [whole]
  | cons c s =>
    have hc : delim c = false := by
      have := List.head?_dropWhile_not delim str
      simpa [hs] using this
    refine .inr ⟨str.takeWhile delim,(c :: s).takeWhile fun c => !delim c,
      (c :: s).dropWhile fun c => !delim c,?_,fun c => List.mem_takeWhile_imp,?_,?_,?_⟩
    · rw [List.append_assoc,List.takeWhile_append_dropWhile,← hs,whole]
    · simp [hc]
    · intro d hd
      simpa using List.mem_takeWhile_imp hd
    · intro d hd
      have := List.head?_dropWhile_not (fun c => !delim c) (c :: s)
      rw [Option.mem_def.mp hd] at this
      simpa using this

section Reading

variable {delim : Char → Bool} {str skip tok tail : Text}

/-- Taking what has some property from a part that has it and then something that has not. -/
theorem takeWhile_part {p : Char → Bool} {w r : Text} (hw : ∀ c ∈ w,p c = true)
    (hr : ∀ c ∈ r.head?,p c = false) :
    (w ++ r).takeWhile p = w ∧ (w ++ r).dropWhile p = r := by
  rw [List.takeWhile_append_of_pos hw,List.dropWhile_append_of_pos hw]
  cases r with
  | nil => simp
  | cons c r => simp [hr c rfl]

/-- String::Tokenize finds the token that is cut off. -/
theorem tokenize_of_cut (h : Cut delim str skip tok tail) :
    tokenize delim str = some (skip.length,tok,tail.tail) := by
  obtain ⟨c,t,rfl⟩ := List.exists_cons_of_ne_nil h.token
  have behind := takeWhile_part (w := skip) (r := c :: t ++ tail) h.skips
    (by simpa using h.keeps c (by simp))
  have inside := takeWhile_part (p := fun c => !delim c) (w := c :: t) (r := tail)
    (by simpa using h.keeps) (by simpa using h.ends)
  rw [h.parts,List.append_assoc,tokenize]
  simp only [behind.2,inside.1,inside.2]
  simp

/-- It finds none in delimiters. -/
theorem tokenize_of_all (h : ∀ c ∈ str,delim c = true) : tokenize delim str = none := by
  simpa [tokenize] using h

/-- What is behind a token is shorter. -/
theorem Cut.length_lt (h : Cut delim str skip tok tail) : tail.tail.length<str.length := by
  have := List.length_pos_iff.mpr h.token
  rw [h.parts]
  simp only [List.length_append,List.length_tail]
  omega

/-- Paths are cut from the front until only delimiters are left, which may differ from one
token to the next. -/
theorem cut_induction (del : Text → Char → Bool) {P : Text → Prop}
    (done : ∀ str,(∀ c ∈ str,del str c = true) → P str)
    (cut : ∀ str skip tok tail,Cut (del str) str skip tok tail → P tail.tail → P str)
    (str : Text) : P str := by
  induction hn : str.length using Nat.strong_induction_on generalizing str with
  | _ n ih =>
    rcases cut_cases (del str) str with h | ⟨skip,tok,tail,h⟩
    · exact done str h
    · exact cut str skip tok tail h (ih _ (hn ▸ h.length_lt) tail.tail rfl)

/-- A token further on. -/
def Token.shift (k : ℕ) (t : Token) : Token := ⟨t.text,k + t.offset⟩

/-- A turn of the loop. -/
theorem tokensFrom_succ (n offset : ℕ) (str : Text) : tokensFrom (n + 1) offset str =
    match tokenize (delims str) str with
    | none => []
    | some (skipped,text,nextp) =>
      ⟨text,offset + skipped⟩ :: tokensFrom n (offset + skipped + text.length + 1) nextp :=
  rfl

/-- The loop finds no token in delimiters. -/
theorem tokensFrom_of_all (h : ∀ c ∈ str,delims str c = true) (n k : ℕ) :
    tokensFrom n k str = [] := by
  cases n with
  | zero => rfl
  | succ n => rw [tokensFrom_succ,tokenize_of_all h]

/-- The loop finds the same tokens with enough turns, from where it starts. -/
theorem tokensFrom_eq (str : Text) (n k : ℕ) (h : str.length ≤ n) :
    tokensFrom n k str = (tokens str).map (Token.shift k) := by
  induction str using cut_induction delims generalizing n k with
  | done str all =>
    rw [tokens,tokensFrom_of_all all,tokensFrom_of_all all,List.map_nil]
  | cut str skip tok tail hc ih =>
    have hl := hc.length_lt
    have some (n k : ℕ) (h : str.length ≤ n) : tokensFrom n k str = ⟨tok,k + skip.length⟩ ::
        (tokens tail.tail).map (Token.shift (k + skip.length + tok.length + 1)) := by
      obtain ⟨n,rfl⟩ := Nat.exists_eq_succ_of_ne_zero (n := n) (by omega)
      simp only [tokensFrom_succ,tokenize_of_cut hc,ih n _ (by omega)]
    rw [tokens,some n k h,some _ 0 (le_refl _)]
    simp [Token.shift,Function.comp_def,Nat.add_assoc]

/-- The tokens of a path whose first token is cut off. -/
theorem tokens_of_cut (h : Cut (delims str) str skip tok tail) :
    tokens str = ⟨tok,skip.length⟩ ::
      (tokens tail.tail).map (Token.shift (skip.length + tok.length + 1)) := by
  have hl := h.length_lt
  obtain ⟨n,hn⟩ := Nat.exists_eq_succ_of_ne_zero (n := str.length) (by omega)
  rw [tokens,hn,tokensFrom_succ,tokenize_of_cut h]
  simp only
  rw [tokensFrom_eq _ n _ (by omega)]
  simp

/-- Delimiters have no tokens. -/
theorem tokens_of_all (h : ∀ c ∈ str,delims str c = true) : tokens str = [] :=
  tokensFrom_of_all h _ _

/-- The texts of a path whose first token is cut off. -/
theorem texts_of_cut (h : Cut (delims str) str skip tok tail) :
    texts str = tok :: texts tail.tail := by
  simp [texts,tokens_of_cut h,Token.shift,Function.comp_def]

/-- Separators have no components. -/
theorem components_of_all (h : ∀ c ∈ str,separator c = true) : components str = [] := by
  induction str with
  | nil => rfl
  | cons c str ih =>
    rw [components,List.splitOnP_cons_eq_if_modifyHead,if_pos (h c (by simp))]
    exact ih fun d hd => h d (by simp [hd])

/-- Separators at the front do not matter. -/
theorem components_append_of_all (h : ∀ c ∈ skip,separator c = true) :
    components (skip ++ str) = components str := by
  induction skip with
  | nil => rfl
  | cons c skip ih =>
    rw [List.cons_append,components,List.splitOnP_cons_eq_if_modifyHead,if_pos (h c (by simp))]
    exact ih fun d hd => h d (by simp [hd])

/-- The components of a path whose first one is cut off. -/
theorem components_of_cut (h : Cut separator str skip tok tail) :
    components str = tok :: components tail.tail := by
  rw [h.parts,List.append_assoc,components_append_of_all h.skips]
  cases tail with
  | nil =>
    rw [List.append_nil,components,List.splitOnP_eq_singleton h.keeps]
    simp [components,h.token]
  | cons d tail =>
    rw [components,List.splitOnP_append_cons_of_forall_mem h.keeps d (h.ends d rfl)]
    simp [components,h.token]

/-- A character that is no delimiter is either in the token or behind it. -/
theorem Cut.count_eq (h : Cut delim str skip tok tail) {a : Char} (ha : delim a = false) :
    str.count a = tok.count a + tail.tail.count a := by
  have skipped : skip.count a = 0 := List.count_eq_zero.mpr fun hm => by
    simp [h.skips a hm] at ha
  rw [h.parts,List.count_append,List.count_append,skipped,Nat.zero_add]
  cases tail with
  | nil => rfl
  | cons d tail =>
    have : d ≠ a := by
      rintro rfl
      simp [h.ends d rfl] at ha
    simp [this]

/-- The token and what is behind it have no more of a character than the path. -/
theorem Cut.count_le (h : Cut delim str skip tok tail) (a : Char) :
    tok.count a + tail.tail.count a ≤ str.count a := by
  rw [h.parts,List.count_append,List.count_append]
  have := (List.tail_sublist tail).count_le a
  omega

/-- A character that is no separator is in the components as often as in the path. -/
theorem count_components {a : Char} (ha : separator a = false) (str : Text) :
    (components str).flatten.count a = str.count a := by
  induction str using cut_induction fun _ => separator with
  | done str all =>
    rw [components_of_all all]
    refine (List.count_eq_zero.mpr fun hm => ?_).symm
    simp [all a hm] at ha
  | cut str skip tok tail h ih =>
    rw [components_of_cut h,List.flatten_cons,List.count_append,ih,h.count_eq ha]

/-- No character is in the tokens more often than in the path. -/
theorem count_texts_le (a : Char) (str : Text) : (texts str).flatten.count a ≤ str.count a := by
  induction str using cut_induction delims with
  | done str all => simp [texts,tokens_of_all all]
  | cut str skip tok tail h ih =>
    rw [texts_of_cut h,List.flatten_cons,List.count_append]
    have := h.count_le a
    omega

/-- A character that is neither a separator nor a quotation mark is in the tokens as often as
in the path. -/
theorem count_texts {a : Char} (ha : separator a = false) (hq : a ≠ quotationMark) (str : Text) :
    (texts str).flatten.count a = str.count a := by
  have other (str : Text) : delims str a = false := by
    simp only [delims]
    split_ifs
    · simpa using hq
    · exact ha
  induction str using cut_induction delims with
  | done str all =>
    have : a ∉ str := fun hm => by simpa [other] using all a hm
    simp [texts,tokens_of_all all,List.count_eq_zero.mpr this]
  | cut str skip tok tail h ih =>
    rw [texts_of_cut h,List.flatten_cons,List.count_append,ih,h.count_eq (other str)]

end Reading

section Quotes

variable {str skip tok tail : Text}

/-- A path that does not begin with a quotation mark has quoted tokens exactly when what is
behind its first component has. -/
theorem quoted_of_cut (h : Cut separator str skip tok tail) (hq : str.head? ≠ some quotationMark) :
    Quoted str ↔ Quoted tail.tail := by
  have front : str[0]? ≠ some quotationMark := by rwa [← List.head?_eq_getElem?]
  have before (n : ℕ) (hn : n<skip.length) : str[n]? = skip[n]? := by
    rw [h.parts,List.append_assoc,List.getElem?_append_left hn]
  have inside (n : ℕ) (hn : skip.length ≤ n) (hm : n<skip.length + tok.length) :
      str[n]? = tok[n - skip.length]? := by
    rw [h.parts,List.append_assoc,List.getElem?_append_right hn,List.getElem?_append_left (by omega)]
  have behind (n : ℕ) (hn : skip.length + tok.length ≤ n) :
      str[n]? = tail[n - (skip.length + tok.length)]? := by
    rw [h.parts,List.getElem?_append_right (by simpa using hn),List.length_append]
  have next (n : ℕ) : tail[n + 1]? = tail.tail[n]? := by simp
  have size := List.length_pos_iff.mpr h.token
  have keeps {n : ℕ} {c : Char} (hc : tok[n]? = some c) : separator c = false :=
    h.keeps c (List.mem_of_getElem? hc)
  constructor
  · rintro (hs | ⟨n,x,y,hx,sx,hy,sy,hq⟩)
    · exact absurd hs front
    · rcases lt_trichotomy (n + 1) (skip.length + tok.length) with hlt | heq | hgt
      · by_cases hn : n<skip.length
        · rw [before n hn] at hx
          simp [h.skips x (List.mem_of_getElem? hx)] at sx
        · rw [inside (n + 1) (by omega) hlt] at hy
          simp [keeps hy] at sy
      · rw [behind (n + 2) (by omega),← heq,show n + 2 - (n + 1) = 0 + 1 by omega,next] at hq
        exact .inl hq
      · rw [behind n (by omega)] at hx
        obtain heq | hpos := Nat.eq_zero_or_pos (n - (skip.length + tok.length))
        · rw [heq,← List.head?_eq_getElem?] at hx
          simp [h.ends x hx] at sx
        · obtain ⟨k,hk⟩ := Nat.exists_eq_add_of_lt hpos
          rw [behind (n + 1) (by omega)] at hy
          rw [behind (n + 2) (by omega)] at hq
          rw [show n - (skip.length + tok.length) = k + 1 by omega,next] at hx
          rw [show n + 1 - (skip.length + tok.length) = k + 1 + 1 by omega,next] at hy
          rw [show n + 2 - (skip.length + tok.length) = k + 2 + 1 by omega,next] at hq
          exact .inr ⟨k,x,y,hx,sx,hy,sy,hq⟩
  · have shifted (n : ℕ) : str[n + (skip.length + tok.length + 1)]? = tail.tail[n]? := by
      rw [behind _ (by omega),← next]
      congr 1
      omega
    rintro (hs | ⟨n,x,y,hx,sx,hy,sy,hq⟩)
    · obtain ⟨d,hd⟩ : ∃ d,tail[0]? = some d := by
        cases tail with
        | nil => simp at hs
        | cons d tail => exact ⟨d,rfl⟩
      obtain ⟨x,hx⟩ : ∃ x,tok[tok.length - 1]? = some x :=
        ⟨_,List.getElem?_eq_getElem (by omega)⟩
      refine .inr ⟨skip.length + tok.length - 1,x,d,?_,keeps hx,?_,?_,?_⟩
      · rw [inside _ (by omega) (by omega),← hx]
        congr 1
        omega
      · rw [behind _ (by omega),← hd]
        congr 1
        omega
      · exact h.ends d (by rw [List.head?_eq_getElem?]; exact hd)
      · rw [← hs,← shifted 0]
        congr 1
        omega
    · refine .inr ⟨n + (skip.length + tok.length + 1),x,y,?_,sx,?_,sy,?_⟩
      · rw [shifted,hx]
      · rw [← hy,← shifted (n + 1)]
        congr 1
        omega
      · rw [← hq,← shifted (n + 2)]
        congr 1
        omega

/-- Without quoted tokens the tokens are the components. -/
theorem texts_eq_components (h : ¬Quoted str) : texts str = components str := by
  induction str using cut_induction fun _ => separator with
  | done str all =>
    have front : str.head? ≠ some quotationMark := by
      intro e
      exact h (.inl (by rwa [← List.head?_eq_getElem?]))
    have same : delims str = separator := by simp [delims,front]
    rw [texts,tokens_of_all (by rwa [same]),components_of_all all]
    rfl
  | cut str skip tok tail hc ih =>
    have front : str.head? ≠ some quotationMark := by
      intro e
      exact h (.inl (by rwa [← List.head?_eq_getElem?]))
    have same : delims str = separator := by simp [delims,front]
    rw [texts_of_cut (by rwa [same]),components_of_cut hc,
      ih fun hq => h ((quoted_of_cut hc front).mpr hq)]

/-- Quotation marks at the front of a path are skipped. -/
theorem Cut.lost (h : Cut (delims str) str skip tok tail)
    (front : str.head? = some quotationMark) : 0<skip.count quotationMark := by
  have marks : delims str = (· == quotationMark) := by simp [delims,front]
  rw [marks] at h
  rw [h.parts] at front
  cases skip with
  | nil =>
    obtain ⟨c,t,rfl⟩ := List.exists_cons_of_ne_nil h.token
    have := h.keeps c (by simp)
    simp_all
  | cons c skip => simp_all

/-- With quoted tokens a quotation mark is lost. -/
theorem count_texts_lt (h : Quoted str) :
    (texts str).flatten.count quotationMark<str.count quotationMark := by
  induction str using cut_induction delims with
  | done str all =>
    have : quotationMark ∈ str := by
      rcases h with hs | ⟨n,x,y,-,-,-,-,hq⟩
      · exact List.mem_of_getElem? hs
      · exact List.mem_of_getElem? hq
    simpa [texts,tokens_of_all all] using List.count_pos_iff.mpr this
  | cut str skip tok tail hc ih =>
    rw [texts_of_cut hc,List.flatten_cons,List.count_append]
    by_cases front : str.head? = some quotationMark
    · have lost := hc.lost front
      have rest := count_texts_le quotationMark tail.tail
      have shorter := (List.tail_sublist tail).count_le quotationMark
      rw [hc.parts,List.count_append,List.count_append]
      omega
    · have same : delims str = separator := by simp [delims,front]
      rw [same] at hc
      have := ih ((quoted_of_cut hc front).mp h)
      have := hc.count_le quotationMark
      omega

/-- What is behind a token and one delimiter, from some place on. -/
theorem Cut.drop_eq {delim : Char → Bool} (h : Cut delim str skip tok tail) (k : ℕ) :
    str.drop (skip.length + tok.length + 1 + k) = tail.tail.drop k := by
  rw [h.parts,Nat.add_assoc,← List.length_append,← List.drop_drop,List.drop_left,Nat.add_comm,
    List.drop_tail]

/-- A path whose tokens are read again from the first one on has its components for tokens
exactly when no token is read as quoted behind the separators at its front. -/
theorem texts_drop {t : Token} {rest : List Token} (h : tokens str = t :: rest) :
    (¬Quoted (str.dropWhile separator) → texts (str.drop t.offset) = components str) ∧
      (Quoted (str.dropWhile separator) →
        (texts (str.drop t.offset)).flatten.count quotationMark<str.count quotationMark) := by
  rcases cut_cases (delims str) str with all | ⟨skip,tok,tail,hc⟩
  · simp [tokens_of_all all] at h
  · obtain rfl : ⟨tok,skip.length⟩ = t := by
      rw [tokens_of_cut hc] at h
      exact (List.cons.inj h).1
    have dropped : str.drop skip.length = tok ++ tail := by
      rw [hc.parts,List.append_assoc,List.drop_left]
    have counted : str.count quotationMark =
        skip.count quotationMark + (tok ++ tail).count quotationMark := by
      rw [hc.parts,List.append_assoc,List.count_append]
    simp only [dropped]
    by_cases front : str.head? = some quotationMark
    · obtain ⟨c,s,rfl⟩ : ∃ c s,str = c :: s := by
        cases str with
        | nil => simp at front
        | cons c s => exact ⟨c,s,rfl⟩
      obtain rfl : c = quotationMark := by simpa using front
      have stays : (quotationMark :: s).dropWhile separator = quotationMark :: s := by
        rw [List.dropWhile_cons_of_neg (by decide)]
      rw [stays]
      refine ⟨fun h => absurd (.inl rfl) h,fun _ => ?_⟩
      have lost := hc.lost front
      have := count_texts_le quotationMark (tok ++ tail)
      omega
    · have same : delims str = separator := by simp [delims,front]
      rw [same] at hc
      have behind : str.dropWhile separator = tok ++ tail := by
        rw [hc.parts,List.append_assoc]
        refine (takeWhile_part hc.skips ?_).2
        obtain ⟨c,s,rfl⟩ := List.exists_cons_of_ne_nil hc.token
        simpa using hc.keeps c (by simp)
      rw [behind]
      refine ⟨fun h => ?_,fun h => ?_⟩
      · rw [texts_eq_components h]
        conv_rhs => rw [hc.parts,List.append_assoc,components_append_of_all hc.skips]
      · have := count_texts_lt h
        omega

/-- A path without components has no tokens. -/
theorem tokens_of_components (h : components str = []) : tokens str = [] := by
  rcases cut_cases separator str with all | ⟨skip,tok,tail,hc⟩
  · refine tokens_of_all fun c hc => ?_
    have : str.head? ≠ some quotationMark := fun e => by
      have := all quotationMark (List.mem_of_mem_head? e)
      exact absurd this (by decide)
    simpa [delims,this] using all c hc
  · simp [components_of_cut hc] at h

/-- Nor has a path without tokens components, if no token behind the separators at its front
is read as quoted. -/
theorem components_of_tokens (h : tokens str = []) (hq : ¬Quoted (str.dropWhile separator)) :
    components str = [] := by
  rcases cut_cases (delims str) str with all | ⟨skip,tok,tail,hc⟩
  · by_cases front : str.head? = some quotationMark
    · obtain ⟨s,rfl⟩ : ∃ s,str = quotationMark :: s := by
        cases str with
        | nil => simp at front
        | cons c s => exact ⟨s,by simpa using front⟩
      rw [List.dropWhile_cons_of_neg (by decide)] at hq
      exact absurd (.inl rfl) hq
    · exact components_of_all (by simpa [delims,front] using all)
  · simp [tokens_of_cut hc] at h

end Quotes

end WootOs.PathTokens
