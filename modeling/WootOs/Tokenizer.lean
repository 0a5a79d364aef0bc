import WootOs.PathTokens

/-!
# Cutting a string into tokens

A string is copied and cut at delimiters. Where the text that is still to be read
begins with a quotation mark, the mark is the delimiter of the next token. With a
bound on the number of tokens the last one is the rest of the string, without the
delimiters in front of it. The rest begins where the previous token left off, and
without a previous token there is none.

Without quotation marks the tokens are the longest parts of the string that have no
delimiter, and the rest behind as many of them as the bound leaves, unless the bound
leaves none of them.
-/

namespace WootOs.Tokenizer

open ObjectTree (Text)
open PathTokens (Token tokenize Cut quotationMark)

/-- The delimiters for the text that is still to be read. -/
def delimsAt (delims str : Text) (c : Char) : Bool :=
  if str.head? = some quotationMark then c == quotationMark else delims.contains c

/-- The rest of the copy as a token. It reaches to the end of the copy. -/
def tailToken (delims string nextp : Text) : Token :=
  ⟨nextp.dropWhile delims.contains,
    string.length - (nextp.dropWhile delims.contains).length⟩

/-- The loop of the constructor of Tokenizer, in its turn i. There is no text that is still to
be read before the first turn. -/
def tokensFrom (string delims : Text) (maxTokens : ℕ) : ℕ → ℕ → Option Text → List Token
  | 0,_,_ => []
  | n + 1,i,nextp =>
    if maxTokens ≠ 0 ∧ maxTokens - 1 ≤ i then
      match nextp with
      | none => []
      | some s => [tailToken delims string s]
    else
      let str := nextp.getD string
      match tokenize (delimsAt delims str) str with
      | none => []
      | some (skipped,text,next) => ⟨text,string.length - str.length + skipped⟩ ::
          tokensFrom string delims maxTokens n (i + 1) (some next)

/-- Tokenizer. There are no more tokens than characters, and then the rest. -/
def tokens (string delims : Text) (maxTokens : ℕ) : List Token :=
  tokensFrom string delims maxTokens (string.length + 1) 0 none

/-- A longest part of a string that has no delimiter. -/
structure Maximal (string delims : Text) (t : Token) : Prop where
  /-- It has a character. -/
  token : t.text ≠ []
  /-- It has no delimiter. -/
  keeps : ∀ c ∈ t.text,c ∉ delims
  /-- It stands in the string between the ends of the string or delimiters. -/
  stands : ∃ before behind : Text,string = before ++ t.text ++ behind ∧
    before.length = t.offset ∧ (∀ c ∈ before.getLast?,c ∈ delims) ∧ ∀ c ∈ behind.head?,c ∈ delims

/-- These are all of the longest parts without a delimiter, in their order. -/
structure Pieces (string delims : Text) (all : List Token) : Prop where
  /-- One begins behind the other. -/
  sorted : all.Pairwise fun t u => t.offset<u.offset
  /-- They are the longest parts. -/
  members : ∀ t : Token,t ∈ all ↔ Maximal string delims t

/-- What is still to be read behind some tokens and one delimiter, when the reading starts with
a part of the string. -/
def textBehind (string start : Text) (found : List Token) : Text :=
  match found.getLast? with
  | none => start
  | some t => string.drop (t.offset + t.text.length + 1)

/-- Without a bound all of the longest parts are delivered. With one it is one less than the
bound and, where there are as many, the rest behind them. -/
def Delivers (string delims : Text) (maxTokens : ℕ) (result : List Token) : Prop :=
  ∃ all : List Token,Pieces string delims all ∧ result = if maxTokens = 0 then all else
    all.take (maxTokens - 1) ++ if maxTokens - 1 ≤ all.length then
      [tailToken delims string (textBehind string string (all.take (maxTokens - 1)))] else []

/-- A token can begin at a place when there is no character before it or a delimiter. -/
def Border (string delims : Text) (p : ℕ) : Prop :=
  ∀ n : ℕ,p = n + 1 → ∀ c ∈ string[n]?,c ∈ delims

section Places

variable {string delims rest skip tok tail : Text} {p : ℕ}

/-- The longest parts by their place: a character that is no delimiter, behind a border, and
all that follows up to a delimiter. -/
theorem maximal_iff (t : Token) : Maximal string delims t ↔
    (∃ c,string[t.offset]? = some c ∧ c ∉ delims) ∧ Border string delims t.offset ∧
      t.text = (string.drop t.offset).takeWhile fun c => !delims.contains c := by
  constructor
  · rintro ⟨token,keeps,before,behind,whole,place,left,right⟩
    obtain ⟨c,s,hs⟩ := List.exists_cons_of_ne_nil token
    have front : string.drop t.offset = t.text ++ behind := by
      rw [whole,← place,List.append_assoc,List.drop_left]
    refine ⟨⟨c,?_,keeps c (by simp [hs])⟩,?_,?_⟩
    · rw [← Nat.add_zero t.offset,← List.getElem?_drop,front,hs]
      rfl
    · intro n hn c hc
      rw [whole,List.append_assoc,List.getElem?_append_left (by omega)] at hc
      refine left c ?_
      rwa [List.getLast?_eq_getElem?,place,hn,Nat.add_sub_cancel]
    · rw [front]
      exact (PathTokens.takeWhile_part (by simpa using keeps) (by simpa using right)).1.symm
  · rintro ⟨⟨c,hc,free⟩,border,text⟩
    have size := (List.getElem?_eq_some_iff.mp hc).1
    have behind := List.head?_dropWhile_not (fun c => !delims.contains c) (string.drop t.offset)
    refine ⟨?_,?_,string.take t.offset,
      (string.drop t.offset).dropWhile fun c => !delims.contains c,?_,?_,?_,?_⟩
    · obtain ⟨_,rfl⟩ := List.getElem?_eq_some_iff.mp hc
      rw [text,List.drop_eq_getElem_cons size,List.takeWhile_cons_of_pos (by simpa using free)]
      exact List.cons_ne_nil _ _
    · intro d hd
      rw [text] at hd
      simpa using List.mem_takeWhile_imp hd
    · rw [text,List.append_assoc,List.takeWhile_append_dropWhile,List.take_append_drop]
    · rw [List.length_take,Nat.min_eq_left size.le]
    · intro d hd
      rw [List.getLast?_eq_getElem?,List.length_take,Nat.min_eq_left size.le] at hd
      obtain hz | ⟨n,hn⟩ : t.offset = 0 ∨ ∃ n,t.offset = n + 1 := by
        cases t.offset with
        | zero => exact .inl rfl
        | succ n => exact .inr ⟨n,rfl⟩
      · simp [hz] at hd
      · refine border n hn d ?_
        rwa [hn,Nat.add_sub_cancel,List.getElem?_take_of_lt (by omega)] at hd
    · intro d hd
      rw [Option.mem_def.mp hd] at behind
      simpa using behind

/-- In a part that can be skipped no token begins. -/
theorem not_maximal_of_all (hp : string.drop p = rest) (h : ∀ c ∈ rest,delims.contains c = true)
    {t : Token} (ht : Maximal string delims t) : ¬p ≤ t.offset := by
  intro hle
  obtain ⟨⟨c,hc,free⟩,-,-⟩ := (maximal_iff t).mp ht
  obtain ⟨j,hj⟩ := Nat.exists_eq_add_of_le hle
  rw [hj,← List.getElem?_drop,hp] at hc
  exact free (by simpa using h c (List.mem_of_getElem? hc))

/-- The place behind a token and one delimiter is a border. -/
theorem border_next (hp : string.drop p = rest) (h : Cut delims.contains rest skip tok tail) :
    Border string delims (p + skip.length + tok.length + 1) := by
  intro n hn c hc
  obtain rfl : n = p + (skip ++ tok).length := by
    simp only [List.length_append]
    omega
  rw [← List.getElem?_drop,hp,h.parts,List.getElem?_append_right (le_refl _),Nat.sub_self,
    ← List.head?_eq_getElem?] at hc
  simpa using h.ends c hc

/-- From there on the rest is still to be read. -/
theorem drop_next {delim : Char → Bool} (hp : string.drop p = rest)
    (h : Cut delim rest skip tok tail) :
    string.drop (p + skip.length + tok.length + 1) = tail.tail := by
  have : p + skip.length + tok.length + 1 = p + (skip ++ tok).length + 1 := by
    simp [Nat.add_assoc]
  rw [this,Nat.add_assoc,← List.drop_drop,hp,h.parts,← List.drop_drop,List.drop_left,List.drop_one]

/-- The first token at a border is the one that is cut off, and the others are behind it. -/
theorem maximal_of_cut (hp : string.drop p = rest) (border : Border string delims p)
    (h : Cut delims.contains rest skip tok tail) (t : Token) :
    Maximal string delims t ∧ p ≤ t.offset ↔ t = ⟨tok,p + skip.length⟩ ∨
      Maximal string delims t ∧ p + skip.length + tok.length + 1 ≤ t.offset := by
  have char (j : ℕ) : string[p + j]? = (skip ++ (tok ++ tail))[j]? := by
    rw [← List.getElem?_drop,hp,h.parts,List.append_assoc]
  have text : (string.drop (p + skip.length)).takeWhile (fun c => !delims.contains c) = tok := by
    rw [← List.drop_drop,hp,h.parts,List.append_assoc,List.drop_left]
    exact (PathTokens.takeWhile_part (by simpa using h.keeps) (by simpa using h.ends)).1
  constructor
  · rintro ⟨ht,hle⟩
    obtain ⟨⟨c,hc,free⟩,front,cut⟩ := (maximal_iff t).mp ht
    obtain ⟨j,hj⟩ := Nat.exists_eq_add_of_le hle
    rw [hj,char] at hc
    rcases lt_trichotomy j skip.length with lt | rfl | gt
    · rw [List.getElem?_append_left lt] at hc
      exact absurd (by simpa using h.skips c (List.mem_of_getElem? hc)) free
    · left
      cases t with
      | mk s o =>
        simp only at hj cut
        rw [cut,hj,text]
    · right
      refine ⟨ht,?_⟩
      by_contra short
      obtain ⟨d,hd⟩ : ∃ d,tok[j - 1 - skip.length]? = some d :=
        ⟨_,List.getElem?_eq_getElem (by omega)⟩
      have inside := h.keeps d (List.mem_of_getElem? hd)
      have before := front (p + (j - 1)) (by omega) d (by
        rw [char,List.getElem?_append_right (by omega),List.getElem?_append_left (by omega)]
        exact hd)
      simp [before] at inside
  · rintro (rfl | ⟨ht,hle⟩)
    · refine ⟨(maximal_iff _).mpr ⟨?_,?_,text.symm⟩,Nat.le_add_right _ _⟩
      · obtain ⟨c,s,hs⟩ := List.exists_cons_of_ne_nil h.token
        refine ⟨c,?_,by simpa using h.keeps c (by simp [hs])⟩
        rw [char,List.getElem?_append_right (le_refl _),hs]
        simp
      · intro n hn c hc
        rcases skip.eq_nil_or_concat' with rfl | ⟨s,d,rfl⟩
        · exact border n (by simpa using hn) c hc
        · obtain rfl : n = p + s.length := by
            simp only [List.length_append,List.length_singleton] at hn
            omega
          refine (by simpa using h.skips c : c ∈ s ++ [d] → c ∈ delims) ?_
          rw [char,List.getElem?_append_left (by simp)] at hc
          exact List.mem_of_getElem? hc
    · exact ⟨ht,by omega⟩

end Places

section Turns

variable {string delims rest skip tok tail : Text} {p : ℕ}

/-- Without quotation marks the delimiters are always the same. -/
theorem delimsAt_eq (hq : quotationMark ∉ rest) : delimsAt delims rest = delims.contains := by
  funext c
  rw [delimsAt,if_neg]
  intro front
  exact hq (List.mem_of_mem_head? front)

/-- The first token, with the others after it. -/
theorem textBehind_cons (start : Text) (t : Token) (found : List Token) :
    textBehind string start (t :: found) =
      textBehind string (string.drop (t.offset + t.text.length + 1)) found := by
  rw [textBehind,textBehind,List.getLast?_cons]
  cases found.getLast? <;> rfl

/-- The turn for the rest. -/
theorem tokensFrom_tail (n i : ℕ) (rest : Text) :
    tokensFrom string delims (i + 1) (n + 1) i (some rest) = [tailToken delims string rest] :=
  if_pos ⟨Nat.succ_ne_zero i,le_rfl⟩

/-- A turn that the bound allows. -/
theorem tokensFrom_more {maxTokens i : ℕ} {nextp : Option Text}
    (more : maxTokens = 0 ∨ i + 1 < maxTokens) (n : ℕ) :
    tokensFrom string delims maxTokens (n + 1) i nextp =
      match tokenize (delimsAt delims (nextp.getD string)) (nextp.getD string) with
      | none => []
      | some (skipped,text,next) =>
        ⟨text,string.length - (nextp.getD string).length + skipped⟩ ::
          tokensFrom string delims maxTokens n (i + 1) (some next) :=
  if_neg (by omega)

/-- A turn with nothing but delimiters, of which the bound leaves one. -/
theorem tokensFrom_of_all {maxTokens i : ℕ} {nextp : Option Text}
    (more : maxTokens = 0 ∨ i + 1 < maxTokens) (n : ℕ)
    (h : ∀ c ∈ nextp.getD string,delimsAt delims (nextp.getD string) c = true) :
    tokensFrom string delims maxTokens (n + 1) i nextp = [] := by
  rw [tokensFrom_more more,PathTokens.tokenize_of_all h]

/-- A turn that cuts off a token. -/
theorem tokensFrom_of_cut {maxTokens i : ℕ} {nextp : Option Text}
    (more : maxTokens = 0 ∨ i + 1 < maxTokens) (n : ℕ)
    (h : Cut (delimsAt delims (nextp.getD string)) (nextp.getD string) skip tok tail) :
    tokensFrom string delims maxTokens (n + 1) i nextp =
      ⟨tok,string.length - (nextp.getD string).length + skip.length⟩ ::
        tokensFrom string delims maxTokens n (i + 1) (some tail.tail) := by
  rw [tokensFrom_more more,PathTokens.tokenize_of_cut h]

/-- The tokens from a border on are the longest parts from there on. A bound cuts them off and
adds the rest. -/
theorem tokensFrom_pieces (hq : quotationMark ∉ string) (rest : Text) :
    ∀ p : ℕ,string.drop p = rest → Border string delims p → ∃ all : List Token,
      all.Pairwise (fun t u => t.offset<u.offset) ∧
      (∀ t : Token,t ∈ all ↔ Maximal string delims t ∧ p ≤ t.offset) ∧
      ∀ (n i : ℕ) (nextp : Option Text),rest.length<n → nextp.getD string = rest →
        tokensFrom string delims 0 n i nextp = all ∧
        ∀ m : ℕ,nextp ≠ none ∨ m ≠ 0 → tokensFrom string delims (i + m + 1) n i nextp =
          all.take m ++ if m ≤ all.length then
            [tailToken delims string (textBehind string rest (all.take m))] else [] := by
  induction rest using PathTokens.cut_induction fun _ => delims.contains with
  | done rest h =>
    intro p hp border
    refine ⟨[],List.Pairwise.nil,fun t => ?_,fun n i nextp hn hs => ?_⟩
    · simpa using fun ht => Nat.not_le.mp (not_maximal_of_all hp h ht)
    · obtain ⟨n,rfl⟩ := Nat.exists_eq_succ_of_ne_zero (n := n) (by omega)
      have same : delimsAt delims rest = delims.contains := delimsAt_eq fun hm =>
        hq (List.mem_of_mem_drop (hp ▸ hm))
      refine ⟨tokensFrom_of_all (.inl rfl) n (by rwa [hs,same]),fun m hm => ?_⟩
      cases m with
      | zero =>
        cases nextp with
        | none => simp at hm
        | some s =>
          obtain rfl : s = rest := hs
          exact tokensFrom_tail n i s
      | succ m => simpa using tokensFrom_of_all (.inr (by omega)) n (by rwa [hs,same])
  | cut rest skip tok tail h ih =>
    intro p hp border
    obtain ⟨all,sorted,members,run⟩ := ih _ (drop_next hp h) (border_next hp h)
    have place : string.length - rest.length + skip.length = p + skip.length := by
      have := h.length_lt
      rw [← hp,List.length_drop] at this ⊢
      omega
    have behind : string.drop (p + skip.length + tok.length + 1) = tail.tail := drop_next hp h
    refine ⟨⟨tok,p + skip.length⟩ :: all,List.pairwise_cons.mpr ⟨fun t ht => ?_,sorted⟩,
      fun t => ?_,fun n i nextp hn hs => ?_⟩
    · have := ((members t).mp ht).2
      simp only
      omega
    · rw [List.mem_cons,members,maximal_of_cut hp border h]
    · obtain ⟨n,rfl⟩ := Nat.exists_eq_succ_of_ne_zero (n := n) (by omega)
      have same : delimsAt delims rest = delims.contains := delimsAt_eq fun hm =>
        hq (List.mem_of_mem_drop (hp ▸ hm))
      have cut : Cut (delimsAt delims (nextp.getD string)) (nextp.getD string) skip tok tail := by
        rwa [hs,same]
      have fuel : tail.tail.length<n := by
        have := h.length_lt
        omega
      refine ⟨?_,fun m hm => ?_⟩
      · rw [tokensFrom_of_cut (.inl rfl) n cut,hs,place,(run n (i + 1) _ fuel rfl).1]
      · cases m with
        | zero =>
          cases nextp with
          | none => simp at hm
          | some s =>
            obtain rfl : s = rest := hs
            exact tokensFrom_tail n i s
        | succ m =>
          have next := (run n (i + 1) (some tail.tail) fuel rfl).2 m (.inl (by simp))
          rw [tokensFrom_of_cut (.inr (by omega)) n cut,hs,place,
            show i + (m + 1) + 1 = i + 1 + m + 1 by omega,next,List.take_succ_cons,
            textBehind_cons,behind]
          simp

/-- The characters of the tokens are characters of the string. -/
theorem tokensFrom_chars (maxTokens n : ℕ) : ∀ (i : ℕ) (nextp : Option Text),
    (∀ c ∈ nextp.getD string,c ∈ string) →
    ∀ t ∈ tokensFrom string delims maxTokens n i nextp,∀ c ∈ t.text,c ∈ string := by
  induction n with
  | zero =>
    intro i nextp _ t ht
    simp [tokensFrom] at ht
  | succ n ih =>
    intro i nextp inside t ht c hc
    by_cases last : maxTokens ≠ 0 ∧ maxTokens - 1 ≤ i
    · cases nextp with
      | none =>
        rw [tokensFrom,if_pos last] at ht
        simp at ht
      | some s =>
        rw [tokensFrom,if_pos last] at ht
        obtain rfl : t = tailToken delims string s := by simpa using ht
        exact inside c ((List.dropWhile_suffix _).mem hc)
    · have more : maxTokens = 0 ∨ i + 1 < maxTokens := by omega
      rcases PathTokens.cut_cases (delimsAt delims (nextp.getD string)) (nextp.getD string) with
        h | ⟨skip,tok,tail,h⟩
      · rw [tokensFrom_of_all more n h] at ht
        simp at ht
      · have part (d : Char) (hd : d ∈ tok ∨ d ∈ tail.tail) : d ∈ string := by
          refine inside d ?_
          rw [h.parts]
          rcases hd with hd | hd
          · simp [hd]
          · simp [List.mem_of_mem_tail hd]
        rw [tokensFrom_of_cut more n h] at ht
        rcases List.mem_cons.mp ht with rfl | ht
        · exact part c (.inl hc)
        · exact ih (i + 1) (some tail.tail) (fun d hd => part d (.inr hd)) t ht c hc

/-- The loop for paths is this loop without a bound, with the separators. -/
theorem tokensFrom_path (n : ℕ) : ∀ (p i : ℕ) (nextp : Option Text),
    string.drop p = nextp.getD string → PathTokens.tokensFrom n p (nextp.getD string) =
      tokensFrom string ['/',Char.ofNat 92] 0 n i nextp := by
  have same (str : Text) : PathTokens.delims str = delimsAt ['/',Char.ofNat 92] str := by
    funext c
    rw [PathTokens.delims,delimsAt]
    split_ifs
    · rfl
    · simp only [PathTokens.separator,List.contains_cons,List.contains_nil,Bool.or_false]
  induction n with
  | zero =>
    intro p i nextp _
    rfl
  | succ n ih =>
    intro p i nextp hp
    rcases PathTokens.cut_cases (delimsAt ['/',Char.ofNat 92] (nextp.getD string))
      (nextp.getD string) with h | ⟨skip,tok,tail,h⟩
    · rw [tokensFrom_of_all (.inl rfl) n h]
      simp only [PathTokens.tokensFrom,same,PathTokens.tokenize_of_all h]
    · have place : string.length - (nextp.getD string).length = p := by
        have := h.length_lt
        rw [← hp,List.length_drop] at this ⊢
        omega
      have next := ih (p + skip.length + tok.length + 1) (i + 1) (some tail.tail)
        (drop_next hp h)
      rw [tokensFrom_of_cut (.inl rfl) n h,place,← next]
      simp only [PathTokens.tokensFrom,same,PathTokens.tokenize_of_cut h]
      rfl

/-- The tokens of a path are those that are separated by slashes and backslashes. -/
theorem path_tokens (string : Text) :
    PathTokens.tokens string = tokens string ['/',Char.ofNat 92] 0 := by
  have more := PathTokens.tokensFrom_eq string (string.length + 1) 0 (Nat.le_succ _)
  have same : PathTokens.Token.shift 0 = id := by
    funext t
    simp [PathTokens.Token.shift]
  rw [same,List.map_id] at more
  rw [← more]
  exact tokensFrom_path (string.length + 1) 0 0 none rfl

end Turns

/-- The longest parts are one list. -/
theorem pieces_unique {string delims : Text} {all others : List Token}
    (h : Pieces string delims all) (ho : Pieces string delims others) : all = others := by
  have distinct {l : List Token} (hl : l.Pairwise fun t u => t.offset<u.offset) : l.Nodup :=
    hl.imp fun {t u} hlt e => by
      rw [e] at hlt
      exact lt_irrefl _ hlt
  have perm : all.Perm others :=
    (List.perm_ext_iff_of_nodup (distinct h.sorted) (distinct ho.sorted)).mpr fun t => by
      rw [h.members,ho.members]
  refine perm.eq_of_pairwise (fun t u _ _ hlt hgt => ?_) h.sorted ho.sorted
  exact absurd hlt hgt.asymm

/-- What is to be delivered is one list. -/
theorem delivers_unique {string delims : Text} {maxTokens : ℕ} {result other : List Token}
    (h : Delivers string delims maxTokens result) (ho : Delivers string delims maxTokens other) :
    result = other := by
  obtain ⟨all,pieces,rfl⟩ := h
  obtain ⟨others,same,rfl⟩ := ho
  rw [pieces_unique pieces same]

/-- Without quotation marks the tokenizer delivers the longest parts, up to its bound and then
the rest, exactly when the bound is not one. -/
theorem delivers_iff {string : Text} (hq : quotationMark ∉ string) (delims : Text)
    (maxTokens : ℕ) :
    Delivers string delims maxTokens (tokens string delims maxTokens) ↔ maxTokens ≠ 1 := by
  obtain ⟨all,sorted,members,run⟩ := @tokensFrom_pieces string delims hq string 0 rfl
    (fun n hn => by simp at hn)
  have pieces : Pieces string delims all := ⟨sorted,fun t => by simp [members]⟩
  obtain ⟨full,bounded⟩ := run (string.length + 1) 0 none (Nat.lt_succ_self _) rfl
  constructor
  · rintro ⟨others,ho,result⟩ rfl
    have none : tokens string delims 1 = [] := by simp [tokens,tokensFrom]
    simp [none] at result
  · intro more
    refine ⟨all,pieces,?_⟩
    cases maxTokens with
    | zero => simpa [tokens] using full
    | succ m =>
      have := bounded m (.inr (by omega))
      rw [Nat.zero_add] at this
      simpa [tokens] using this

/-- Two words with a blank between them, of which the bound leaves one and the rest. -/
theorem delivers_iff_two : (Delivers ['a',' ','b'] [' '] 2 (tokens ['a',' ','b'] [' '] 2) ↔
    2 ≠ 1) ∧ (tokens ['a',' ','b'] [' '] 2).map Token.text = [['a'],['b']] :=
  ⟨delivers_iff (by decide) [' '] 2,by decide⟩

/-- With a bound of one there is no token, not even the rest. -/
theorem nothing_for_one : ¬∀ (string delims : Text) (maxTokens : ℕ),quotationMark ∉ string →
    Delivers string delims maxTokens (tokens string delims maxTokens) := by
  intro h
  obtain ⟨all,-,result⟩ := h ['a',' ','b'] [' '] 1 (by decide)
  have none : tokens ['a',' ','b'] [' '] 1 = [] := rfl
  simp [none] at result

end WootOs.Tokenizer
