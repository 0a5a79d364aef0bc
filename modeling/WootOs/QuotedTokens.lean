import WootOs.Tokenizer

/-!
# Arguments in quotation marks

An argument can be written between quotation marks, so that it can have delimiters or
be empty. The marks count only where the text that is still to be read begins with one.
Behind a word that is so after a single delimiter. Behind an argument between marks
the closing one is taken as the delimiter, and what follows begins with a delimiter.

The arguments are read as they were written exactly when those between marks are not
empty and each of them comes first or a single delimiter behind a word.
-/

namespace WootOs.QuotedTokens

open ObjectTree (Text)
open PathTokens (Token Cut quotationMark)
open Tokenizer

/-- An argument, as it is written. -/
inductive Arg
  /-- Between quotation marks. -/
  | quoted (text : Text)
  /-- As a word. -/
  | word (text : Text)

/-- The argument itself. -/
def Arg.text : Arg → Text
  | .quoted text => text
  | .word text => text

/-- How it is written. -/
def Arg.written : Arg → Text
  | .quoted text => quotationMark :: text ++ [quotationMark]
  | .word text => text

/-- It is between quotation marks. -/
def Arg.isQuoted : Arg → Prop
  | .quoted _ => True
  | .word _ => False

/-- An argument with the delimiters before it. -/
structure Item where
  /-- The delimiters. -/
  gap : Text
  /-- The argument. -/
  arg : Arg

/-- A line of arguments. -/
def line (items : List Item) : Text := items.flatMap fun x => x.gap ++ x.arg.written

/-- An argument that can be written, with delimiters before it. -/
structure Item.Written (delims : Text) (x : Item) : Prop where
  /-- There are only delimiters before it. -/
  gap : ∀ c ∈ x.gap,c ∈ delims
  /-- There is no quotation mark in it. -/
  text : quotationMark ∉ x.arg.text
  /-- A word is not empty and has no delimiter. -/
  word : ¬x.arg.isQuoted → x.arg.text ≠ [] ∧ ∀ c ∈ x.arg.text,c ∉ delims

/-- A line as it can be written. -/
structure Written (delims : Text) (items : List Item) : Prop where
  /-- A quotation mark delimits nothing. -/
  marks : quotationMark ∉ delims
  /-- The arguments can be written. -/
  args : ∀ x ∈ items,x.Written delims
  /-- The line begins with an argument. -/
  first : ∀ x ∈ items.head?,x.gap = []
  /-- The others have delimiters before them. -/
  others : ∀ x ∈ items.tail,x.gap ≠ []

/-- The second of two arguments is no quoted one, or a single delimiter follows a word. -/
def Follows (x y : Item) : Prop := y.arg.isQuoted → ¬x.arg.isQuoted ∧ y.gap.length = 1

/-- A line that is read as it was written. -/
structure Readable (items : List Item) : Prop where
  /-- An argument between quotation marks is not empty. -/
  texts : ∀ x ∈ items,x.arg.isQuoted → x.arg.text ≠ []
  /-- It comes first or a single delimiter behind a word. -/
  chain : items.IsChain Follows

/-- The texts of the tokens. -/
def texts (string delims : Text) : List Text := (tokens string delims 0).map Token.text

/-- What is still to be read of the rest of a line, by what was read before. -/
def unread (before : Option Item) (items : List Item) : Text :=
  match before with
  | some ⟨_,.word _⟩ => (line items).tail
  | _ => line items

section Parts

variable {delims skip text : Text} {delim : Char → Bool}

/-- What is not a delimiter behind delimiters begins a token. -/
theorem cut_behind (h : ∀ c ∈ skip,delim c = true) (ht : text ≠ [])
    (hd : ∀ c ∈ text.head?,delim c = false) : Cut delim (skip ++ text) skip
      (text.takeWhile fun c => !delim c) (text.dropWhile fun c => !delim c) := by
  refine ⟨?_,h,?_,fun c hc => by simpa using List.mem_takeWhile_imp hc,fun c hc => ?_⟩
  · rw [List.append_assoc,List.takeWhile_append_dropWhile]
  · cases text with
    | nil => exact absurd rfl ht
    | cons c t => simp [hd c rfl]
  · have := List.head?_dropWhile_not (fun c => !delim c) text
    rw [Option.mem_def.mp hc] at this
    simpa using this

/-- A line with its first argument. -/
theorem line_cons (x : Item) (items : List Item) :
    line (x :: items) = x.gap ++ (x.arg.written ++ line items) := by
  simp [line]

/-- A line whose arguments all have delimiters before them is empty or begins with one. -/
theorem line_head {items : List Item} (h : ∀ x ∈ items,x.Written delims)
    (hg : ∀ x ∈ items,x.gap ≠ []) : ∀ c ∈ (line items).head?,c ∈ delims := by
  cases items with
  | nil => simp [line]
  | cons x items =>
    obtain ⟨d,s,hs⟩ := List.exists_cons_of_ne_nil (hg x (by simp))
    rw [line_cons,hs]
    intro c hc
    obtain rfl : d = c := by simpa using hc
    exact (h x (by simp)).gap d (by simp [hs])

end Parts

section Reading

variable {string delims : Text} {before : Option Item}

/-- The delimiters before an argument that are still to be read. -/
def leftover (before : Option Item) (x : Item) : Text :=
  match before with
  | some ⟨_,.word _⟩ => x.gap.tail
  | _ => x.gap

/-- Only the first argument has no delimiters before it. -/
def Gaps (before : Option Item) (items : List Item) : Prop :=
  (∀ x ∈ items.head?,x.gap = [] ↔ before = none) ∧ ∀ x ∈ items.tail,x.gap ≠ []

/-- They are delimiters. -/
theorem leftover_mem {x : Item} (h : x.Written delims) : ∀ c ∈ leftover before x,c ∈ delims := by
  intro c hc
  rcases before with _ | ⟨gap,text | text⟩
  · exact h.gap c hc
  · exact h.gap c hc
  · exact h.gap c (List.mem_of_mem_tail hc)

/-- What is still to be read is these, the argument and the rest of the line. -/
theorem unread_cons {x : Item} {items : List Item} (h : Gaps before (x :: items)) :
    unread before (x :: items) = leftover before x ++ (x.arg.written ++ line items) := by
  have gap : before ≠ none → x.gap ≠ [] := fun hb e => hb ((h.1 x rfl).mp e)
  rcases before with _ | ⟨_,text | text⟩
  · exact line_cons x items
  · exact line_cons x items
  · simp only [unread,leftover,line_cons]
    exact List.tail_append_of_ne_nil (gap (by simp))

/-- The rest of a line is read as it was written when none of them is before a quoted
argument and the rest behind this argument is. -/
theorem chain_cons {x : Item} {items : List Item} (h : Gaps before (x :: items)) :
    (before.toList ++ x :: items).IsChain Follows ↔
      (x.arg.isQuoted → leftover before x = []) ∧ (x :: items).IsChain Follows := by
  have gap : before ≠ none → x.gap ≠ [] := fun hb e => hb ((h.1 x rfl).mp e)
  rcases before with _ | ⟨_,text | text⟩
  · have : x.gap = [] := (h.1 x rfl).mpr rfl
    simp [leftover,this]
  · have := gap (by simp)
    simp [leftover,this,Follows,Arg.isQuoted,List.isChain_cons_cons]
  · obtain ⟨c,s,hs⟩ := List.exists_cons_of_ne_nil (gap (by simp))
    simp [leftover,hs,Follows,Arg.isQuoted,List.isChain_cons_cons]

/-- A word is read, and one delimiter behind it. -/
theorem cut_word {x : Item} {items : List Item} {w : Text} (marks : quotationMark ∉ delims)
    (hx : x.Written delims) (hw : x.arg = .word w) (hl : ∀ c ∈ (line items).head?,c ∈ delims) :
    Cut (delimsAt delims (leftover before x ++ (w ++ line items)))
      (leftover before x ++ (w ++ line items)) (leftover before x) w (line items) := by
  have keeps : w ≠ [] ∧ ∀ c ∈ w,c ∉ delims := by
    simpa [hw,Arg.text,Arg.isQuoted] using hx.word
  have free : quotationMark ∉ w := by simpa [hw,Arg.text] using hx.text
  have parts := PathTokens.takeWhile_part (p := fun c => !delims.contains c) (w := w)
    (r := line items) (by simpa using keeps.2) (by simpa using hl)
  have same : delimsAt delims (leftover before x ++ (w ++ line items)) = delims.contains := by
    funext c
    rw [delimsAt,if_neg]
    intro front
    obtain ⟨d,s,rfl⟩ := List.exists_cons_of_ne_nil keeps.1
    cases hg : leftover before x with
    | nil => simp_all
    | cons d s =>
      have := @leftover_mem delims before x hx d (by simp [hg])
      simp_all
  rw [same]
  have := @cut_behind (leftover before x) (w ++ line items) delims.contains
    (by simpa using leftover_mem hx) (by simp [keeps.1]) (by
      obtain ⟨d,s,rfl⟩ := List.exists_cons_of_ne_nil keeps.1
      simpa using keeps.2 d (by simp))
  rwa [parts.1,parts.2] at this

/-- An argument between marks is read, and the closing mark. -/
theorem cut_quoted {t rest : Text} (ht : t ≠ []) (free : quotationMark ∉ t) :
    Cut (delimsAt delims (quotationMark :: t ++ quotationMark :: rest))
      (quotationMark :: t ++ quotationMark :: rest) [quotationMark] t (quotationMark :: rest) := by
  have same : delimsAt delims (quotationMark :: t ++ quotationMark :: rest) =
      (· == quotationMark) := by
    funext c
    simp [delimsAt]
  rw [same]
  refine ⟨by simp,by simp,ht,fun c hc => ?_,by simp⟩
  rw [beq_eq_false_iff_ne]
  rintro rfl
  exact free hc

/-- Behind delimiters the opening mark is part of the token. -/
theorem mark_in_token {x : Item} {rest : Text} (marks : quotationMark ∉ delims)
    (hx : x.Written delims) (hg : leftover before x ≠ []) : ∃ tok tail : Text,
      quotationMark ∈ tok ∧
      Cut (delimsAt delims (leftover before x ++ quotationMark :: rest))
        (leftover before x ++ quotationMark :: rest) (leftover before x) tok tail := by
  have same : delimsAt delims (leftover before x ++ quotationMark :: rest) = delims.contains := by
    funext c
    rw [delimsAt,if_neg]
    intro front
    obtain ⟨d,s,hs⟩ := List.exists_cons_of_ne_nil hg
    have := @leftover_mem delims before x hx d (by simp [hs])
    simp_all
  refine ⟨_,_,?_,by
    rw [same]
    exact cut_behind (by simpa using leftover_mem hx) (by simp) (by simpa using marks)⟩
  rw [List.takeWhile_cons_of_pos (by simpa using marks)]
  exact List.mem_cons_self

/-- The texts of the tokens when the first one is cut off. -/
theorem map_text_of_cut {str skip tok tail : Text} {nextp : Option Text} (n i : ℕ)
    (hs : nextp.getD string = str) (h : Cut (delimsAt delims str) str skip tok tail) :
    (tokensFrom string delims 0 (n + 1) i nextp).map Token.text =
      tok :: (tokensFrom string delims 0 n (i + 1) (some tail.tail)).map Token.text := by
  rw [tokensFrom_of_cut (.inl rfl) n (by rwa [hs]),List.map_cons]

/-- No token is empty. -/
theorem map_text_ne (n i : ℕ) (nextp : Option Text) (others : List Text) :
    (tokensFrom string delims 0 (n + 1) i nextp).map Token.text ≠ [] :: others := by
  rcases PathTokens.cut_cases (delimsAt delims (nextp.getD string)) (nextp.getD string) with
    h | ⟨skip,tok,tail,h⟩
  · simp [tokensFrom_of_all (.inl rfl) n h]
  · rw [map_text_of_cut n i rfl h]
    intro e
    exact h.token (List.cons.inj e).1

/-- The rest of a line is read as it was written exactly when no quoted argument in it is empty
or has delimiters before it that are still to be read. -/
theorem tokensFrom_line (marks : quotationMark ∉ delims) (items : List Item) :
    ∀ (before : Option Item) (n i : ℕ) (nextp : Option Text),
      (∀ x ∈ items,x.Written delims) → Gaps before items →
      nextp.getD string = unread before items → (unread before items).length<n →
      ((tokensFrom string delims 0 n i nextp).map Token.text = items.map (·.arg.text) ↔
        (∀ x ∈ items,x.arg.isQuoted → x.arg.text ≠ []) ∧
          (before.toList ++ items).IsChain Follows) := by
  induction items with
  | nil =>
    intro before n i nextp _ _ hs hn
    have none : unread before [] = [] := by
      rcases before with _ | ⟨_,text | text⟩ <;> rfl
    obtain ⟨n,rfl⟩ := Nat.exists_eq_succ_of_ne_zero (n := n) (by omega)
    rw [tokensFrom_of_all (.inl rfl) n (by simp [hs,none])]
    cases before <;> simp
  | cons x items ih =>
    intro before n i nextp written gaps hs hn
    obtain ⟨n,rfl⟩ := Nat.exists_eq_succ_of_ne_zero (n := n) (by omega)
    have hx := written x (by simp)
    have later : Gaps (some x) items :=
      ⟨fun y hy => by simpa using gaps.2 y (List.mem_of_mem_head? hy),
        fun y hy => gaps.2 y (List.mem_of_mem_tail hy)⟩
    have next := ih (some x) n (i + 1)
    have rest : ∀ y ∈ items,y.Written delims := fun y hy => written y (List.mem_cons_of_mem x hy)
    have size := hn
    rw [unread_cons gaps] at hs size
    rw [chain_cons gaps]
    have short {tail : Text} (h : tail.length<(nextp.getD string).length) : tail.length<n := by
      rw [hs] at h
      omega
    obtain ⟨gap,t | w⟩ := x
    · have form : (Arg.quoted t).written ++ line items =
          quotationMark :: t ++ quotationMark :: line items := by simp [Arg.written]
      rw [form] at hs
      by_cases hg : leftover before ⟨gap,.quoted t⟩ = []
      · by_cases ht : t = []
        · refine iff_of_false (by simpa [ht,Arg.text] using map_text_ne n i nextp _) ?_
          simp [ht,Arg.isQuoted,Arg.text]
        · rw [hg,List.nil_append] at hs
          have cut := @cut_quoted delims t (line items) ht hx.text
          rw [map_text_of_cut n i hs cut]
          have fuel : (line items).length<n := short (hs ▸ cut.length_lt)
          refine Iff.trans (List.cons_inj_right t) ?_
          rw [List.tail_cons,next (some _) rest later rfl fuel]
          simp [Arg.isQuoted,Arg.text,ht,hg]
      · obtain ⟨tok,tail,hm,cut⟩ := @mark_in_token delims before ⟨gap,.quoted t⟩
          (t ++ quotationMark :: line items) marks hx hg
        rw [map_text_of_cut n i hs cut]
        refine iff_of_false (fun e => hx.text ?_) (by simp [Arg.isQuoted,hg])
        rwa [show (Arg.quoted t).text = tok from (List.cons.inj e).1.symm]
    · have cut := @cut_word delims before ⟨gap,.word w⟩ items w marks hx rfl
        (line_head rest gaps.2)
      rw [map_text_of_cut n i hs cut]
      have fuel : (line items).tail.length<n := short (hs ▸ cut.length_lt)
      refine Iff.trans (List.cons_inj_right w) ?_
      rw [next (some _) rest later rfl fuel]
      simp [Arg.isQuoted]

end Reading

/-- A written line is read as it was written exactly when the arguments between quotation marks
are not empty and each of them comes first or a single delimiter behind a word. -/
theorem texts_line_iff {delims : Text} {items : List Item} (h : Written delims items) :
    texts (line items) delims = items.map (·.arg.text) ↔ Readable items := by
  have gaps : Gaps none items := ⟨fun x hx => by simpa using h.first x hx,h.others⟩
  have read := @tokensFrom_line (line items) delims h.marks items none ((line items).length + 1)
    0 none h.args gaps rfl (Nat.lt_succ_self _)
  exact read.trans ⟨fun e => ⟨e.1,e.2⟩,fun e => ⟨e.texts,e.chain⟩⟩

/-- A word and an argument with a blank in it. -/
def wordAndQuoted : List Item := [⟨[],.word ['a']⟩,⟨[' '],.quoted ['b',' ']⟩]

/-- Two arguments between quotation marks. -/
def twoQuoted : List Item := [⟨[],.quoted ['a']⟩,⟨[' '],.quoted ['b']⟩]

/-- The word and the argument behind it can be written, and are read. -/
theorem texts_line_iff_word : Written [' '] wordAndQuoted ∧ (texts (line wordAndQuoted) [' '] =
    wordAndQuoted.map (·.arg.text) ↔ Readable wordAndQuoted) := by
  have written : Written [' '] wordAndQuoted := by
    refine ⟨by decide,fun x hx => ?_,by simp [wordAndQuoted],by simp [wordAndQuoted]⟩
    simp only [wordAndQuoted,List.mem_cons,List.not_mem_nil,or_false] at hx
    rcases hx with rfl | rfl
    · exact ⟨by simp,by decide,fun _ => by simp [Arg.text]⟩
    · exact ⟨by simp,by decide,fun h => absurd trivial h⟩
  exact ⟨written,texts_line_iff written⟩

/-- The second of two arguments between quotation marks is read with its mark. -/
theorem second_mark_read : ¬∀ (delims : Text) (items : List Item),Written delims items →
    texts (line items) delims = items.map (·.arg.text) := by
  intro h
  have written : Written [' '] twoQuoted := by
    refine ⟨by decide,fun x hx => ?_,by simp [twoQuoted],by simp [twoQuoted]⟩
    simp only [twoQuoted,List.mem_cons,List.not_mem_nil,or_false] at hx
    rcases hx with rfl | rfl <;>
      exact ⟨by simp,by decide,fun h => absurd trivial h⟩
  exact absurd (h [' '] twoQuoted written) (by decide)

end WootOs.QuotedTokens
