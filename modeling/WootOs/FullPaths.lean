import WootOs.PathResolution
import Mathlib.Data.List.Induction

/-!
# Paths of dentries, printed and read again

DEntry::GetFullPath writes the path of a dentry from its parents. A file system with
a label begins a path with the label and a colon. One without a label begins it with
its number, and the colon is only written for the root; so what is read again below
an unlabelled root is a path from the current directory. The root of a file
system is written as a prefix and a separator, which File::Open cannot read.

What a printed path is read as is a matter of its text alone, so it leads back to its
dentry in every tree exactly when it does in the one that holds nothing but the names
of the dentry.
-/

namespace WootOs.FullPaths

open ObjectTree ObjectNames PathTokens PathResolution
open DentryCache (dot dotDot)

/-- What getPath writes in front of the first separator or of the name of the root. -/
structure Prefix where
  /-- In front of a name below the root. -/
  below : Text
  /-- In front of the name of the root. -/
  atRoot : Text

/-- The prefix for the number of a file system and what GetLabel writes. -/
def Prefix.of : Option (ℕ × Option Text) → Prefix
  | some (_,some (c :: label)) => ⟨c :: label ++ [fsSeparator],c :: label ++ [fsSeparator]⟩
  | some (id,_) => ⟨decimal id,decimal id ++ [fsSeparator]⟩
  | none => ⟨'-' :: decimal 1,'-' :: decimal 1 ++ [fsSeparator]⟩

/-- The prefix for a file system. -/
def fsPrefix (f : FileSystems) (c : ℕ) : Prefix := Prefix.of (number (f.objects.kind c))

section Printing

variable {D : Type*} (s : System D)

/-- DEntry::getPath, for a dentry no further from the root than some number. -/
def pathFrom : ℕ → D → Text
  | 0,d => (fsPrefix s.toFileSystems (s.tree.fs d)).atRoot ++ s.tree.name d
  | n + 1,d =>
    match s.tree.parent d with
    | some p =>
      (match s.tree.parent p with
        | some _ => pathFrom n p
        | none => (fsPrefix s.toFileSystems (s.tree.fs d)).below) ++ '/' :: s.tree.name d
    | none => (fsPrefix s.toFileSystems (s.tree.fs d)).atRoot ++ s.tree.name d

/-- DEntry::getPath. -/
def getPath (d : D) : Text := pathFrom s (s.tree.depth d) d

/-- The string in the buffer after DEntry::GetFullPath. Without an end in the buffer it goes on
with what is behind it. -/
def getFullPath (d : D) (bufferSize : ℕ) (behind : Text) : Text :=
  if (getPath s d).length<bufferSize then getPath s d
  else (getPath s d).take bufferSize ++ behind

/-- A path leads to a dentry: components are followed that end there. -/
def LeadsTo (cwd : D) (flags : ℕ) (path : Text) (d : D) : Prop :=
  ∃ start cs,s.fileOpen cwd flags path = s.follow flags start cs ∧ s.tree.walk start cs = some d

end Printing

/-- The dentry that names lead to from a dentry. -/
def descend {D : Type*} (t : DentryTree D) : D → List Text → Option D
  | d,[] => some d
  | d,n :: names => (t.lookup d n).bind fun next => descend t next names

/-- Whatever else is in the file systems, and from every current directory, the complete path of
the dentry that names lead to from the root of a file system leads back to it. -/
def RoundTrips (f : FileSystems) (c : ℕ) (names : List Text) : Prop :=
  ∀ (D : Type) (s : System D),s.toFileSystems = f → ∀ cwd d,
    descend s.tree (s.tree.root c) names = some d → ∀ bufferSize behind,
      (getPath s d).length<bufferSize → ∀ flags,
        LeadsTo s cwd flags (getFullPath s d bufferSize behind) d

/-- The path that is printed for names from the root of a file system. -/
def printed (f : FileSystems) (c : ℕ) : List Text → Text
  | [] => (fsPrefix f c).atRoot ++ ['/']
  | n :: names => (fsPrefix f c).below ++ (n :: names).flatMap fun n => '/' :: n

/-- File systems with nothing but some names, each in the one before. A dentry is given by its
file system and how many names lead to it. -/
def along (names : List Text) : DentryTree (ℕ × ℕ) where
  parent d := match d.2 with
    | 0 => none
    | i + 1 => some (d.1,i)
  name d := match d.2 with
    | 0 => ['/']
    | i + 1 => names.getD i []
  fs d := d.1
  depth d := d.2
  root c := (c,0)
  lookup d n := if names[d.2]? = some n then some (d.1,d.2 + 1) else none
  fs_root _ := rfl
  parent_root _ := rfl
  name_root _ := rfl
  eq_root := by
    rintro ⟨c,_ | i⟩ h
    · rfl
    · simp at h
  of_parent := by
    rintro ⟨c,_ | i⟩ p h
    · simp at h
    · obtain rfl := Option.some.inj h
      exact ⟨rfl,rfl⟩
  of_lookup := by
    rintro ⟨c,i⟩ n e h
    simp only at h
    split_ifs at h with hn
    obtain rfl := Option.some.inj h
    exact ⟨rfl,by simp [List.getD_eq_getElem?_getD,hn]⟩

/-- A printed path is read back: a name of a file system is taken from it for which the object
tree gives the one it is printed for, there is a second token, and what is read from there on
leads along the names to the last one. -/
def ReadBack (f : FileSystems) (c : ℕ) (names : List Text) : Prop :=
  (∃ x,systemName (printed f c names) = some x ∧ f.getFS x = some c) ∧
    ∃ first second rest,tokens (printed f c names) = first :: second :: rest ∧
      (along names).walk (c,0) (texts ((printed f c names).drop second.offset)) =
        some (c,names.length)

section Descending

variable {D : Type*} {t : DentryTree D}

/-- Names lead on from where those in front of them lead. -/
theorem descend_append (d : D) (ms ns : List Text) :
    descend t d (ms ++ ns) = (descend t d ms).bind fun e => descend t e ns := by
  induction ms generalizing d with
  | nil => rfl
  | cons m ms ih =>
    rw [List.cons_append,descend,descend]
    cases t.lookup d m with
    | none => rfl
    | some e => exact ih e

/-- The last name was looked up in the dentry that the others lead to. -/
theorem descend_concat {d e : D} {ms : List Text} {n : Text} :
    descend t d (ms ++ [n]) = some e ↔ ∃ p,descend t d ms = some p ∧ t.lookup p n = some e := by
  rw [descend_append,Option.bind_eq_some_iff]
  simp [descend]

/-- Following components does not leave a file system. -/
theorem walk_fs {cs : List Text} {d e : D} (h : t.walk d cs = some e) : t.fs e = t.fs d := by
  induction cs generalizing d with
  | nil => rw [Option.some.inj h]
  | cons c cs ih =>
    rw [DentryTree.walk] at h
    split_ifs at h
    · exact ih h
    · rw [ih h]
      cases hp : t.parent d with
      | none => rfl
      | some p => exact (t.of_parent d p hp).1.symm
    · cases hl : t.lookup d c with
      | none => simp [hl] at h
      | some next =>
        rw [hl] at h
        rw [ih h]
        exact (t.of_parent next d (t.of_lookup d c next hl).1).1

/-- What can be followed where there are only the names that lead to a dentry, can be followed
wherever they lead to it. -/
theorem walk_of_along {c : ℕ} {names : List Text} {d : D}
    (hd : descend t (t.root c) names = some d) {cs : List Text} {i j : ℕ} {e : D}
    (he : descend t (t.root c) (names.take i) = some e) (hi : i ≤ names.length)
    (h : (along names).walk (c,i) cs = some (c,j)) :
    ∃ e',descend t (t.root c) (names.take j) = some e' ∧ t.walk e cs = some e' := by
  induction cs generalizing i e with
  | nil =>
    obtain rfl : i = j := (Prod.mk.inj (Option.some.inj h)).2
    exact ⟨e,he,rfl⟩
  | cons n cs ih =>
    rw [DentryTree.walk] at h ⊢
    split_ifs at h ⊢ with h₀ h₁
    · exact ih he hi h
    · cases i with
      | zero =>
        obtain rfl : t.root c = e := Option.some.inj he
        rw [t.parent_root]
        exact ih he hi h
      | succ i =>
        rw [List.take_add_one,List.getElem?_eq_getElem hi,Option.toList_some,descend_concat] at he
        obtain ⟨p,hp,hl⟩ := he
        rw [(t.of_lookup p _ e hl).1]
        exact ih hp (by omega) h
    · by_cases hn : names[i]? = some n
      · have hlt : i<names.length := (List.getElem?_eq_some_iff.mp hn).1
        have next : ∃ e',descend t (t.root c) (names.take (i + 1)) = some e' := by
          rw [← List.take_append_drop (i + 1) names,descend_append,Option.bind_eq_some_iff] at hd
          obtain ⟨e',he',-⟩ := hd
          exact ⟨e',he'⟩
        obtain ⟨e',he'⟩ := next
        have hl := he'
        rw [List.take_add_one,hn,Option.toList_some,descend_concat] at hl
        obtain ⟨p,hp,hl⟩ := hl
        obtain rfl : e = p := Option.some.inj (he.symm.trans hp)
        have step : (along names).lookup (c,i) n = some (c,i + 1) := by simp [along,hn]
        rw [step] at h
        rw [hl]
        exact ih he' hlt h
      · have step : (along names).lookup (c,i) n = none := by simp [along,hn]
        simp [step] at h

/-- The names themselves lead to their end. -/
theorem descend_along (names : List Text) (c : ℕ) :
    descend (along names) ((along names).root c) names = some (c,names.length) := by
  have front (ms ns : List Text) (h : ms ++ ns = names) :
      descend (along names) (c,ms.length) ns = some (c,names.length) := by
    induction ns generalizing ms with
    | nil => rw [← h,List.append_nil]; rfl
    | cons n ns ih =>
      have step : (along names).lookup (c,ms.length) n = some (c,ms.length + 1) := by
        simp [along,← h]
      rw [descend,step]
      simpa using ih (ms ++ [n]) (by simpa using h)
  exact front [] names rfl

/-- With every name in every directory, names lead to the dentry that they make up. -/
theorem descend_everything (names : List Text) (c : ℕ) (above : List Text) :
    descend everything (c,above) names = some (c,names.reverse ++ above) := by
  induction names generalizing above with
  | nil => rfl
  | cons n names ih =>
    rw [descend]
    exact (ih (n :: above)).trans (by simp)

/-- There, every component leads up by at most one. -/
theorem walk_everything {cs : List Text} {d e : ℕ × List Text}
    (h : everything.walk d cs = some e) : d.2.length ≤ e.2.length + cs.length := by
  induction cs generalizing d with
  | nil => rw [Option.some.inj h]; simp
  | cons c cs ih =>
    rw [DentryTree.walk] at h
    split_ifs at h
    · have := ih h
      simp only [List.length_cons]
      omega
    · have := ih h
      obtain ⟨k,_ | ⟨n,names⟩⟩ := d
      · simp
      · simp only [everything,Option.getD_some] at this
        simp only [List.length_cons]
        omega
    · have := ih h
      simp only [List.length_cons] at this ⊢
      omega

end Descending

section Reading

variable {D : Type*} {s : System D} {c : ℕ} {names : List Text}

/-- One more name adds itself behind a separator. -/
theorem printed_concat {f : FileSystems} (hne : names ≠ []) (n : Text) :
    printed f c (names ++ [n]) = printed f c names ++ '/' :: n := by
  obtain ⟨m,ms,rfl⟩ := List.exists_cons_of_ne_nil hne
  simp [printed]

/-- The path of a dentry is that of the names that lead to it. -/
theorem getPath_of_descend {d : D} (h : descend s.tree (s.tree.root c) names = some d) :
    getPath s d = printed s.toFileSystems c names ∧ s.tree.fs d = c ∧
      (s.tree.parent d = none ↔ names = []) := by
  induction names using List.reverseRecOn generalizing d with
  | nil =>
    obtain rfl : s.tree.root c = d := Option.some.inj h
    refine ⟨?_,s.tree.fs_root c,by simp [s.tree.parent_root]⟩
    rw [getPath]
    cases s.tree.depth (s.tree.root c) <;>
      simp [pathFrom,s.tree.parent_root,s.tree.fs_root,s.tree.name_root,printed]
  | append_singleton names n ih =>
    obtain ⟨p,hp,hl⟩ := descend_concat.mp h
    obtain ⟨hpath,hfs,hroot⟩ := ih hp
    obtain ⟨hparent,hname⟩ := s.tree.of_lookup p n d hl
    obtain ⟨hsame,hdepth⟩ := s.tree.of_parent d p hparent
    refine ⟨?_,hsame.trans hfs,by simp [hparent]⟩
    rw [getPath,hdepth,pathFrom,hparent,hname,hsame,hfs]
    cases hup : s.tree.parent p with
    | none =>
      obtain rfl := hroot.mp hup
      simp [printed,hup]
    | some q =>
      have hne : names ≠ [] := fun e => by simp [hroot.mpr e] at hup
      rw [printed_concat hne,← hpath]
      simp only [hup]
      rfl

/-- No path that is printed is empty. -/
theorem printed_ne_nil (f : FileSystems) : printed f c names ≠ [] := by
  cases names <;> simp [printed]

/-- A path from which the name of a file system is taken that is found, and which has a second
token, is followed from there on. -/
theorem fileOpen_of_name {cwd : D} {flags fs : ℕ} {path x : Text} {first second : Token}
    {rest : List Token} (hx : systemName path = some x) (hg : s.getFS x = some fs)
    (ht : tokens path = first :: second :: rest) (hne : path ≠ []) :
    s.fileOpen cwd flags path =
      s.follow flags (s.tree.root fs) (texts (path.drop second.offset)) := by
  simp only [systemName,ht] at hx
  split_ifs at hx with hs
  simp only [System.fileOpen,hne,if_false,ht,if_pos hs,Option.some.inj hx,hg]
  rfl

/-- A path that leads to a dentry is followed from the root of a file system whose name is taken
from it, or else from the current directory. -/
theorem leadsTo_cases {cwd d : D} {flags : ℕ} {path : Text} (hne : path ≠ [])
    (h : LeadsTo s cwd flags path d) :
    (∃ x fs first second rest,systemName path = some x ∧ s.getFS x = some fs ∧
        tokens path = first :: second :: rest ∧
        s.tree.walk (s.tree.root fs) (texts (path.drop second.offset)) = some d) ∨
      s.tree.walk cwd (texts path) = some d := by
  obtain ⟨st,cs,e,hw⟩ := h
  have ends {d' : D} {cs' : List Text} (e : s.follow flags d' cs' = s.follow flags st cs) :
      s.tree.walk d' cs' = some d := by
    obtain ⟨rfl,hcs⟩ := follow_eq_iff.mp e
    rw [← hw,← s.tree.walk_strip cs',hcs,s.tree.walk_strip]
  simp only [System.fileOpen,hne,if_false] at e
  cases ht : tokens path with
  | nil => simp [ht,System.follow] at e
  | cons first others =>
    rw [ht] at e
    simp only at e
    by_cases hs : fsSeparator ∈ first.text
    · rw [if_pos hs] at e
      cases hg : s.getFS (first.text.takeWhile (· ≠ fsSeparator)) with
      | none =>
        rw [hg] at e
        simp [System.follow] at e
      | some fs =>
        rw [hg] at e
        cases others with
        | nil => simp [System.follow] at e
        | cons second rest =>
          exact .inl ⟨_,fs,first,second,rest,by simp only [systemName,ht,if_pos hs],hg,rfl,ends e⟩
    · rw [if_neg hs] at e
      split_ifs at e
      · simp [System.follow] at e
      · exact .inr (ends e)

end Reading

section Names

variable {f : FileSystems} {c : ℕ} {names : List Text}

/-- A name that a reachable dentry can have, without separators. A name is quoted in a path when
it begins with a quotation mark. -/
structure Proper (n : Text) : Prop where
  /-- It is not empty. -/
  ne_nil : n ≠ []
  /-- It is not what stands for the dentry itself. -/
  ne_dot : n ≠ dot
  /-- It is not what stands for the parent. -/
  ne_dotDot : n ≠ dotDot
  /-- It has no separators. -/
  whole : ∀ c ∈ n,separator c = false
  /-- It does not begin with a quotation mark. -/
  unquoted : n.head? ≠ some quotationMark

/-- Names that are joined by separators. -/
def joined (names : List Text) : Text := names.flatMap fun n => '/' :: n

/-- The first name can be cut off from names that are joined. -/
theorem cut_joined {n : Text} (hn : Proper n) (ns : List Text) :
    Cut separator (n ++ joined ns) [] n (joined ns) where
  parts := by simp
  skips := by simp
  token := hn.ne_nil
  keeps := hn.whole
  ends := by
    intro d hd
    cases ns with
    | nil => simp [joined] at hd
    | cons m ms =>
      obtain rfl : '/' = d := by simpa [joined] using hd
      decide

/-- Names that are joined are components, none of which is read as quoted. -/
theorem components_joined {n : Text} {ns : List Text} (h : ∀ m ∈ n :: ns,Proper m) :
    components (n ++ joined ns) = n :: ns ∧ ¬Quoted (n ++ joined ns) := by
  induction ns generalizing n with
  | nil =>
    have hn := h n (by simp)
    have cut := cut_joined hn []
    have front : (n ++ joined []).head? ≠ some quotationMark := by
      simpa [joined] using hn.unquoted
    rw [components_of_cut cut,quoted_of_cut cut front]
    simp [joined,components,Quoted]
  | cons m ms ih =>
    have hn := h n (by simp)
    have cut := cut_joined hn (m :: ms)
    have front : (n ++ joined (m :: ms)).head? ≠ some quotationMark := by
      obtain ⟨a,t,rfl⟩ := List.exists_cons_of_ne_nil hn.ne_nil
      simpa using hn.unquoted
    have rest : (joined (m :: ms)).tail = m ++ joined ms := rfl
    obtain ⟨hcs,hq⟩ := ih fun k hk => h k (List.mem_cons_of_mem n hk)
    rw [components_of_cut cut,quoted_of_cut cut front,rest,hcs]
    exact ⟨rfl,hq⟩

/-- Proper names are followed as they are. -/
theorem walk_of_proper {D : Type*} {t : DentryTree D} (h : ∀ m ∈ names,Proper m) (d : D) :
    t.walk d names = descend t d names := by
  induction names generalizing d with
  | nil => rfl
  | cons n names ih =>
    have hn := h n (by simp)
    rw [DentryTree.walk,descend,if_neg hn.ne_dot,if_neg hn.ne_dotDot]
    cases t.lookup d n with
    | none => rfl
    | some e => exact ih (fun m hm => h m (by simp [hm])) e

/-- The path below the root of a file system whose label is like a name, without a colon, is
read back exactly when the object tree gives the file system for its label. -/
theorem readBack_label_iff {id : ℕ} {label : Text}
    (hk : number (f.objects.kind c) = some (id,some label)) (hl : Proper label)
    (hs : fsSeparator ∉ label) (hne : names ≠ []) (h : ∀ m ∈ names,Proper m) :
    ReadBack f c names ↔ f.getFS label = some c := by
  obtain ⟨n,ns,rfl⟩ := List.exists_cons_of_ne_nil hne
  have path : printed f c (n :: ns) = label ++ fsSeparator :: '/' :: (n ++ joined ns) := by
    obtain ⟨a,l,rfl⟩ := List.exists_cons_of_ne_nil hl.ne_nil
    simp [printed,fsPrefix,hk,Prefix.of,joined]
  have named : InSystem (printed f c (n :: ns)) label (n ++ joined ns) :=
    ⟨'/',by decide,path,hs,hl.whole⟩
  obtain ⟨hcs,hq⟩ := components_joined h
  obtain ⟨y,hc⟩ := named.cut
  rw [← named.delims_eq hl.unquoted] at hc
  have front : (n ++ joined ns).dropWhile separator = n ++ joined ns := by
    have hn := h n (by simp)
    obtain ⟨a,t,rfl⟩ := List.exists_cons_of_ne_nil hn.ne_nil
    rw [List.cons_append,List.dropWhile_cons_of_neg]
    simpa using hn.whole a (by simp)
  rw [ReadBack,systemName_of_inSystem named hl.unquoted]
  constructor
  · rintro ⟨⟨x,e,hx⟩,-⟩
    rwa [Option.some.inj e]
  · intro hg
    refine ⟨⟨label,rfl,hg⟩,?_⟩
    cases ht : tokens (n ++ joined ns) with
    | nil => simp [components_of_tokens ht (by rwa [front])] at hcs
    | cons t ts =>
      have read := tokens_of_cut hc
      rw [List.tail_cons,ht,List.map_cons] at read
      refine ⟨_,_,_,read,?_⟩
      rw [Token.shift,hc.drop_eq,List.tail_cons,(texts_drop ht).1 (by rwa [front]),hcs,
        walk_of_proper h]
      exact descend_along (n :: ns) c

/-- A number has no delimiters of paths and no colons. -/
theorem decimal_proper {id : ℕ} {a : Char} (h : a ∈ decimal id) :
    separator a = false ∧ a ≠ quotationMark ∧ a ≠ fsSeparator := by
  have digit : a.isDigit = true := Nat.isDigit_of_mem_toDigits (by decide) (by decide) h
  have other (b : Char) (hb : b.isDigit = false) : a ≠ b := by
    rintro rfl
    simp [hb] at digit
  refine ⟨?_,other _ (by decide),other _ (by decide)⟩
  simpa [separator] using ⟨other '/' (by decide),other (Char.ofNat 92) (by decide)⟩

/-- Below the root of a file system without a label no path is read back: no name of a file
system is taken from it. -/
theorem not_readBack_number {id : ℕ} (hk : number (f.objects.kind c) = some (id,none))
    (hne : names ≠ []) : ¬ReadBack f c names := by
  rintro ⟨⟨x,hx,-⟩,-⟩
  obtain ⟨n,ns,rfl⟩ := List.exists_cons_of_ne_nil hne
  have path : printed f c (n :: ns) = decimal id ++ joined (n :: ns) := by
    simp [printed,fsPrefix,hk,Prefix.of,joined]
  have cut : Cut separator (printed f c (n :: ns)) [] (decimal id) (joined (n :: ns)) :=
    ⟨path,by simp,Nat.toDigits_ne_nil,fun a ha => (decimal_proper ha).1,by
      intro d hd
      obtain rfl : '/' = d := by simpa [joined] using hd
      decide⟩
  have front : (printed f c (n :: ns)).head? ≠ some quotationMark := by
    rw [path]
    cases hd : decimal id with
    | nil => simp [decimal,Nat.toDigits_ne_nil] at hd
    | cons a l => simpa using (decimal_proper (hd ▸ List.mem_cons_self)).2.1
  rw [systemName_of_cut (by simpa [delims,front] using cut),
    if_neg fun hm => (decimal_proper hm).2.2 rfl] at hx
  simp at hx

/-- Where there are no names only . and .. can be followed. -/
theorem walk_along_nil {cs : List Text} {e : ℕ × ℕ}
    (h : (along []).walk (c,0) cs = some e) : cs.flatten.count fsSeparator = 0 := by
  induction cs with
  | nil => rfl
  | cons n cs ih =>
    rw [DentryTree.walk] at h
    split_ifs at h with h₀ h₁
    · rw [List.flatten_cons,List.count_append,ih h,h₀]
      decide
    · rw [List.flatten_cons,List.count_append,ih h,h₁]
      decide
    · simp [along] at h

/-- A path that ends in a colon and a separator has no second token behind that colon. -/
theorem second_token_at_root {path start : Text} {first second : Token} {rest : List Token}
    (hp : path = start ++ [fsSeparator] ++ ['/'])
    (ht : tokens path = first :: second :: rest) :
    0<(path.drop second.offset).count fsSeparator := by
  rcases cut_cases (delims path) path with all | ⟨skip,tok,tail,hc⟩
  · simp [tokens_of_all all] at ht
  · rw [tokens_of_cut hc] at ht
    rcases cut_cases (delims tail.tail) tail.tail with all | ⟨skip',tok',tail',hc'⟩
    · simp [tokens_of_all all] at ht
    · rw [tokens_of_cut hc',List.map_cons] at ht
      obtain rfl := (List.cons.inj (List.cons.inj ht).2).1
      have behind : tail.tail.drop skip'.length = tok' ++ tail' := by
        conv_lhs => rw [hc'.parts,List.append_assoc,List.drop_left]
      rw [Token.shift,hc.drop_eq,behind]
      by_contra h
      have colon : fsSeparator ∉ tok' ++ tail' := fun hm => h (List.count_pos_iff.mpr hm)
      obtain ⟨d,tail,rfl⟩ : ∃ d t,tail = d :: t := by
        cases tail with
        | nil => simpa using hc'.length_lt
        | cons d t => exact ⟨d,t,rfl⟩
      rw [List.tail_cons] at hc'
      have whole : skip ++ tok ++ [d] ++ skip' ++ (tok' ++ tail') =
          start ++ [fsSeparator] ++ ['/'] := by
        rw [← hp,hc.parts]
        conv_rhs => rw [hc'.parts]
        simp
      -- Without the colon only the separator at the end is left.
      have last : tok' ++ tail' = ['/'] ∧ skip ++ tok ++ [d] ++ skip' = start ++ [fsSeparator] := by
        rcases List.eq_nil_or_concat' (tok' ++ tail') with e | ⟨front,y,e⟩
        · exact absurd (List.append_eq_nil_iff.mp e).1 hc'.token
        · rw [e,← List.append_assoc] at whole
          obtain ⟨hfront,hy⟩ := List.append_inj' whole rfl
          rcases List.eq_nil_or_concat' front with rfl | ⟨front,z,rfl⟩
          · exact ⟨by rw [e,← hy]; rfl,by simpa using hfront⟩
          · rw [← List.append_assoc] at hfront
            obtain rfl : z = fsSeparator := by simpa using (List.append_inj' hfront rfl).2
            exact absurd (e ▸ by simp) colon
      obtain ⟨htok,hskip⟩ := last
      have token : tok' = ['/'] := by
        obtain ⟨a,t,rfl⟩ := List.exists_cons_of_ne_nil hc'.token
        simp only [List.cons_append,List.cons.injEq,List.append_eq_nil_iff] at htok
        rw [htok.1,htok.2.1]
      have keeps := hc'.keeps '/' (by simp [token])
      rcases List.eq_nil_or_concat' skip' with rfl | ⟨front,z,rfl⟩
      · have only : tail = ['/'] := by rw [hc'.parts,List.nil_append,htok]
        rw [only] at keeps
        exact absurd keeps (by decide)
      · rw [← List.append_assoc] at hskip
        obtain rfl : z = fsSeparator := by simpa using (List.append_inj' hskip rfl).2
        have := hc'.skips fsSeparator (by simp)
        simp [delims_separator] at this

/-- The path of a root is never read back. -/
theorem not_readBack_root : ¬ReadBack f c [] := by
  rintro ⟨-,first,second,rest,ht,hw⟩
  have ends : ∃ start,printed f c [] = start ++ [fsSeparator] ++ ['/'] := by
    rw [printed,fsPrefix]
    unfold Prefix.of
    split <;> exact ⟨_,rfl⟩
  obtain ⟨start,hp⟩ := ends
  have none := walk_along_nil hw
  rw [count_texts (by decide) (by decide)] at none
  have some := second_token_at_root hp ht
  omega

end Names

/-- The mounted file systems with any trees in them. -/
def FileSystems.withTree {D : Type*} (f : FileSystems) (t : DentryTree D) : System D :=
  { f with tree := t,resizes := fun _ => true,isDirectory := fun _ => true }

/-- For every dentry, the complete path that GetFullPath writes leads back to it, exactly when
the path that is printed for its names is read back. -/
theorem roundTrips_iff (f : FileSystems) (c : ℕ) (names : List Text) :
    RoundTrips f c names ↔ ReadBack f c names := by
  have path_ne := @printed_ne_nil c names f
  have written {D : Type} {s : System D} {d : D} (hf : s.toFileSystems = f)
      (hd : descend s.tree (s.tree.root c) names = some d) {size : ℕ} (behind : Text)
      (hsize : (getPath s d).length<size) :
      getFullPath s d size behind = printed f c names := by
    rw [getFullPath,if_pos hsize,(getPath_of_descend hd).1,hf]
  constructor
  · intro h
    have leads {D : Type} (t : DentryTree D) (cwd : D) {d : D}
        (hd : descend t (t.root c) names = some d) :
        LeadsTo (FileSystems.withTree f t) cwd 0 (printed f c names) d := by
      have := h D (FileSystems.withTree f t) rfl cwd d hd _ [] (Nat.lt_succ_self _) 0
      rwa [written rfl hd [] (Nat.lt_succ_self _)] at this
    -- From a directory that is deep enough, no relative path leads to the dentry.
    have deep := leads everything
      (c,List.replicate ((texts (printed f c names)).length + names.length + 1) [])
      (descend_everything names c [])
    rcases leadsTo_cases path_ne deep with ⟨x,fs,first,second,rest,hx,hg,ht,hw⟩ | hw
    · obtain rfl : c = fs := walk_fs hw
      obtain ⟨st,cs,e,hw'⟩ := leads (along names) (c,0) (descend_along names c)
      rw [fileOpen_of_name (s := FileSystems.withTree f (along names)) hx hg ht path_ne] at e
      obtain ⟨rfl,hcs⟩ := follow_eq_iff.mp e
      refine ⟨⟨x,hx,hg⟩,first,second,rest,ht,?_⟩
      rw [← DentryTree.walk_strip,hcs,DentryTree.walk_strip]
      exact hw'
    · have := walk_everything hw
      simp only [List.length_replicate,List.length_append,List.length_reverse,
        List.length_nil] at this
      omega
  · rintro ⟨⟨x,hx,hg⟩,first,second,rest,ht,hw⟩ D s rfl cwd d hd size behind hsize flags
    rw [written rfl hd behind hsize]
    obtain ⟨e',he',hwalk⟩ := walk_of_along hd (i := 0) rfl (Nat.zero_le _) hw
    obtain rfl : d = e' := by
      rw [List.take_length] at he'
      exact Option.some.inj (hd.symm.trans he')
    exact ⟨_,_,fileOpen_of_name hx hg ht path_ne,hwalk⟩

/-- A mounted file system without a label. -/
def unlabelled : FileSystems where
  objects := mounted [none]
  stack := cleanStack
  heap := []
  directory := 2
  container := container_mounted _

/-- The path A:/ of the root of the file system A is read from in front of its beginning, and
the path 0/a in a file system without a label leads from the current directory. -/
theorem root_not_read_back :
    ¬RoundTrips labelledA.toFileSystems 3 [] ∧ ¬RoundTrips unlabelled 3 [['a']] := by
  constructor
  · intro h
    obtain ⟨st,cs,e,-⟩ := h _ labelledA rfl (3,[['b']]) (3,[]) rfl 16 [] (by decide) 0
    have read : labelledA.fileOpen (3,[['b']]) 0 ['A',':','/'] = .outside := rfl
    have same : getFullPath labelledA (3,[]) 16 [] = ['A',':','/'] := by decide
    rw [same,read] at e
    simp [System.follow] at e
  · intro h
    obtain ⟨st,cs,e,hw⟩ := h _ (FileSystems.withTree unlabelled everything) rfl (3,[['b']])
      (3,[['a']]) rfl 16 [] (by decide) 0
    have same : getFullPath (FileSystems.withTree unlabelled everything) (3,[['a']]) 16 [] =
        ['0','/','a'] := by decide
    have read : (FileSystems.withTree unlabelled everything).fileOpen (3,[['b']]) 0
        ['0','/','a'] = (FileSystems.withTree unlabelled everything).follow 0 (3,[['b']])
          [['0'],['a']] := rfl
    rw [same,read] at e
    obtain ⟨rfl,hcs⟩ := follow_eq_iff.mp e
    rw [← DentryTree.walk_strip,← hcs] at hw
    exact absurd hw (by decide)

end WootOs.FullPaths
