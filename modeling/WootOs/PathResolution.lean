import WootOs.PathTokens
import WootOs.ObjectNames
import WootOs.DentryCache

/-!
# From a path to a dentry

File::Open cuts a path into tokens. A colon in the first one ends the name of a file
system, and the path is then cut again from its second token on and followed from
the root of that file system; any other path is followed from the current
directory. Where the prefix stands alone there is no second token, and the path is
read from in front of its beginning. A separator at the beginning is skipped like
any other, so that the test for one never sees it: only a quoted token can begin
with a separator, and then the root of no file system is asked for.
-/

namespace WootOs.PathResolution

open ObjectTree ObjectNames PathTokens
open DentryCache (dot dotDot directoryFlag truncates)

/-- Dentries as the trees of the file systems. A file system is given by its object. -/
structure DentryTree (D : Type*) where
  /-- DEntry::Parent. -/
  parent : D → Option D
  /-- DEntry::Name. -/
  name : D → Text
  /-- The file system of the inode. -/
  fs : D → ℕ
  /-- How far a dentry is from the root. -/
  depth : D → ℕ
  /-- FileSystem::GetRoot. -/
  root : ℕ → D
  /-- FileSystem::LookupDEntry. -/
  lookup : D → Text → Option D
  /-- The root belongs to its file system. -/
  fs_root : ∀ c,fs (root c) = c
  /-- It has no parent. -/
  parent_root : ∀ c,parent (root c) = none
  /-- It is named by a separator. -/
  name_root : ∀ c,name (root c) = ['/']
  /-- Only the roots have no parent. -/
  eq_root : ∀ d,parent d = none → d = root (fs d)
  /-- A dentry is in the file system of its parent, one step further from the root. -/
  of_parent : ∀ d p,parent d = some p → fs d = fs p ∧ depth d = depth p + 1
  /-- What is found under a name has that name and was looked for in its parent. -/
  of_lookup : ∀ d n e,lookup d n = some e → parent e = some d ∧ name e = n

/-- The mounted file systems. -/
structure FileSystems where
  /-- The objects of the kernel. -/
  objects : Objects
  /-- The memory behind the buffers for names. -/
  stack : Stack
  /-- The memory behind the buffer for the path of a file system, up to an end. -/
  heap : Text
  /-- The directory of the file systems. -/
  directory : ℕ
  /-- It is at FS_DIR and holds file systems. -/
  container : Container stack objects fsDir directory

/-- What File::Open works on. -/
structure System (D : Type*) extends FileSystems where
  /-- The dentries. -/
  tree : DentryTree D
  /-- Whether Resize(0) of an inode succeeds. -/
  resizes : D → Bool
  /-- Whether the mode of an inode is that of a directory. -/
  isDirectory : D → Bool

/-- FS_SEPARATOR. -/
def fsSeparator : Char := ':'

/-- Bytes of the buffer for the path of a file system, MAX_PATH_LENGTH + 1. -/
def pathBuffer : ℕ := 4096

/-- What became of a call of File::Open. -/
inductive Outcome (D : Type*) where
  /-- It failed before a component was followed. -/
  | refused
  /-- It read in front of the path. -/
  | outside
  /-- It used a file system that there is not. -/
  | crashed
  /-- It followed components from a dentry, and opened the dentry at the end if it could. -/
  | followed (start : D) (components : List Text) (file : Option D)

/-- The components of a path that lead somewhere. -/
def strip (cs : List Text) : List Text := cs.filter (· ≠ dot)

/-- Follow components; .. at a root stays there. -/
def DentryTree.walk {D : Type*} (t : DentryTree D) : D → List Text → Option D
  | d,[] => some d
  | d,c :: rest =>
    if c = dot then walk t d rest
    else if c = dotDot then walk t ((t.parent d).getD d) rest
    else
      match t.lookup d c with
      | none => none
      | some next => walk t next rest

/-- The path of a file system as it is read back from the buffer it is written to. -/
def FileSystems.fsPath (f : FileSystems) (name : Text) : Text :=
  let path := fsDir ++ '/' :: name
  if path.length<pathBuffer then path else path.take pathBuffer ++ f.heap

/-- The file system that the object tree gives for a name. -/
def FileSystems.getFS (f : FileSystems) (name : Text) : Option ℕ :=
  f.objects.get f.stack (f.fsPath name)

namespace System

variable {D : Type*} (s : System D)

/-- Whether the flags let a dentry be opened. -/
def accepts (flags : ℕ) (d : D) : Bool :=
  (!decide (truncates flags) || s.resizes d) &&
    (flags &&& directoryFlag == 0 || s.isDirectory d)

/-- The components are followed, and what they lead to is opened. -/
def follow (flags : ℕ) (start : D) (cs : List Text) : Outcome D :=
  .followed start (strip cs) ((s.tree.walk start cs).filter (s.accepts flags))

/-- File::open. -/
def openFrom (flags : ℕ) (parent : D) (name : Text) : Outcome D :=
  s.follow flags parent (texts name)

/-- File::Open, in a process with a current directory. -/
def fileOpen (cwd : D) (flags : ℕ) (name : Text) : Outcome D :=
  let name := if name = [] then ['.'] else name
  match tokens name with
  | [] => .refused
  | first :: others =>
    if fsSeparator ∈ first.text then
      match s.getFS (first.text.takeWhile (· ≠ fsSeparator)) with
      | none => .refused
      | some fs =>
        match others with
        | [] => .outside
        | second :: _ => s.openFrom flags (s.tree.root fs) (name.drop second.offset)
    else if first.text.head? = some '/' then .crashed
    else s.openFrom flags cwd name

end System

/-- A path FS:/p: the name of a file system, a colon, a separator and a path. -/
def InSystem (path fs p : Text) : Prop :=
  ∃ y,separator y = true ∧ path = fs ++ fsSeparator :: y :: p ∧ fsSeparator ∉ fs ∧
    ∀ c ∈ fs,separator c = false

/-- A path begins with a separator. -/
def Absolute (path : Text) : Prop := ∃ c ∈ path.head?,separator c = true

section Meaning

variable {D : Type*} (s : System D)

/-- The dentry from which a path is followed, if there is one, and its components. -/
inductive Means (cwd : D) (path : Text) : Option D → List Text → Prop where
  /-- FS:/p starts at the root of a file system that is named FS. -/
  | system (fs p : Text) (h : InSystem path fs p) (c : Option ℕ)
      (found : Found s.objects s.directory fs c) :
      Means cwd path (c.map s.tree.root) (components p)
  /-- A path that begins with a separator starts at the root of the current file system. -/
  | absolute (h : Absolute path) : Means cwd path (some (s.tree.root (s.tree.fs cwd)))
      (components path)
  /-- Any other path starts at the current directory. -/
  | relative (h : ¬∃ fs p,InSystem path fs p) (h' : ¬Absolute path) :
      Means cwd path (some cwd) (components path)

/-- What should become of a call with such a path. -/
def expected (flags : ℕ) : Option D → List Text → Outcome D
  | none,_ => .refused
  | some start,cs => s.follow flags start cs

/-- File::Open resolves a path: it follows the components from where the path starts. -/
def Resolved (cwd : D) (flags : ℕ) (path : Text) : Prop :=
  ∃ start cs,Means s cwd path start cs ∧ s.fileOpen cwd flags path = expected s flags start cs

/-- The name of a file system that File::Open takes from a path. -/
def systemName (path : Text) : Option Text :=
  match tokens path with
  | [] => none
  | first :: _ =>
    if fsSeparator ∈ first.text then some (first.text.takeWhile (· ≠ fsSeparator)) else none

/-- A path without the name of a file system that is resolved: no token of it is read as
quoted, it has a component, the first one has no colon, and if it begins with a separator the
current directory is a root. -/
def Plain (cwd : D) (path : Text) : Prop :=
  ∃ first rest,components path = first :: rest ∧ fsSeparator ∉ first ∧ ¬Quoted path ∧
    (Absolute path → cwd = s.tree.root (s.tree.fs cwd))

/-- A path FS:/p that is resolved: the name does not begin with a quotation mark, the object
tree gives a file system of that name, and p has a component and, behind the separators at its
front, no token that is read as quoted. Or the object tree has no file system of that name and
gives none for the name that is taken from the path. -/
def Prefixed (path : Text) : Prop :=
  ∃ fs p,InSystem path fs p ∧
    ((fs.head? ≠ some quotationMark ∧ (∃ c,s.getFS fs = some c ∧
        Found s.objects s.directory fs (some c)) ∧
        components p ≠ [] ∧ ¬Quoted (p.dropWhile separator)) ∨
      (Found s.objects s.directory fs none ∧ ∃ x,systemName path = some x ∧ s.getFS x = none))

end Meaning

section Components

/-- Leaving out . changes no other character. -/
theorem count_strip {a : Char} (ha : a ≠ '.') (cs : List Text) :
    (strip cs).flatten.count a = cs.flatten.count a := by
  induction cs with
  | nil => rfl
  | cons c cs ih =>
    by_cases h : c = dot
    · subst h
      have : dot.count a = 0 := by simp [dot,ha.symm]
      rw [strip,List.filter_cons_of_neg (by simp),← strip,ih,List.flatten_cons,List.count_append,
        this,Nat.zero_add]
    · rw [strip,List.filter_cons_of_pos (by simpa using h),← strip,List.flatten_cons,
        List.flatten_cons,List.count_append,List.count_append,ih]

/-- The tokens of a path lead where its components lead only if none is read as quoted. -/
theorem strip_texts_iff (path : Text) :
    strip (texts path) = strip (components path) ↔ ¬Quoted path := by
  refine ⟨fun h hq => ?_,fun h => by rw [texts_eq_components h]⟩
  have fewer := count_texts_lt hq
  have same := congrArg (fun cs => cs.flatten.count quotationMark) h
  simp only [count_strip (by decide : quotationMark ≠ '.')] at same
  rw [count_components (by decide)] at same
  omega

/-- The tokens of a path that is read again from its first token on lead where its components
lead only if none is read as quoted behind the separators at its front. -/
theorem strip_texts_drop_iff {path : Text} {t : Token} {ts : List Token}
    (h : tokens path = t :: ts) :
    strip (texts (path.drop t.offset)) = strip (components path) ↔
      ¬Quoted (path.dropWhile separator) := by
  refine ⟨fun e hq => ?_,fun hq => by rw [(texts_drop h).1 hq]⟩
  have fewer := (texts_drop h).2 hq
  have same := congrArg (fun cs => cs.flatten.count quotationMark) e
  simp only [count_strip (by decide : quotationMark ≠ '.')] at same
  rw [count_components (by decide)] at same
  omega

/-- Components that are left out do not matter for where a path leads. -/
theorem DentryTree.walk_strip {D : Type*} (t : DentryTree D) (cs : List Text) (d : D) :
    t.walk d (strip cs) = t.walk d cs := by
  induction cs generalizing d with
  | nil => rfl
  | cons c cs ih =>
    by_cases h : c = dot
    · rw [strip,List.filter_cons_of_neg (by simpa using h),← strip,ih,DentryTree.walk,if_pos h]
    · rw [strip,List.filter_cons_of_pos (by simpa using h),← strip,DentryTree.walk,
        DentryTree.walk]
      simp only [ih]

end Components

section Prefixes

variable {path fs p : Text}

/-- The name of a file system and its colon are the first component of such a path. -/
theorem InSystem.cut (h : InSystem path fs p) :
    ∃ y,Cut separator path [] (fs ++ [fsSeparator]) (y :: p) := by
  obtain ⟨y,hy,rfl,-,hs⟩ := h
  refine ⟨y,by simp,by simp,by simp,fun c hc => ?_,by simpa using hy⟩
  rcases List.mem_append.mp hc with hc | hc
  · exact hs c hc
  · obtain rfl := List.mem_singleton.mp hc
    decide

/-- The path up to its first colon is the name of the file system, and p comes two characters
later. -/
theorem InSystem.split (h : InSystem path fs p) :
    path.takeWhile (· ≠ fsSeparator) = fs ∧ (path.dropWhile (· ≠ fsSeparator)).drop 2 = p := by
  obtain ⟨y,-,rfl,hf,-⟩ := h
  have part := takeWhile_part (p := (· ≠ fsSeparator)) (w := fs) (r := fsSeparator :: y :: p)
    (fun c hc => by simpa using fun e : c = fsSeparator => hf (e ▸ hc)) (by simp)
  exact ⟨part.1,by rw [part.2]; rfl⟩

/-- The name of the file system and p are determined by the path. -/
theorem InSystem.unique {fs' p' : Text} (h : InSystem path fs p) (h' : InSystem path fs' p') :
    fs = fs' ∧ p = p' :=
  ⟨h.split.1.symm.trans h'.split.1,h.split.2.symm.trans h'.split.2⟩

/-- Such a path does not begin with a separator. -/
theorem InSystem.not_absolute (h : InSystem path fs p) : ¬Absolute path := by
  obtain ⟨y,-,rfl,-,hs⟩ := h
  rintro ⟨c,hc,sc⟩
  cases fs with
  | nil =>
    obtain rfl : fsSeparator = c := by simpa using hc
    exact absurd sc (by decide)
  | cons d fs =>
    obtain rfl : d = c := by simpa using hc
    simp [hs d (by simp)] at sc

/-- Its first token is not read as quoted, when the name does not begin with a quotation
mark. -/
theorem InSystem.delims_eq (h : InSystem path fs p) (hq : fs.head? ≠ some quotationMark) :
    delims path = separator := by
  have front : path.head? ≠ some quotationMark := by
    obtain ⟨y,-,rfl,-,-⟩ := h
    cases fs with
    | nil => simp only [List.nil_append,List.head?_cons]; decide
    | cons c fs => simpa using hq
  simp [delims,front]

/-- The name in front of its colon. -/
theorem InSystem.takeWhile_eq (h : InSystem path fs p) :
    (fs ++ [fsSeparator]).takeWhile (· ≠ fsSeparator) = fs := by
  obtain ⟨-,-,-,hf,-⟩ := h
  exact (takeWhile_part (fun c hc => by simpa using fun e : c = fsSeparator => hf (e ▸ hc))
    (by simp)).1

/-- Its colons are that behind the name and those of p. -/
theorem InSystem.count_separator (h : InSystem path fs p) :
    path.count fsSeparator = p.count fsSeparator + 1 := by
  obtain ⟨y,hy,rfl,hf,-⟩ := h
  have : y ≠ fsSeparator := by
    rintro rfl
    exact absurd hy (by decide)
  simp [List.count_eq_zero.mpr hf,this]

end Prefixes

section Calls

variable {D : Type*} {s : System D} {cwd : D} {flags : ℕ} {path : Text}

/-- Two calls that followed components did the same only from one dentry along components that
lead the same way. -/
theorem follow_eq_iff {d d' : D} {cs cs' : List Text} :
    s.follow flags d cs = s.follow flags d' cs' ↔ d = d' ∧ strip cs = strip cs' := by
  constructor
  · intro h
    injection h with h₁ h₂ h₃
    exact ⟨h₁,h₂⟩
  · rintro ⟨rfl,h⟩
    rw [System.follow,System.follow,← s.tree.walk_strip cs,← s.tree.walk_strip cs',h]

/-- The roots of two file systems differ. -/
theorem root_injective {c c' : ℕ} (h : s.tree.root c = s.tree.root c') : c = c' := by
  rw [← s.tree.fs_root c,← s.tree.fs_root c',h]

instance (path : Text) : Decidable (Absolute path) :=
  decidable_of_iff (path.head?.any separator = true) (by cases h : path.head? <;> simp [Absolute,h])

/-- Where a path starts that does not name a file system. -/
def start (s : System D) (cwd : D) (path : Text) : D :=
  if Absolute path then s.tree.root (s.tree.fs cwd) else cwd

/-- A path that does not name a file system is resolved when its components are followed from
where it starts. -/
theorem resolved_of_not_inSystem (h : ¬∃ fs p,InSystem path fs p) :
    Resolved s cwd flags path ↔
      s.fileOpen cwd flags path = s.follow flags (start s cwd path) (components path) := by
  by_cases ha : Absolute path
  · rw [start,if_pos ha]
    refine ⟨?_,fun e => ⟨_,_,.absolute ha,e⟩⟩
    rintro ⟨st,cs,hm,e⟩
    cases hm with
    | system fs p hi => exact absurd ⟨fs,p,hi⟩ h
    | absolute => exact e
    | relative _ h' => exact absurd ha h'
  · rw [start,if_neg ha]
    refine ⟨?_,fun e => ⟨_,_,.relative h ha,e⟩⟩
    rintro ⟨st,cs,hm,e⟩
    cases hm with
    | system fs p hi => exact absurd ⟨fs,p,hi⟩ h
    | absolute h' => exact absurd h' ha
    | relative => exact e

/-- A path that names a file system is resolved when p is followed from the root of a file
system of that name, or there is none and the call fails. -/
theorem resolved_of_inSystem {fs p : Text} (h : InSystem path fs p) :
    Resolved s cwd flags path ↔ ∃ c,Found s.objects s.directory fs c ∧
      s.fileOpen cwd flags path = expected s flags (c.map s.tree.root) (components p) := by
  constructor
  · rintro ⟨st,cs,hm,e⟩
    cases hm with
    | system fs' p' hi c found =>
      obtain ⟨rfl,rfl⟩ := h.unique hi
      exact ⟨c,found,e⟩
    | absolute h' => exact absurd h' h.not_absolute
    | relative h' => exact absurd ⟨fs,p,h⟩ h'
  · rintro ⟨c,found,e⟩
    exact ⟨_,_,.system fs p h c found,e⟩

/-- Without quoted tokens the delimiters are the separators. -/
theorem delims_of_not_quoted (h : ¬Quoted path) : delims path = separator := by
  have : path.head? ≠ some quotationMark := fun e => h (.inl (by rwa [← List.head?_eq_getElem?]))
  simp [delims,this]

/-- A colon is never a delimiter. -/
theorem delims_separator (path : Text) : delims path fsSeparator = false := by
  simp only [delims]
  split_ifs <;> decide

/-- A path of delimiters is refused. -/
theorem fileOpen_of_all (hne : path ≠ []) (h : ∀ c ∈ path,delims path c = true) :
    s.fileOpen cwd flags path = .refused := by
  simp only [System.fileOpen,hne,if_false,tokens_of_all h]

section Cut

variable {skip tok tail : Text}

/-- A path with a token is not empty. -/
theorem ne_nil_of_cut {delim : Char → Bool} (h : Cut delim path skip tok tail) : path ≠ [] := by
  rintro rfl
  have := h.parts
  simp_all [h.token]

/-- What is done with a path depends on its first token. -/
theorem fileOpen_of_cut (h : Cut (delims path) path skip tok tail) :
    s.fileOpen cwd flags path =
      if fsSeparator ∈ tok then
        match s.getFS (tok.takeWhile (· ≠ fsSeparator)) with
        | none => .refused
        | some fs =>
          match tokens tail.tail with
          | [] => .outside
          | t :: _ => s.follow flags (s.tree.root fs) (texts (tail.tail.drop t.offset))
      else if tok.head? = some '/' then .crashed
      else s.follow flags cwd (texts path) := by
  simp only [System.fileOpen,ne_nil_of_cut h,if_false,tokens_of_cut h]
  split_ifs
  · cases s.getFS (tok.takeWhile (· ≠ fsSeparator)) with
    | none => rfl
    | some fs =>
      cases tokens tail.tail with
      | nil => rfl
      | cons t ts => simp only [List.map_cons,Token.shift,h.drop_eq,System.openFrom]
  · rfl
  · rfl

/-- The name of a file system that is taken from a path with a token. -/
theorem systemName_of_cut (h : Cut (delims path) path skip tok tail) :
    systemName path =
      if fsSeparator ∈ tok then some (tok.takeWhile (· ≠ fsSeparator)) else none := by
  simp only [systemName,tokens_of_cut h]

/-- A path whose first token names a file system does not lead where its components lead. -/
theorem fileOpen_ne_follow (h : Cut (delims path) path skip tok tail) (hs : fsSeparator ∈ tok)
    (d : D) : s.fileOpen cwd flags path ≠ s.follow flags d (components path) := by
  rw [fileOpen_of_cut h,if_pos hs]
  cases s.getFS (tok.takeWhile (· ≠ fsSeparator)) with
  | none => simp [System.follow]
  | some fs =>
    cases tokens tail.tail with
    | nil => simp [System.follow]
    | cons t ts =>
      intro e
      have same := congrArg (fun cs => cs.flatten.count fsSeparator) (follow_eq_iff.mp e).2
      simp only [count_strip (by decide : fsSeparator ≠ '.')] at same
      rw [count_components (by decide),h.count_eq (delims_separator path)] at same
      have fewer := count_texts_le fsSeparator (tail.tail.drop t.offset)
      have dropped := (List.drop_sublist t.offset tail.tail).count_le fsSeparator
      have := List.count_pos_iff.mpr hs
      omega

end Cut

/-- A path that does not name a file system leads where its components lead from where it
starts exactly when it is plain. -/
theorem follows_iff (hne : path ≠ []) :
    s.fileOpen cwd flags path = s.follow flags (start s cwd path) (components path) ↔
      Plain s cwd path := by
  have starts : cwd = start s cwd path ↔
      (Absolute path → cwd = s.tree.root (s.tree.fs cwd)) := by
    simp only [start]
    split_ifs with h <;> simp [h]
  rcases cut_cases (delims path) path with all | ⟨skip,tok,tail,hc⟩
  · rw [fileOpen_of_all hne all]
    refine ⟨fun e => by simp [System.follow] at e,fun ⟨first,rest,e,_,hq,_⟩ => ?_⟩
    rw [delims_of_not_quoted hq] at all
    simp [components_of_all all] at e
  · by_cases hs : fsSeparator ∈ tok
    · refine ⟨fun e => absurd e (fileOpen_ne_follow hc hs _),fun ⟨first,rest,e,hf,hq,_⟩ => ?_⟩
      rw [delims_of_not_quoted hq] at hc
      rw [components_of_cut hc] at e
      exact absurd ((List.cons.inj e).1 ▸ hs) hf
    · rw [fileOpen_of_cut hc,if_neg hs]
      split_ifs with hf
      · refine ⟨fun e => by simp [System.follow] at e,fun ⟨first,rest,e,_,hq,_⟩ => ?_⟩
        rw [delims_of_not_quoted hq] at hc
        have := hc.keeps '/' (List.mem_of_mem_head? hf)
        exact absurd this (by decide)
      · rw [follow_eq_iff,strip_texts_iff,starts]
        constructor
        · rintro ⟨hst,hq⟩
          rw [delims_of_not_quoted hq] at hc
          exact ⟨tok,_,components_of_cut hc,hs,hq,hst⟩
        · rintro ⟨first,rest,-,-,hq,hst⟩
          exact ⟨hst,hq⟩

/-- A path is refused as it should be exactly when there is no file system of the name. -/
theorem refused_iff {fs p : Text} : (∃ c,Found s.objects s.directory fs c ∧
    Outcome.refused = expected s flags (c.map s.tree.root) (components p)) ↔
      Found s.objects s.directory fs none := by
  constructor
  · rintro ⟨c,found,e⟩
    cases c with
    | none => exact found
    | some c => simp [expected,System.follow] at e
  · exact fun found => ⟨none,found,rfl⟩

/-- Components that are followed from the root of a file system are those of p from where they
should be exactly when it has the name and they lead the same way. -/
theorem followed_iff {fs p : Text} {c : ℕ} {cs : List Text} :
    (∃ c',Found s.objects s.directory fs c' ∧ s.follow flags (s.tree.root c) cs =
      expected s flags (c'.map s.tree.root) (components p)) ↔
      Found s.objects s.directory fs (some c) ∧ strip cs = strip (components p) := by
  constructor
  · rintro ⟨c',found,e⟩
    cases c' with
    | none => simp [expected,System.follow] at e
    | some c' =>
      obtain ⟨hr,hcs⟩ := follow_eq_iff.mp e
      rw [root_injective hr]
      exact ⟨found,hcs⟩
  · exact fun ⟨found,hcs⟩ => ⟨some c,found,follow_eq_iff.mpr ⟨rfl,hcs⟩⟩

/-- Reading in front of a path is not what should become of a call. -/
theorem outside_ne_expected (start : Option D) (cs : List Text) :
    Outcome.outside ≠ expected s flags start cs := by
  cases start <;> simp [expected,System.follow]

/-- A path that names a file system, where the name does not begin with a quotation mark. -/
theorem inSystem_iff {fs p : Text} (h : InSystem path fs p)
    (hq : fs.head? ≠ some quotationMark) :
    (∃ c,Found s.objects s.directory fs c ∧
      s.fileOpen cwd flags path = expected s flags (c.map s.tree.root) (components p)) ↔
      ((∃ c,s.getFS fs = some c ∧ Found s.objects s.directory fs (some c)) ∧
        components p ≠ [] ∧ ¬Quoted (p.dropWhile separator)) ∨
      (Found s.objects s.directory fs none ∧ s.getFS fs = none) := by
  obtain ⟨y,hc⟩ := h.cut
  rw [fileOpen_of_cut (h.delims_eq hq ▸ hc),if_pos (by simp),h.takeWhile_eq,List.tail_cons]
  cases hg : s.getFS fs with
  | none => simpa using refused_iff
  | some c =>
    cases ht : tokens p with
    | nil =>
      have none_left : ¬(components p ≠ [] ∧ ¬Quoted (p.dropWhile separator)) :=
        fun ⟨hne,hn⟩ => hne (components_of_tokens ht hn)
      simp [outside_ne_expected,none_left]
    | cons t ts =>
      have hne : components p ≠ [] := fun e => by simp [tokens_of_components e] at ht
      simp only [followed_iff,strip_texts_drop_iff ht]
      simp [hne]

/-- When a quoted token goes on behind the name of the file system, the quotation marks of p are
those behind the token. -/
theorem InSystem.count_tail {fs p skip tok tail : Text} (h : InSystem path fs p)
    (hc : Cut (delims path) path skip tok tail) (hq : path.head? = some quotationMark)
    (hs : fsSeparator ∈ tok) : p.count quotationMark = tail.count quotationMark := by
  have marks : delims path = (· == quotationMark) := by simp [delims,hq]
  have inside : quotationMark ∉ tok := fun hm => by
    have := hc.keeps _ hm
    rw [marks] at this
    simp at this
  have skips : fsSeparator ∉ skip := fun hm => by
    have := hc.skips _ hm
    rw [delims_separator] at this
    simp at this
  obtain ⟨a,b,rfl,ha⟩ := List.eq_append_cons_of_mem hs
  obtain ⟨y,hy,e,hf,-⟩ := h
  have first {w rest : Text} (hw : fsSeparator ∉ w) :
      (w ++ fsSeparator :: rest).dropWhile (· ≠ fsSeparator) = fsSeparator :: rest :=
    (takeWhile_part (fun c hc => by simpa using fun e : c = fsSeparator => hw (e ▸ hc))
      (by simp)).2
  have rest : y :: p = b ++ tail := by
    have := hc.parts.symm.trans e
    rw [List.append_assoc,List.append_assoc,← List.append_assoc,List.cons_append] at this
    have cut := congrArg (List.dropWhile (· ≠ fsSeparator)) this
    rw [first hf,first (by simp [skips,ha])] at cut
    exact (List.cons.inj cut).2.symm
  have hy' : y ≠ quotationMark := by
    rintro rfl
    exact absurd hy (by decide)
  have hb : quotationMark ∉ b := fun hm => inside (by simp [hm])
  have count := congrArg (List.count quotationMark) rest
  rw [List.count_cons_of_ne hy',List.count_append,List.count_eq_zero.mpr hb] at count
  omega

/-- A path whose name of a file system begins with a quotation mark. -/
theorem inSystem_quoted_iff {fs p : Text} (h : InSystem path fs p)
    (hq : fs.head? = some quotationMark) :
    (∃ c,Found s.objects s.directory fs c ∧
      s.fileOpen cwd flags path = expected s flags (c.map s.tree.root) (components p)) ↔
      Found s.objects s.directory fs none ∧ ∃ x,systemName path = some x ∧ s.getFS x = none := by
  have front : path.head? = some quotationMark := by
    obtain ⟨y,-,rfl,-,-⟩ := h
    cases fs with
    | nil => simp at hq
    | cons c fs => simpa using hq
  rcases cut_cases (delims path) path with all | ⟨skip,tok,tail,hc⟩
  · obtain ⟨y,-,rfl,-,-⟩ := h
    have := all fsSeparator (by simp)
    simp [delims_separator] at this
  · rw [systemName_of_cut hc,fileOpen_of_cut hc]
    by_cases hs : fsSeparator ∈ tok
    · simp only [if_pos hs]
      generalize tok.takeWhile (· ≠ fsSeparator) = x
      cases hg : s.getFS x with
      | none =>
        rw [refused_iff]
        simp [hg]
      | some c =>
        cases ht : tokens tail.tail with
        | nil => simp [outside_ne_expected,hg]
        | cons t ts =>
          refine iff_of_false ?_ (by simp [hg])
          simp only [followed_iff]
          rintro ⟨-,e⟩
          have same := congrArg (fun cs => cs.flatten.count quotationMark) e
          simp only [count_strip (by decide : quotationMark ≠ '.')] at same
          rw [count_components (by decide),h.count_tail hc front hs] at same
          have fewer := count_texts_le quotationMark (tail.tail.drop t.offset)
          have dropped := (List.drop_sublist t.offset tail.tail).count_le quotationMark
          have ends : tail = quotationMark :: tail.tail := by
            cases tail with
            | nil => simp [tokens,tokensFrom] at ht
            | cons d tail =>
              have := hc.ends d rfl
              simp only [delims,front,if_true,beq_iff_eq] at this
              rw [this]
              rfl
          have : tail.count quotationMark = tail.tail.count quotationMark + 1 := by
            conv_lhs => rw [ends]
            simp
          omega
    · simp only [if_neg hs]
      refine iff_of_false ?_ (by simp)
      rintro ⟨c,-,e⟩
      split_ifs at e
      · cases c <;> simp [expected,System.follow] at e
      · cases c with
        | none => simp [expected,System.follow] at e
        | some c =>
          have same := congrArg (fun cs => cs.flatten.count fsSeparator) (follow_eq_iff.mp e).2
          simp only [count_strip (by decide : fsSeparator ≠ '.')] at same
          rw [count_components (by decide),count_texts (by decide) (by decide),
            h.count_separator] at same
          omega

/-- The name that is taken from a path that names a file system, where it does not begin with a
quotation mark. -/
theorem systemName_of_inSystem {fs p : Text} (h : InSystem path fs p)
    (hq : fs.head? ≠ some quotationMark) : systemName path = some fs := by
  obtain ⟨y,hc⟩ := h.cut
  rw [systemName_of_cut (h.delims_eq hq ▸ hc),if_pos (by simp),h.takeWhile_eq]

/-- File::Open resolves a path exactly when it is empty, plain, or a prefixed one whose file
system is found. -/
theorem resolved_iff (s : System D) (cwd : D) (flags : ℕ) (path : Text) :
    Resolved s cwd flags path ↔ path = [] ∨ Plain s cwd path ∨ Prefixed s path := by
  by_cases hne : path = []
  · subst hne
    have no : ¬∃ fs p,InSystem [] fs p := fun ⟨fs,p,y,_,e,_⟩ => by simp at e
    rw [resolved_of_not_inSystem no]
    refine iff_of_true ?_ (.inl rfl)
    exact follow_eq_iff.mpr ⟨by simp [start,Absolute],by decide⟩
  · by_cases hs : ∃ fs p,InSystem path fs p
    · obtain ⟨fs,p,h⟩ := hs
      have not_plain : ¬Plain s cwd path := by
        rintro ⟨first,rest,e,hf,-⟩
        obtain ⟨y,hc⟩ := h.cut
        rw [components_of_cut hc] at e
        exact hf ((List.cons.inj e).1 ▸ by simp)
      have prefixed : Prefixed s path ↔
          ((fs.head? ≠ some quotationMark ∧ (∃ c,s.getFS fs = some c ∧
              Found s.objects s.directory fs (some c)) ∧
              components p ≠ [] ∧ ¬Quoted (p.dropWhile separator)) ∨
            (Found s.objects s.directory fs none ∧
              ∃ x,systemName path = some x ∧ s.getFS x = none)) := by
        refine ⟨fun ⟨fs',p',h',holds⟩ => ?_,fun holds => ⟨fs,p,h,holds⟩⟩
        obtain ⟨rfl,rfl⟩ := h.unique h'
        exact holds
      rw [resolved_of_inSystem h,prefixed]
      by_cases hq : fs.head? = some quotationMark
      · rw [inSystem_quoted_iff h hq]
        simp [hne,not_plain,hq]
      · rw [inSystem_iff h hq]
        simp [hne,not_plain,hq,systemName_of_inSystem h hq]
    · have not_prefixed : ¬Prefixed s path := fun ⟨fs,p,h,_⟩ => hs ⟨fs,p,h⟩
      rw [resolved_of_not_inSystem hs,follows_iff hne]
      simp [hne,not_prefixed]

end Calls

/-- File systems with every name in every directory. A dentry is given by its file system and
the names up to the root. -/
def everything : DentryTree (ℕ × List Text) where
  parent d := match d.2 with
    | [] => none
    | _ :: names => some (d.1,names)
  name d := d.2.headD ['/']
  fs d := d.1
  depth d := d.2.length
  root c := (c,[])
  lookup d n := some (d.1,n :: d.2)
  fs_root _ := rfl
  parent_root _ := rfl
  name_root _ := rfl
  eq_root := by
    rintro ⟨c,_ | ⟨n,names⟩⟩ h
    · rfl
    · simp at h
  of_parent := by
    rintro ⟨c,_ | ⟨n,names⟩⟩ p h
    · simp at h
    · obtain rfl := Option.some.inj h
      exact ⟨rfl,rfl⟩
  of_lookup := by
    rintro d n e h
    obtain rfl := Option.some.inj h
    exact ⟨rfl,rfl⟩

/-- One file system that is labelled A. -/
def labelledA : System (ℕ × List Text) where
  objects := mounted [some ['A']]
  stack := cleanStack
  heap := []
  directory := 2
  container := container_mounted _
  tree := everything
  resizes _ := true
  isDirectory _ := true

/-- From the directory b, the path /a leads to a in b, and A:/ is read from in front of its
beginning. -/
theorem absolute_not_resolved :
    ¬Resolved labelledA (3,[['b']]) 0 ['/','a'] ∧
      ¬Resolved labelledA (3,[['b']]) 0 ['A',':','/'] := by
  constructor
  · have no : ¬∃ fs p,InSystem ['/','a'] fs p := fun ⟨fs,p,y,_,e,_⟩ => by
      have : fsSeparator ∈ ['/','a'] := by rw [e]; simp
      exact absurd this (by decide)
    rw [resolved_of_not_inSystem no]
    intro e
    change Outcome.followed (3,[['b']]) _ _ = Outcome.followed (3,[]) _ _ at e
    injection e with e
    simp at e
  · have named : InSystem ['A',':','/'] ['A'] [] := ⟨'/',by decide,rfl,by simp [fsSeparator],by simp [separator]⟩
    have read : labelledA.fileOpen (3,[['b']]) 0 ['A',':','/'] = .outside := rfl
    rw [resolved_of_inSystem named]
    rintro ⟨c,-,e⟩
    exact outside_ne_expected _ _ (read.symm.trans e)

end WootOs.PathResolution
