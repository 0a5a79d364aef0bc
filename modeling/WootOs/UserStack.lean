import WootOs.ByteStore
import WootOs.Tokenizer

/-!
# The first stack of a process

A process starts with its arguments and its environment on the stack. The strings are
pushed first and their addresses kept in two arrays of 32 entries. Below them, from an
address that is a multiple of 16, come the auxiliary vectors, the addresses of the
environment and those of the arguments, each list from its end and closed by a zero, and
last the number of arguments.

Reading upwards from the stack pointer gives all of them back as long as the arrays are
long enough. With more arguments or more of an environment than that the arrays are
overrun.
-/

namespace WootOs.UserStack

open ByteStore
open ObjectTree (Text)

/-- A string of C. Its characters are bytes and none of them is zero. -/
structure CString where
  /-- The characters. -/
  text : Text
  /-- They are bytes other than zero. -/
  chars : ∀ c ∈ text,0<c.toNat ∧ c.toNat<256

/-- The bytes of a text. -/
def bytes (t : Text) : List UInt8 := t.map fun c => UInt8.ofNat c.toNat

/-- The bytes of words, one after the other. -/
def wordBytes (ws : List ℕ) : List UInt8 := ws.flatMap (leBytes 4)

/-- Memory and a stack pointer of 32 bits. -/
structure Stack where
  /-- Memory. -/
  memory : Store
  /-- stackPtr. -/
  ptr : ℕ

/-- The fields of ELF that the new process is told about. -/
structure ElfData where
  /-- EntryPoint. -/
  entryPoint : ℕ
  /-- base. -/
  base : ℕ
  /-- e_phnum of the header. -/
  ePhnum : ℕ
  /-- e_phentsize of the header. -/
  ePhentsize : ℕ
  /-- phdrData. -/
  phdrData : ℕ

/-- The length of argPtrs and of envPtrs. -/
def ptrCount : ℕ := 32

/-- PAGE_SIZE. -/
def pageSize : ℕ := 4096

/-- The function stackPush. -/
def Stack.push (s : Stack) (data : List UInt8) : Stack :=
  let ptr := (s.ptr + (2 ^ 32 - data.length % 2 ^ 32)) % 2 ^ 32
  ⟨patch s.memory ptr data,ptr⟩

/-- The loops that push strings, with the entry of the next one. A store behind the end of the
array has no result. -/
def pushStrings : List Text → ℕ → Stack → (ℕ → ℕ) → Option (Stack × (ℕ → ℕ))
  | [],_,s,ptrs => some (s,ptrs)
  | t :: ts,i,s,ptrs =>
    let s := s.push (bytes t ++ [0])
    if i<ptrCount then pushStrings ts (i + 1) s (Function.update ptrs i s.ptr) else none

/-- The loops that push addresses, with the number of those that are left. The last one is
pushed first. -/
def pushPtrs (ptrs : ℕ → ℕ) : ℕ → Stack → Option Stack
  | 0,s => some s
  | n + 1,s => if n<ptrCount then pushPtrs ptrs n (s.push (wordBytes [ptrs n])) else none

/-- auxVectors: AT_ENTRY, AT_BASE, AT_PAGESZ, AT_PHNUM, AT_PHENT and AT_PHDR. -/
def auxVectors (elf : ElfData) : List (ℕ × ℕ) :=
  [(9,elf.entryPoint % 2 ^ 32),(7,elf.base % 2 ^ 32),(6,pageSize),(5,elf.ePhnum % 2 ^ 32),
    (4,elf.ePhentsize % 2 ^ 32),(3,elf.phdrData % 2 ^ 32)]

/-- Pairs of words as words. -/
def pairWords (pairs : List (ℕ × ℕ)) : List ℕ := pairs.flatMap fun p => [p.1,p.2]

/-- The arguments of a command line. -/
def arguments (cmdLine : Text) : List Text :=
  (Tokenizer.tokens cmdLine [' '] 0).map PathTokens.Token.text

/-- Process::buildUserStack, with what argPtrs and envPtrs hold before they are filled. -/
def buildUserStack (s : Stack) (cmdLine : Text) (env : List Text) (elf : ElfData)
    (argPtrs envPtrs : ℕ → ℕ) : Option Stack := do
  let args := arguments cmdLine
  let s := s.push (wordBytes [0])
  let (s,envPtrs) ← pushStrings env 0 s envPtrs
  let (s,argPtrs) ← pushStrings args 0 s argPtrs
  let s := s.push (List.replicate (s.ptr % 16) 0)
  let s := (s.push (wordBytes [0])).push (wordBytes [0])
  let s := s.push (wordBytes (pairWords (auxVectors elf)))
  let s := s.push (wordBytes [0])
  let s ← pushPtrs envPtrs env.length s
  let s := s.push (wordBytes [0])
  let s ← pushPtrs argPtrs args.length s
  some (s.push (wordBytes [args.length]))

/-- The bytes from an address on, up to a zero. -/
def bytesAt (m : Store) : ℕ → ℕ → List UInt8
  | 0,_ => []
  | n + 1,a => if m a = 0 then [] else m a :: bytesAt m n (a + 1)

/-- The words from an address on, up to a zero. -/
def wordsAt (m : Store) : ℕ → ℕ → List ℕ
  | 0,_ => []
  | n + 1,a => if word m 4 a = 0 then [] else word m 4 a :: wordsAt m n (a + 4)

/-- The pairs of words from an address on, up to one that begins with AT_NULL. -/
def pairsAt (m : Store) : ℕ → ℕ → List (ℕ × ℕ)
  | 0,_ => []
  | n + 1,a => if word m 4 a = 0 then [] else
      (word m 4 a,word m 4 (a + 4)) :: pairsAt m n (a + 8)

/-- What a new process finds from its stack pointer on. -/
structure Start where
  /-- The number of arguments. -/
  argc : ℕ
  /-- The addresses of the arguments. -/
  argv : List ℕ
  /-- The addresses of the environment. -/
  envp : List ℕ
  /-- The auxiliary vectors. -/
  auxv : List (ℕ × ℕ)
  deriving DecidableEq

/-- Where the addresses of the environment begin. -/
def envStart (esp argc : ℕ) : ℕ := esp + 4 + 4 * argc + 4

/-- Where the auxiliary vectors begin. -/
def auxStart (esp argc envc : ℕ) : ℕ := envStart esp argc + 4 * envc + 4

/-- The start of a process read from its stack, below an address. -/
def decode (m : Store) (initial esp : ℕ) : Start :=
  let argc := word m 4 esp
  let envp := wordsAt m initial (envStart esp argc)
  ⟨argc,(List.range argc).map fun i => word m 4 (esp + 4 + 4 * i),envp,
    pairsAt m initial (auxStart esp argc envp.length)⟩

/-- Where the last pair of the auxiliary vectors ends. -/
def Start.stop (x : Start) (esp : ℕ) : ℕ :=
  auxStart esp x.argc x.envp.length + 8 * x.auxv.length + 8

/-- The stack pointer shows what a process with some arguments and environment is to find,
below an initial address. -/
structure Image (m : Store) (initial esp : ℕ) (args env : List (List UInt8))
    (aux : List (ℕ × ℕ)) : Prop where
  /-- The number of arguments. -/
  argc : (decode m initial esp).argc = args.length
  /-- The arguments. -/
  argv : (decode m initial esp).argv.map (bytesAt m initial) = args
  /-- A zero behind their addresses. -/
  argEnd : word m 4 (esp + 4 + 4 * args.length) = 0
  /-- The environment. -/
  envp : (decode m initial esp).envp.map (bytesAt m initial) = env
  /-- A zero behind its addresses. -/
  envEnd : word m 4 (envStart esp args.length + 4 * env.length) = 0
  /-- The auxiliary vectors. -/
  auxv : (decode m initial esp).auxv = aux
  /-- A pair of zeros behind them. -/
  auxEnd : word m 4 (auxStart esp args.length env.length + 8 * aux.length) = 0 ∧
    word m 4 (auxStart esp args.length env.length + 8 * aux.length + 4) = 0
  /-- The strings, with their zeros, stand above all this and below the initial address. -/
  strings : ∀ p ∈ (decode m initial esp).argv ++ (decode m initial esp).envp,
    (decode m initial esp).stop esp ≤ p ∧ p + (bytesAt m initial p).length < initial
  /-- All this ends at a multiple of 16. -/
  aligned : (decode m initial esp).stop esp % 16 = 0

/-- What strings take with their zeros. -/
def stringsSize (ts : List Text) : ℕ := (ts.map fun t => t.length + 1).sum

/-- What the strings take, with the zero before them. -/
def stringArea (args env : List Text) : ℕ := 4 + stringsSize env + stringsSize args

/-- What the stack is to hold, with the bytes that are left out below the strings. -/
def imageSize (ptr : ℕ) (args env : List Text) (aux : List (ℕ × ℕ)) : ℕ :=
  stringArea args env + (ptr - stringArea args env) % 16 + 8 + 8 * aux.length + 4 +
    4 * env.length + 4 + 4 * args.length + 4

section Words

variable {m : Store} {a : ℕ}

/-- Words stand in memory from an address on. -/
def Words (m : Store) (a : ℕ) (ws : List ℕ) : Prop :=
  ∀ (i w : ℕ),ws[i]? = some w → word m 4 (a + 4 * i) = w

/-- Bytes that are two lists one after the other. -/
theorem slice_eq_append {x y : List UInt8} {n : ℕ} (h : slice m a n = x ++ y) :
    slice m a x.length = x ∧ slice m (a + x.length) y.length = y := by
  have size : n = x.length + y.length := by
    rw [← slice_length m a n,h,List.length_append]
  rw [size,slice_append] at h
  exact List.append_inj h (slice_length m a x.length)

/-- The bytes of words take four each. -/
@[simp] theorem wordBytes_length (ws : List ℕ) : (wordBytes ws).length = 4 * ws.length := by
  induction ws with
  | nil => rfl
  | cons w ws ih =>
    rw [wordBytes,List.flatMap_cons,List.length_append,leBytes_length,← wordBytes,ih,
      List.length_cons]
    ring

/-- The bytes of more words come behind those of some. -/
theorem wordBytes_append (vs ws : List ℕ) : wordBytes (vs ++ ws) = wordBytes vs ++ wordBytes ws :=
  List.flatMap_append

/-- Where the bytes of words stand the words do. -/
theorem words_of_slice {ws : List ℕ} (small : ∀ w ∈ ws,w<2 ^ 32) :
    ∀ {a n : ℕ},slice m a n = wordBytes ws → Words m a ws := by
  induction ws with
  | nil =>
    intro a n _ i w hw
    simp at hw
  | cons v ws ih =>
    intro a n h i w hw
    rw [wordBytes,List.flatMap_cons] at h
    obtain ⟨first,rest⟩ := slice_eq_append h
    rw [leBytes_length] at first rest
    cases i with
    | zero =>
      obtain rfl : v = w := by simpa using hw
      rw [Nat.mul_zero,Nat.add_zero,word,first,leValue_leBytes]
      exact Nat.mod_eq_of_lt (small v (by simp))
    | succ i =>
      rw [show a + 4 * (i + 1) = a + 4 + 4 * i by ring]
      exact ih (fun w hw => small w (by simp [hw])) rest i w (by simpa using hw)

/-- Words one after the other. -/
theorem words_append {vs ws : List ℕ} :
    Words m a (vs ++ ws) ↔ Words m a vs ∧ Words m (a + 4 * vs.length) ws := by
  constructor
  · intro h
    refine ⟨fun i w hw => h i w ?_,fun i w hw => ?_⟩
    · rw [List.getElem?_append_left (List.getElem?_eq_some_iff.mp hw).1,hw]
    · rw [Nat.add_assoc,← Nat.mul_add]
      refine h (vs.length + i) w ?_
      rw [List.getElem?_append_right (Nat.le_add_right _ _),Nat.add_sub_cancel_left,hw]
  · rintro ⟨h,hs⟩ i w hw
    rcases Nat.lt_or_ge i vs.length with hlt | hge
    · rw [List.getElem?_append_left hlt] at hw
      exact h i w hw
    · rw [List.getElem?_append_right hge] at hw
      have := hs (i - vs.length) w hw
      rwa [Nat.add_assoc,← Nat.mul_add,Nat.add_sub_cancel' hge] at this

/-- The first word and the others. -/
theorem words_cons (w : ℕ) (ws : List ℕ) :
    Words m a (w :: ws) ↔ word m 4 a = w ∧ Words m (a + 4) ws := by
  have := @words_append m a [w] ws
  rw [List.singleton_append] at this
  refine this.trans (and_congr_left' ⟨fun h => h 0 w rfl,?_⟩)
  rintro h i v hv
  cases i with
  | zero => simpa [h] using hv
  | succ i => simp at hv

/-- A list of words that are not zero is read up to the zero behind it. -/
theorem wordsAt_eq {ws : List ℕ} (used : ∀ w ∈ ws,w ≠ 0) :
    ∀ {a n : ℕ},Words m a (ws ++ [0]) → ws.length<n → wordsAt m n a = ws := by
  induction ws with
  | nil =>
    intro a n h hn
    obtain ⟨n,rfl⟩ := Nat.exists_eq_succ_of_ne_zero (n := n) (by omega)
    rw [wordsAt,if_pos ((words_cons _ _).mp h).1]
  | cons w ws ih =>
    intro a n h hn
    obtain ⟨n,rfl⟩ := Nat.exists_eq_succ_of_ne_zero (n := n) (by omega)
    obtain ⟨first,rest⟩ := (words_cons _ _).mp h
    rw [wordsAt,first,if_neg (used w (by simp)),
      ih (fun w hw => used w (by simp [hw])) rest (by simpa using hn)]

/-- A list of pairs that do not begin with zero is read up to the zero behind it. -/
theorem pairsAt_eq {ps : List (ℕ × ℕ)} (used : ∀ p ∈ ps,p.1 ≠ 0) :
    ∀ {a n : ℕ},Words m a (pairWords ps ++ [0]) → ps.length<n → pairsAt m n a = ps := by
  induction ps with
  | nil =>
    intro a n h hn
    obtain ⟨n,rfl⟩ := Nat.exists_eq_succ_of_ne_zero (n := n) (by omega)
    rw [pairsAt,if_pos ((words_cons _ _).mp h).1]
  | cons p ps ih =>
    intro a n h hn
    obtain ⟨n,rfl⟩ := Nat.exists_eq_succ_of_ne_zero (n := n) (by omega)
    obtain ⟨first,rest⟩ := (words_cons _ _).mp h
    obtain ⟨second,rest⟩ := (words_cons _ _).mp rest
    rw [pairsAt,first,second,if_neg (used p (by simp)),
      ih (fun q hq => used q (by simp [hq])) rest (by simpa using hn)]

/-- Bytes that are not zero are read up to the zero behind them. -/
theorem bytesAt_eq {bs : List UInt8} (used : ∀ b ∈ bs,b ≠ 0) :
    ∀ {a n k : ℕ},slice m a k = bs ++ [0] → bs.length<n → bytesAt m n a = bs := by
  induction bs with
  | nil =>
    intro a n k h hn
    obtain ⟨n,rfl⟩ := Nat.exists_eq_succ_of_ne_zero (n := n) (by omega)
    have first : m a = 0 := by simpa [slice] using (slice_eq_append (x := [0]) (y := []) h).1
    rw [bytesAt,if_pos first]
  | cons b bs ih =>
    intro a n k h hn
    obtain ⟨n,rfl⟩ := Nat.exists_eq_succ_of_ne_zero (n := n) (by omega)
    obtain ⟨first,rest⟩ := slice_eq_append (x := [b]) (y := bs ++ [0]) h
    have first : m a = b := by simpa [slice] using first
    rw [List.length_singleton] at rest
    rw [bytesAt,first,if_neg (used b (by simp)),
      ih (fun c hc => used c (by simp [hc])) rest (by simpa using hn)]

end Words

/-- Bytes were pushed on the stack, and nothing else was written. -/
structure Pushed (s t : Stack) (data : List UInt8) : Prop where
  /-- The stack pointer went down by as many. -/
  size : t.ptr + data.length = s.ptr
  /-- The bytes stand from the stack pointer on. -/
  holds : slice t.memory t.ptr data.length = data
  /-- Beside them nothing was written. -/
  frame : ∀ a : ℕ,a<t.ptr ∨ s.ptr ≤ a → t.memory a = s.memory a

section Pushes

variable {s t u : Stack} {data more : List UInt8}

/-- What was above the stack stays there. -/
theorem Pushed.above (h : Pushed s t data) {a n : ℕ} (ha : s.ptr ≤ a) :
    slice t.memory a n = slice s.memory a n :=
  slice_congr fun i _ => h.frame (a + i) (.inr (by omega))

/-- One push after the other. -/
theorem Pushed.append (h : Pushed s t data) (k : Pushed t u more) : Pushed s u (more ++ data) := by
  have hs := h.size
  have ks := k.size
  refine ⟨by rw [List.length_append]; omega,?_,fun a ha => ?_⟩
  · rw [List.length_append,slice_append,k.holds,ks,k.above (le_refl _),h.holds]
  · rw [k.frame a (by omega),h.frame a (by omega)]

/-- What fits is pushed. -/
theorem push_pushed (word32 : s.ptr<2 ^ 32) (fits : data.length ≤ s.ptr) :
    Pushed s (s.push data) data := by
  have ptr : (s.push data).ptr = s.ptr - data.length := by
    simp only [Stack.push]
    omega
  refine ⟨by omega,?_,fun a ha => patch_out ?_⟩
  · exact slice_patch_same _ _ _
  · simp only [Stack.push] at ptr ha ⊢
    omega

/-- The stack pointer stays one of 32 bits. -/
theorem Pushed.word32 (h : Pushed s t data) (word32 : s.ptr<2 ^ 32) : t.ptr<2 ^ 32 := by
  have := h.size
  omega

/-- Two pushes of words. -/
theorem Pushed.words {vs ws : List ℕ} (h : Pushed s t (wordBytes vs))
    (k : Pushed t u (wordBytes ws)) : Pushed s u (wordBytes (ws ++ vs)) := by
  rw [wordBytes_append]
  exact h.append k

end Pushes

/-- A text stands with its zero between two addresses. -/
structure Stands (m : Store) (low high p : ℕ) (t : Text) : Prop where
  /-- Above the first. -/
  low : low ≤ p
  /-- Below the second. -/
  high : p + t.length + 1 ≤ high
  /-- In memory. -/
  holds : slice m p (t.length + 1) = bytes t ++ [0]

section Strings

variable {s t : Stack}

/-- A text has as many bytes as characters. -/
@[simp] theorem bytes_length (t : Text) : (bytes t).length = t.length := List.length_map _

/-- A text stays where it stands when bytes are pushed below it. -/
theorem Stands.pushed {data : List UInt8} {high p : ℕ} {x : Text}
    (h : Stands s.memory s.ptr high p x) (k : Pushed s t data) :
    Stands t.memory t.ptr high p x := by
  have := k.size
  have := h.low
  refine ⟨by omega,h.high,?_⟩
  rw [k.above h.low,h.holds]

/-- It stays between the same addresses. -/
theorem Stands.kept {data : List UInt8} {high p : ℕ} {x : Text}
    (h : Stands s.memory s.ptr high p x) (k : Pushed s t data) : Stands t.memory s.ptr high p x :=
  ⟨h.low,h.high,by rw [k.above h.low,h.holds]⟩

/-- Texts stand below the upper bound. -/
theorem stands_below {m : Store} {low high : ℕ} {ps : List ℕ} {ts : List Text}
    (h : List.Forall₂ (Stands m low high) ps ts) : ∀ p ∈ ps,p<high := by
  induction h with
  | nil => simp
  | cons first _ ih =>
    have := first.high
    intro p hp
    rcases List.mem_cons.mp hp with rfl | hp
    · omega
    · exact ih p hp

/-- Strings that fit are pushed, and the array has their addresses. -/
theorem pushStrings_pushed (ts : List Text) : ∀ (i : ℕ) (s : Stack) (ptrs : ℕ → ℕ),
    i + ts.length ≤ ptrCount → s.ptr<2 ^ 32 → stringsSize ts ≤ s.ptr →
    ∃ (t : Stack) (filled : ℕ → ℕ) (data : List UInt8),
      pushStrings ts i s ptrs = some (t,filled) ∧ Pushed s t data ∧
      data.length = stringsSize ts ∧ (∀ j < i,filled j = ptrs j) ∧
      ∀ (j : ℕ) (x : Text),ts[j]? = some x → Stands t.memory t.ptr s.ptr (filled (i + j)) x := by
  induction ts with
  | nil =>
    intro i s ptrs _ _ _
    refine ⟨s,ptrs,[],rfl,⟨rfl,rfl,fun _ _ => rfl⟩,rfl,fun _ _ => rfl,fun j x hx => ?_⟩
    simp at hx
  | cons x ts ih =>
    intro i s ptrs count word32 fits
    have total : stringsSize (x :: ts) = x.length + 1 + stringsSize ts := by simp [stringsSize]
    rw [List.length_cons] at count
    have pushed : Pushed s (s.push (bytes x ++ [0])) (bytes x ++ [0]) :=
      push_pushed word32 (by simp; omega)
    have size := pushed.size
    simp only [List.length_append,bytes_length,List.length_singleton] at size
    obtain ⟨t,filled,data,run,later,length,kept,stands⟩ := ih (i + 1) (s.push (bytes x ++ [0]))
      (Function.update ptrs i (s.push (bytes x ++ [0])).ptr) (by omega) (pushed.word32 word32)
      (by omega)
    refine ⟨t,filled,data ++ (bytes x ++ [0]),?_,pushed.append later,?_,fun j hj => ?_,
      fun j y hy => ?_⟩
    · rw [pushStrings,if_pos (by omega)]
      exact run
    · simp only [List.length_append,bytes_length,List.length_singleton]
      omega
    · rw [kept j (by omega),Function.update_of_ne (by omega)]
    · cases j with
      | zero =>
        obtain rfl : x = y := by simpa using hy
        have here : Stands (s.push (bytes x ++ [0])).memory (s.push (bytes x ++ [0])).ptr s.ptr
            (s.push (bytes x ++ [0])).ptr x :=
          ⟨le_refl _,by omega,by simpa using pushed.holds⟩
        have place : filled (i + 0) = (s.push (bytes x ++ [0])).ptr := by
          rw [Nat.add_zero,kept i (by omega),Function.update_self]
        rw [place]
        exact here.pushed later
      | succ j =>
        have := stands j y (by simpa using hy)
        rw [show i + (j + 1) = i + 1 + j by ring]
        exact ⟨this.low,by have := this.high; omega,this.holds⟩

/-- More strings than fit into the array are pushed over its end. -/
theorem pushStrings_none (ts : List Text) : ∀ (i : ℕ) (s : Stack) (ptrs : ℕ → ℕ),
    i ≤ ptrCount → ptrCount < i + ts.length → pushStrings ts i s ptrs = none := by
  induction ts with
  | nil =>
    intro i s ptrs hi hn
    rw [List.length_nil] at hn
    omega
  | cons x ts ih =>
    intro i s ptrs hi hn
    rw [List.length_cons] at hn
    rw [pushStrings]
    split_ifs with h
    · exact ih (i + 1) _ _ h (by omega)
    · rfl

/-- Addresses that fit are pushed in their order. -/
theorem pushPtrs_pushed (ptrs : ℕ → ℕ) (n : ℕ) : ∀ s : Stack,
    n ≤ ptrCount → s.ptr<2 ^ 32 → 4 * n ≤ s.ptr → ∃ t : Stack,pushPtrs ptrs n s = some t ∧
      Pushed s t (wordBytes ((List.range n).map ptrs)) := by
  induction n with
  | zero => exact fun s _ _ _ => ⟨s,rfl,rfl,rfl,fun _ _ => rfl⟩
  | succ n ih =>
    intro s count word32 fits
    have pushed : Pushed s (s.push (wordBytes [ptrs n])) (wordBytes [ptrs n]) :=
      push_pushed word32 (by simp; omega)
    have size := pushed.size
    simp only [wordBytes_length,List.length_singleton] at size
    obtain ⟨t,run,later⟩ := ih (s.push (wordBytes [ptrs n])) (by omega) (pushed.word32 word32)
      (by omega)
    refine ⟨t,?_,?_⟩
    · rw [pushPtrs,if_pos (by omega)]
      exact run
    · rw [List.range_succ,List.map_append]
      exact pushed.words later

end Strings

section Start

variable {m : Store} {initial esp top : ℕ} {args env : List Text} {aux : List (ℕ × ℕ)}
  {argv envp : List ℕ}

/-- The words from the stack pointer on. -/
def startWords (argv envp : List ℕ) (aux : List (ℕ × ℕ)) : List ℕ :=
  [argv.length] ++ (argv ++ ([0] ++ (envp ++ ([0] ++ (pairWords aux ++ ([0] ++ [0]))))))

/-- Two words for each pair. -/
@[simp] theorem pairWords_length (ps : List (ℕ × ℕ)) : (pairWords ps).length = 2 * ps.length := by
  induction ps with
  | nil => rfl
  | cons p ps ih =>
    rw [pairWords,List.flatMap_cons,List.length_append,← pairWords,ih,List.length_cons,
      List.length_cons,List.length_cons,List.length_nil]
    ring

/-- Texts that stand at some addresses are read from there. -/
theorem map_bytesAt {ps : List ℕ} {ts : List Text} (h : List.Forall₂ (Stands m top initial) ps ts)
    (used : ∀ t ∈ ts,∀ b ∈ bytes t,b ≠ 0) : ps.map (bytesAt m initial) = ts.map bytes := by
  induction h with
  | nil => rfl
  | @cons p t ps ts first _ ih =>
    have := first.high
    rw [List.map_cons,List.map_cons,bytesAt_eq (used t (by simp)) first.holds (by simp; omega),
      ih fun t ht => used t (by simp [ht])]

/-- They end below the upper bound. -/
theorem bytesAt_below {ps : List ℕ} {ts : List Text}
    (h : List.Forall₂ (Stands m top initial) ps ts) (used : ∀ t ∈ ts,∀ b ∈ bytes t,b ≠ 0) :
    ∀ p ∈ ps,top ≤ p ∧ p + (bytesAt m initial p).length < initial := by
  induction h with
  | nil => simp
  | @cons p t ps ts first _ ih =>
    have := first.high
    have read : bytesAt m initial p = bytes t :=
      bytesAt_eq (used t (by simp)) first.holds (by simp; omega)
    intro q hq
    rcases List.mem_cons.mp hq with rfl | hq
    · rw [read,bytes_length]
      exact ⟨first.low,by omega⟩
    · exact ih (fun t ht => used t (by simp [ht])) q hq

/-- Words that are read one by one. -/
theorem map_word {ws : List ℕ} {a : ℕ} (h : Words m a ws) :
    (List.range ws.length).map (fun i => word m 4 (a + 4 * i)) = ws := by
  refine List.ext_getElem (by simp) fun i hi hw => ?_
  rw [List.getElem_map,List.getElem_range]
  exact h i ws[i] (List.getElem?_eq_getElem hw)

/-- The words and the strings are the start of a process. -/
theorem image_of_words (words : Words m esp (startWords argv envp aux))
    (place : esp + 4 * (startWords argv envp aux).length = top) (aligned : top % 16 = 0)
    (below : top ≤ initial) (some : 0<top) (types : ∀ p ∈ aux,p.1 ≠ 0)
    (used : ∀ t ∈ args ++ env,∀ b ∈ bytes t,b ≠ 0)
    (hargs : List.Forall₂ (Stands m top initial) argv args)
    (henv : List.Forall₂ (Stands m top initial) envp env) :
    Image m initial esp (args.map bytes) (env.map bytes) aux := by
  have length : (startWords argv envp aux).length =
      argv.length + envp.length + 2 * aux.length + 5 := by
    simp only [startWords,List.length_append,List.length_singleton,pairWords_length]
    omega
  rw [length] at place
  have usedArgs : ∀ t ∈ args,∀ b ∈ bytes t,b ≠ 0 := fun t ht => used t (by simp [ht])
  have usedEnv : ∀ t ∈ env,∀ b ∈ bytes t,b ≠ 0 := fun t ht => used t (by simp [ht])
  have argc := hargs.length_eq
  have envc := henv.length_eq
  obtain ⟨count,words⟩ := words_append.mp words
  obtain ⟨first,words⟩ := words_append.mp words
  obtain ⟨argEnd,words⟩ := words_append.mp words
  have envWords : Words m (esp + 4 * [argv.length].length + 4 * argv.length + 4 * [0].length)
      (envp ++ [0]) := (words_append.mp (by simpa using words)).1
  obtain ⟨-,words⟩ := words_append.mp words
  obtain ⟨envEnd,words⟩ := words_append.mp words
  have auxWords := (words_append.mp (by simpa using words :
    Words m _ (pairWords aux ++ [0] ++ [0]))).1
  obtain ⟨-,words⟩ := words_append.mp words
  obtain ⟨auxEnd,auxValue⟩ := words_append.mp words
  simp only [List.length_singleton,Nat.mul_one] at first argEnd envWords envEnd
  simp only [List.length_singleton,Nat.mul_one,pairWords_length] at auxWords auxEnd auxValue
  have hargc : word m 4 esp = argv.length := by simpa using ((words_cons _ _).mp count).1
  have henvp : wordsAt m initial (envStart esp argv.length) = envp := by
    refine wordsAt_eq (fun p hp => ?_) envWords (by omega)
    have := (bytesAt_below henv usedEnv p hp).1
    omega
  have hauxv : pairsAt m initial (auxStart esp argv.length envp.length) = aux :=
    pairsAt_eq types auxWords (by omega)
  have start : decode m initial esp = ⟨argv.length,argv,envp,aux⟩ := by
    simp only [decode,hargc,henvp,hauxv,map_word first]
  have stop : (decode m initial esp).stop esp = top := by
    simp only [start,Start.stop,auxStart,envStart]
    omega
  refine ⟨?_,?_,?_,?_,?_,?_,⟨?_,?_⟩,?_,by rwa [stop]⟩
  · rw [start,List.length_map]
    exact argc
  · rw [start]
    exact map_bytesAt hargs usedArgs
  · rw [List.length_map,← argc]
    exact ((words_cons _ _).mp argEnd).1
  · rw [start]
    exact map_bytesAt henv usedEnv
  · rw [List.length_map,List.length_map,← argc,← envc]
    exact ((words_cons _ _).mp envEnd).1
  · rw [start]
  · rw [List.length_map,List.length_map,← argc,← envc,auxStart,envStart,
      show 8 * aux.length = 4 * (2 * aux.length) by ring]
    exact ((words_cons _ _).mp auxEnd).1
  · rw [List.length_map,List.length_map,← argc,← envc,auxStart,envStart,
      show 8 * aux.length = 4 * (2 * aux.length) by ring]
    exact ((words_cons _ _).mp auxValue).1
  · rw [stop,start]
    intro p hp
    rcases List.mem_append.mp hp with hp | hp
    · exact bytesAt_below hargs usedArgs p hp
    · exact bytesAt_below henv usedEnv p hp

end Start

section Building

variable (elf : ElfData)

/-- The bytes of a string of C are not zero. -/
theorem bytes_ne_zero {t : Text} (h : ∀ c ∈ t,0<c.toNat ∧ c.toNat<256) : ∀ b ∈ bytes t,b ≠ 0 := by
  intro b hb
  obtain ⟨c,hc,rfl⟩ := List.mem_map.mp hb
  have := h c hc
  intro e
  have := congrArg UInt8.toNat e
  rw [UInt8.toNat_ofNat'] at this
  simp at this
  omega

/-- The arguments of a command line have its characters. -/
theorem arguments_chars {cmdLine t : Text} (ht : t ∈ arguments cmdLine) : ∀ c ∈ t,c ∈ cmdLine := by
  obtain ⟨token,hm,rfl⟩ := List.mem_map.mp ht
  exact Tokenizer.tokensFrom_chars 0 _ 0 none (fun _ hc => hc) token hm

/-- The strings of a loop stand where the array says. -/
theorem stands_forall {m : Store} {low high : ℕ} {filled : ℕ → ℕ} {ts : List Text}
    (h : ∀ (j : ℕ) (x : Text),ts[j]? = some x → Stands m low high (filled (0 + j)) x) :
    List.Forall₂ (Stands m low high) ((List.range ts.length).map filled) ts := by
  refine List.forall₂_iff_get.mpr ⟨by simp,fun j _ hj => ?_⟩
  have := h j ts[j] (List.getElem?_eq_getElem hj)
  simpa using this

/-- No word of the start has more than 32 bits. -/
theorem startWords_small {argv envp : List ℕ} (hc : argv.length<2 ^ 32) (ha : ∀ p ∈ argv,p<2 ^ 32)
    (he : ∀ p ∈ envp,p<2 ^ 32) : ∀ w ∈ startWords argv envp (auxVectors elf),w<2 ^ 32 := by
  have pairs : ∀ w ∈ pairWords (auxVectors elf),w<2 ^ 32 := by
    have mod (n : ℕ) : n % 2 ^ 32<2 ^ 32 := Nat.mod_lt _ (by norm_num)
    simp only [pairWords,auxVectors,List.flatMap_cons,List.flatMap_nil,List.append_nil,
      List.mem_append,List.mem_cons,List.not_mem_nil,or_false,pageSize]
    rintro w ((rfl | rfl) | (rfl | rfl) | (rfl | rfl) | (rfl | rfl) | (rfl | rfl) | rfl | rfl) <;>
      first | exact mod _ | norm_num
  intro w hw
  simp only [startWords,List.mem_append,List.mem_singleton] at hw
  rcases hw with rfl | hw | rfl | hw | rfl | hw | rfl | rfl
  · exact hc
  · exact ha w hw
  · norm_num
  · exact he w hw
  · norm_num
  · exact pairs w hw
  · norm_num
  · norm_num

/-- Below an address that is a multiple of 16 the words of the start are pushed. -/
theorem pushes_pushed {s : Stack} {args env : List Text} {argPtrs envPtrs : ℕ → ℕ}
    (word32 : s.ptr<2 ^ 32) (hargs : args.length ≤ ptrCount) (henv : env.length ≤ ptrCount)
    (fits : 4 * (startWords ((List.range args.length).map argPtrs)
      ((List.range env.length).map envPtrs) (auxVectors elf)).length ≤ s.ptr) :
    ∃ t u v : Stack,
      pushPtrs envPtrs env.length (((((s.push (wordBytes [0])).push (wordBytes [0])).push
        (wordBytes (pairWords (auxVectors elf))))).push (wordBytes [0])) = some t ∧
      pushPtrs argPtrs args.length (t.push (wordBytes [0])) = some u ∧
      v = u.push (wordBytes [args.length]) ∧
      Pushed s v (wordBytes (startWords ((List.range args.length).map argPtrs)
        ((List.range env.length).map envPtrs) (auxVectors elf))) := by
  simp only [startWords,List.length_append,List.length_map,List.length_range,
    List.length_singleton,pairWords_length] at fits
  have more {x : Stack} {ws : List ℕ} (vs : List ℕ) (h : Pushed s x (wordBytes ws))
      (hn : 4 * (ws.length + vs.length) ≤ s.ptr) :
      Pushed s (x.push (wordBytes vs)) (wordBytes (vs ++ ws)) := by
    have size := h.size
    rw [wordBytes_length] at size
    exact h.words (push_pushed (h.word32 word32) (by rw [wordBytes_length]; omega))
  have zero : Pushed s (s.push (wordBytes [0])) (wordBytes [0]) :=
    push_pushed word32 (by simp; omega)
  have zeros := more [0] zero (by simp; omega)
  have aux := more (pairWords (auxVectors elf)) zeros (by
    simp only [List.length_append,List.length_singleton,pairWords_length]
    omega)
  have envZero := more [0] aux (by
    simp only [List.length_append,List.length_singleton,pairWords_length]
    omega)
  have envSize := envZero.size
  simp only [wordBytes_length,List.length_append,List.length_singleton,pairWords_length] at envSize
  obtain ⟨t,runEnv,envPushed⟩ := pushPtrs_pushed envPtrs env.length _ henv
    (envZero.word32 word32) (by omega)
  have envDone := envZero.words envPushed
  have argZero := more [0] envDone (by
    simp only [List.length_append,List.length_singleton,pairWords_length,List.length_map,
      List.length_range]
    omega)
  have argSize := argZero.size
  simp only [wordBytes_length,List.length_append,List.length_singleton,pairWords_length,
    List.length_map,List.length_range] at argSize
  obtain ⟨u,runArgs,argPushed⟩ := pushPtrs_pushed argPtrs args.length _ hargs
    (argZero.word32 word32) (by omega)
  have argDone := argZero.words argPushed
  have done := more [args.length] argDone (by
    simp only [List.length_append,List.length_singleton,pairWords_length,List.length_map,
      List.length_range]
    omega)
  refine ⟨t,u,_,runEnv,runArgs,rfl,?_⟩
  simpa only [startWords,List.length_map,List.length_range] using done

end Building

section Result

variable {s : Stack} {cmdLine : CString} {env : List CString}

/-- The strings are pushed, down to an address that is a multiple of 16. -/
theorem strings_pushed {args env : List Text} (argPtrs envPtrs : ℕ → ℕ) (word32 : s.ptr<2 ^ 32)
    (fits : stringArea args env + (s.ptr - stringArea args env) % 16 ≤ s.ptr)
    (hargs : args.length ≤ ptrCount) (henv : env.length ≤ ptrCount) :
    ∃ (t u v : Stack) (envs filled : ℕ → ℕ) (data : List UInt8),
      pushStrings env 0 (s.push (wordBytes [0])) envPtrs = some (t,envs) ∧
      pushStrings args 0 t argPtrs = some (u,filled) ∧
      v = u.push (List.replicate (u.ptr % 16) 0) ∧ Pushed s v data ∧ v.ptr % 16 = 0 ∧
      v.ptr + (s.ptr - stringArea args env) % 16 + stringArea args env = s.ptr ∧
      List.Forall₂ (Stands v.memory v.ptr s.ptr) ((List.range args.length).map filled) args ∧
      List.Forall₂ (Stands v.memory v.ptr s.ptr) ((List.range env.length).map envs) env := by
  simp only [stringArea] at fits ⊢
  have zero : Pushed s (s.push (wordBytes [0])) (wordBytes [0]) :=
    push_pushed word32 (by simp; omega)
  have zeroSize := zero.size
  simp only [wordBytes_length,List.length_singleton] at zeroSize
  obtain ⟨t,envs,envData,runEnv,envPushed,envLength,-,envStands⟩ := pushStrings_pushed
    env 0 (s.push (wordBytes [0])) envPtrs (by omega) (zero.word32 word32) (by omega)
  have envSize := envPushed.size
  obtain ⟨u,filled,argData,runArg,argPushed,argLength,-,argStands⟩ := pushStrings_pushed
    args 0 t argPtrs (by omega) (envPushed.word32 (zero.word32 word32)) (by omega)
  have argSize := argPushed.size
  have pad : Pushed u (u.push (List.replicate (u.ptr % 16) 0)) (List.replicate (u.ptr % 16) 0) :=
    push_pushed (by omega) (by rw [List.length_replicate]; exact Nat.mod_le _ _)
  have padSize := pad.size
  rw [List.length_replicate] at padSize
  have gap : (s.ptr - (4 + stringsSize env + stringsSize args)) % 16 = u.ptr % 16 := by
    congr 1
    omega
  refine ⟨t,u,_,envs,filled,_,runEnv,runArg,rfl,
    ((zero.append envPushed).append argPushed).append pad,by omega,by omega,
    stands_forall fun j x hx => ?_,stands_forall fun j x hx => ?_⟩
  · have := (argStands j x hx).pushed pad
    exact ⟨this.low,by have := this.high; omega,this.holds⟩
  · have := ((envStands j x hx).pushed argPushed).pushed pad
    exact ⟨this.low,by have := this.high; omega,this.holds⟩

/-- Where the strings fit into the arrays and all of it on the stack, the stack is the start of
the process, and nothing else is written. -/
theorem buildUserStack_image (elf : ElfData) (argPtrs envPtrs : ℕ → ℕ) (word32 : s.ptr<2 ^ 32)
    (fits : imageSize s.ptr (arguments cmdLine.text) (env.map CString.text) (auxVectors elf) ≤
      s.ptr) (hargs : (arguments cmdLine.text).length ≤ ptrCount) (henv : env.length ≤ ptrCount) :
    ∃ t : Stack,
      buildUserStack s cmdLine.text (env.map CString.text) elf argPtrs envPtrs = some t ∧
      Image t.memory s.ptr t.ptr ((arguments cmdLine.text).map bytes)
        ((env.map CString.text).map bytes) (auxVectors elf) ∧
      ∀ a : ℕ,a<t.ptr ∨ s.ptr ≤ a → t.memory a = s.memory a := by
  have used : ∀ t ∈ arguments cmdLine.text ++ env.map CString.text,∀ b ∈ bytes t,b ≠ 0 := by
    intro t ht
    refine bytes_ne_zero fun c hc => ?_
    rcases List.mem_append.mp ht with ht | ht
    · exact cmdLine.chars c (arguments_chars ht c hc)
    · obtain ⟨x,-,rfl⟩ := List.mem_map.mp ht
      exact x.chars c hc
  rw [← List.length_map CString.text] at henv
  have six : (auxVectors elf).length = 6 := rfl
  simp only [imageSize,six] at fits
  obtain ⟨t,u,v,envs,filled,data,runEnv,runArg,hv,strings,aligned,size,argAt,envAt⟩ :=
    strings_pushed argPtrs envPtrs word32 (by omega) hargs henv
  have length : (startWords ((List.range (arguments cmdLine.text).length).map filled)
      ((List.range (env.map CString.text).length).map envs) (auxVectors elf)).length =
      (arguments cmdLine.text).length + (env.map CString.text).length + 17 := by
    simp only [startWords,List.length_append,List.length_map,List.length_range,
      List.length_singleton,pairWords_length,six]
    omega
  obtain ⟨x,y,z,runEnvPtrs,runArgPtrs,hz,pushed⟩ := @pushes_pushed elf v
    (arguments cmdLine.text) (env.map CString.text) filled envs (by omega) hargs henv
    (by rw [length]; omega)
  have area := pushed.size
  rw [wordBytes_length,length] at area
  refine ⟨z,?_,?_,fun a ha => ?_⟩
  · subst hv hz
    simp only [buildUserStack,runEnv,runArg,Option.bind_eq_bind,Option.bind_some,runEnvPtrs,
      runArgPtrs]
  · refine @image_of_words z.memory s.ptr z.ptr v.ptr _ _ _ _ _ ?_ (by rw [length]; omega) aligned
      (by omega) (by omega) (by simp [auxVectors]) used (argAt.imp fun p t h => h.kept pushed)
      (envAt.imp fun p t h => h.kept pushed)
    refine words_of_slice (startWords_small elf (by simp; omega) (fun p hp => ?_)
      (fun p hp => ?_)) pushed.holds
    · exact (stands_below argAt p hp).trans word32
    · exact (stands_below envAt p hp).trans word32
  · rw [pushed.frame a (by omega),strings.frame a (by omega)]

/-- With more strings than the arrays have entries there is a store behind the end of one. -/
theorem buildUserStack_none {args : Text} {envs : List Text} (elf : ElfData)
    (argPtrs envPtrs : ℕ → ℕ)
    (many : ptrCount<(arguments args).length ∨ ptrCount<envs.length) :
    buildUserStack s args envs elf argPtrs envPtrs = none := by
  rw [← Option.not_isSome_iff_eq_none,Option.isSome_iff_exists]
  rintro ⟨t,run⟩
  simp only [buildUserStack,Option.bind_eq_bind,Option.bind_eq_some_iff] at run
  obtain ⟨⟨t₁,filled⟩,runEnv,⟨t₂,more⟩,runArg,-⟩ := run
  rcases many with h | h
  · have none := pushStrings_none (arguments args) 0 t₁ argPtrs (Nat.zero_le _) (by omega)
    simp only [none] at runArg
    simp at runArg
  · have none := pushStrings_none envs 0 (s.push (wordBytes [0])) envPtrs (Nat.zero_le _)
      (by omega)
    simp [none] at runEnv

/-- Where everything fits on the stack it is the start of the process exactly when there are no
more than 32 arguments and 32 strings in the environment. -/
theorem buildUserStack_iff (elf : ElfData) (argPtrs envPtrs : ℕ → ℕ) (word32 : s.ptr<2 ^ 32)
    (fits : imageSize s.ptr (arguments cmdLine.text) (env.map CString.text) (auxVectors elf) ≤
      s.ptr) :
    (∃ t : Stack,
      buildUserStack s cmdLine.text (env.map CString.text) elf argPtrs envPtrs = some t ∧
      Image t.memory s.ptr t.ptr ((arguments cmdLine.text).map bytes)
        ((env.map CString.text).map bytes) (auxVectors elf) ∧
      ∀ a : ℕ,a<t.ptr ∨ s.ptr ≤ a → t.memory a = s.memory a) ↔
    (arguments cmdLine.text).length ≤ 32 ∧ env.length ≤ 32 := by
  constructor
  · rintro ⟨t,run,-⟩
    by_contra many
    have none := @buildUserStack_none s cmdLine.text (env.map CString.text) elf argPtrs envPtrs (by
        simp only [ptrCount,List.length_map]
        omega)
    simp [none] at run
  · rintro ⟨hargs,henv⟩
    exact buildUserStack_image elf argPtrs envPtrs word32 fits hargs henv

end Result

/-- A stack of a page. -/
def pageStack : Stack := ⟨fun _ => 0,4096⟩

/-- The fields of a small program. -/
def smallElf : ElfData := ⟨65536,0,2,32,65588⟩

/-- A command line of two words. -/
def twoWords : CString := ⟨['a',' ','b'],by simp⟩

/-- A command line of 33 words. -/
def manyWords : CString := ⟨(List.replicate 33 ['a',' ']).flatten,by simp⟩

/-- Two words and a string fit on a page and into the arrays. -/
theorem buildUserStack_iff_twoWords : (∃ t : Stack,
    buildUserStack pageStack twoWords.text ([twoWords].map CString.text) smallElf (fun _ => 0)
      (fun _ => 0) = some t ∧
    Image t.memory pageStack.ptr t.ptr ((arguments twoWords.text).map bytes)
      (([twoWords].map CString.text).map bytes) (auxVectors smallElf) ∧
    ∀ a : ℕ,a<t.ptr ∨ pageStack.ptr ≤ a → t.memory a = pageStack.memory a) ↔
    (arguments twoWords.text).length ≤ 32 ∧ [twoWords].length ≤ 32 :=
  @buildUserStack_iff pageStack twoWords [twoWords] smallElf (fun _ => 0) (fun _ => 0) (by decide)
    (by decide)

/-- With 33 words argPtrs is overrun. -/
theorem manyWords_overrun : ¬∀ (s : Stack) (cmdLine : CString) (env : List CString) (elf : ElfData)
    (argPtrs envPtrs : ℕ → ℕ),s.ptr<2 ^ 32 →
    imageSize s.ptr (arguments cmdLine.text) (env.map CString.text) (auxVectors elf) ≤ s.ptr →
    ∃ t : Stack,
      buildUserStack s cmdLine.text (env.map CString.text) elf argPtrs envPtrs = some t ∧
      Image t.memory s.ptr t.ptr ((arguments cmdLine.text).map bytes)
        ((env.map CString.text).map bytes) (auxVectors elf) := by
  intro h
  have count : (arguments manyWords.text).length = 33 := by decide
  obtain ⟨t,run,-⟩ := h pageStack manyWords [] smallElf (fun _ => 0) (fun _ => 0) (by decide)
    (by decide)
  have none := @buildUserStack_none pageStack manyWords.text [] smallElf (fun _ => 0) (fun _ => 0)
    (.inl (by rw [count]; decide))
  rw [List.map_nil,none] at run
  simp at run

end WootOs.UserStack
