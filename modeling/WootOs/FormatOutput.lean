import WootOs.NumberOutput
import WootOs.UuidText
import WootOs.MachineInt

/-!
# Formatted output

VWriteFmt reads a format character by character. Behind a percent sign it collects
flags, a width, a precision and a length in any order, until a character ends the
specifier; what it then writes goes out in pieces, each with a call of its own.

A format in the usual order means what it says: its items are written one after the
other, and each conversion takes its own arguments. A number that fits the width is
padded up to it and can be read back. A width also cuts: of a number that is longer
the last digits are written, of a string the first characters.
-/

namespace WootOs.FormatOutput

open ObjectTree (Text)
open Characters NumberOutput

/-- What addresses hold. -/
structure Memory where
  /-- The string at an address, up to its terminator. -/
  str : ℕ → Text
  /-- The string of wide characters at an address, up to its terminator. -/
  wide : ℕ → List ℕ
  /-- The UUID at an address. -/
  uuid : ℕ → UuidText.Data

/-- A specifier as far as it has been read. -/
structure Spec where
  /-- There was a hash. -/
  hashFlag : Bool := false
  /-- There was a dot. -/
  dot : Bool := false
  /-- The width. -/
  width : ℤ := 0
  /-- The precision. -/
  precision : ℕ := 0
  /-- The width was an argument. -/
  argWidth : Bool := false
  /-- There was a minus sign. -/
  leftJustify : Bool := false
  /-- There was a zero in front of the width. -/
  zeroPad : Bool := false
  /-- The character to pad with. -/
  padChr : Char := ' '
  /-- There was a plus sign. -/
  showPlus : Bool := false
  /-- There was an l. -/
  longSpec : Bool := false

/-- VWriteFmt between two characters. -/
structure State (S : Type) where
  /-- The specifier. -/
  spec : Spec
  /-- It is being read. -/
  specifier : Bool
  /-- The sum of what the writes returned. -/
  bw : ℕ
  /-- The words of the arguments that are left. -/
  args : List ℕ
  /-- The stream. -/
  stream : S

section Code

variable {S : Type} (write : Text → S → ℕ × S) (mem : Memory)

/-- A call on the stream, with its result added up. -/
def put (f : S → ℕ × S) (st : State S) : State S :=
  { st with bw := st.bw + (f st.stream).1, stream := (f st.stream).2 }

/-- The loop that pads. -/
def pad (padChr : Char) : ℕ → State S → State S
  | 0,st => st
  | n + 1,st => pad padChr n (put (write [padChr]) st)

/-- VarArg for types of one word. -/
def word (st : State S) : Option (ℕ × State S) :=
  match st.args with
  | [] => none
  | w::args => some (w,{ st with args := args })

/-- VarArg for types of two words. -/
def long (st : State S) : Option (ℕ × State S) :=
  match st.args with
  | lo::hi::args => some (lo + 2 ^ 32 * hi,{ st with args := args })
  | _ => none

/-- VarArg for a type that longSpec chooses. -/
def number (st : State S) : Option (ℕ × State S) :=
  if st.spec.longSpec then long st else word st

/-- A field is padded to the left or to the right, and ends the specifier. -/
def justified (padc : ℤ) (field : State S → State S) (st : State S) : State S :=
  let st := if !st.spec.leftJustify then pad write st.spec.padChr padc.toNat st else st
  let st := field st
  let st := if st.spec.leftJustify then pad write st.spec.padChr padc.toNat st else st
  { st with specifier := false }

/-- The specifier ends with a character that is written. -/
def plain (c : Char) (st : State S) : State S :=
  { put (write [c]) st with specifier := false }

/-- The loop of %S. -/
def writeWide (width : ℤ) : ℕ → List ℕ → State S → State S
  | _,[],st => st
  | i,w::ws,st =>
    if width = 0 ∨ (i : ℤ) < width then
      writeWide width (i + 1) ws (put (write [Char.ofNat (w % 256)]) st)
    else st

/-- %s and %S. A negative width of %s is a negative length for the stream, which has no
meaning here. -/
def convertStr (c : Char) (st : State S) : Option (State S) := do
  let (p,st) ← word st
  let str := if p = 0 then "(null)".toList else mem.str p
  let wide := if p = 0 then "(null)".toList.map Char.toNat else mem.wide p
  let len : ℤ := if c = 's' then str.length else wide.length
  let width : ℤ := if st.spec.dot then st.spec.precision else st.spec.width
  let padc := width - len
  let padc := if padc < 0 ∨ st.spec.dot then 0 else padc
  if c = 's' then
    if width < 0 then none
    else some (justified write padc (put (writeStr write str width.toNat)) st)
  else some (justified write padc (writeWide write width 0 wide) st)

/-- %c. -/
def convertChr (st : State S) : Option (State S) := do
  let (w,st) ← word st
  let padc := st.spec.width - 1
  let padc := if padc < 0 then 0 else padc
  some (justified write padc (put (write [Char.ofNat (w % 256)])) st)

/-- %p, %P, %x and %X. -/
def convertHex (c : Char) (st : State S) : Option (State S) := do
  let st :=
    if c = 'p' ∨ c = 'P' then
      { st with spec := { st.spec with dot := true, hashFlag := true, precision := 8 } }
    else st
  let upperCase := between 'A' 'Z' c
  let (val,st) ← number st
  let precision := st.spec.precision
  let hash : ℕ := if st.spec.hashFlag then 2 else 0
  let maxDigits := MachineInt.unsigned 32 (if st.spec.width ≠ 0 then st.spec.width - hash else 16)
  let len : ℤ := (writeHex write val upperCase precision maxDigits true st.stream).1
  let len := len + hash
  let padc := st.spec.width - len
  let padc := if padc < 0 then 0 else padc
  some (justified write padc (fun st =>
    let st := if st.spec.hashFlag then put (writeStr write "0x".toList 0) st else st
    put (writeHex write val upperCase precision maxDigits false) st) st)

/-- %d, %i and %u. -/
def convertDec (c : Char) (st : State S) : Option (State S) := do
  let longSpec := st.spec.longSpec
  let (val,st) ← number st
  let val := if c = 'u' ∨ longSpec then val else MachineInt.unsigned 64 (MachineInt.signed 32 val)
  let spec := st.spec
  let maxDigits := MachineInt.unsigned 32 (if spec.width ≠ 0 then spec.width else 19)
  let len : ℤ := (writeDec write val spec.precision maxDigits spec.showPlus true (c = 'u')
    st.stream).1
  let padc := spec.width - len
  let padc := if padc < 0 then 0 else padc
  some (justified write padc
    (put (writeDec write val spec.precision maxDigits spec.showPlus false (c = 'u'))) st)

/-- %U. -/
def convertUuid (st : State S) : Option (State S) := do
  let (p,st) ← word st
  let uuid := if p = 0 then fun _ => 0#8 else mem.uuid p
  let st := if st.spec.hashFlag then put (write ['\x7b']) st else st
  let st := put (writeStr write (UuidText.toString uuid) 0) st
  let st := if st.spec.hashFlag then put (write ['\x7d']) st else st
  some { st with specifier := false }

/-- One turn of the loop of Stream::VWriteFmt, without %f. -/
def step (st : State S) (c : Char) : Option (State S) :=
  if !st.specifier then
    let st := { st with spec := {} }
    if c = '%' then some { st with specifier := true }
    else some (put (write [c]) st)
  else
    let spec := st.spec
    if c = '%' then some (plain write c st)
    else if c = 'l' then some { st with spec := { spec with longSpec := true } }
    else if c = '.' then
      if !spec.dot then some { st with spec := { spec with dot := true } }
      else some (plain write c st)
    else if c = '#' then
      if !spec.hashFlag && !spec.dot then some { st with spec := { spec with hashFlag := true } }
      else some (plain write c st)
    else if isDigit c then
      let dig := c.toNat - '0'.toNat
      if !spec.dot then
        if spec.width = 0 ∧ c = '0' ∧ spec.zeroPad = false then
          some { st with spec := { spec with padChr := '0', zeroPad := true } }
        else some { st with spec := { spec with width := spec.width * 10 + dig } }
      else some { st with spec := { spec with precision := spec.precision * 10 + dig } }
    else if c = '*' then
      if spec.argWidth = false ∧ spec.width = 0 then
        (word st).map fun r =>
          { r.2 with spec := { spec with argWidth := true, width := MachineInt.signed 32 r.1 } }
      else some (plain write c st)
    else if c = '-' then
      if spec.width = 0 ∧ spec.dot = false ∧ spec.leftJustify = false then
        some { st with spec := { spec with leftJustify := true } }
      else some (plain write c st)
    else if c = '+' then
      if spec.width = 0 ∧ spec.dot = false ∧ spec.showPlus = false then
        some { st with spec := { spec with showPlus := true } }
      else some (plain write c st)
    else if c = 's' ∨ c = 'S' then convertStr write mem c st
    else if c = 'c' then convertChr write st
    else if c = 'p' ∨ c = 'P' ∨ c = 'x' ∨ c = 'X' then convertHex write c st
    else if c = 'd' ∨ c = 'i' ∨ c = 'u' then convertDec write c st
    else if c = 'f' then none
    else if c = 'U' then convertUuid write mem st
    else some (plain write c st)

/-- Stream::VWriteFmt, from the words of the arguments: what it returns and the stream. There
is no result when it reads behind the arguments. -/
def vWriteFmt (fmt : Text) (args : List ℕ) (s : S) : Option (ℕ × S) :=
  (fmt.foldlM (step write mem)
    { spec := {}, specifier := false, bw := 0, args := args, stream := s }).map
      fun st => (st.bw,st.stream)

end Code

/-! ### Formats -/

/-- A flag. -/
inductive Flag where
  /-- A prefix for hexadecimal numbers, braces for UUIDs. -/
  | hash
  /-- Zeros to pad with. -/
  | zero
  /-- Padding on the right. -/
  | minus
  /-- A plus sign. -/
  | plus
  deriving DecidableEq

/-- Its character. -/
def Flag.char : Flag → Char
  | hash => '#'
  | zero => '0'
  | minus => '-'
  | plus => '+'

/-- A specifier with one more flag. -/
def Flag.set (o : Spec) : Flag → Spec
  | hash => { o with hashFlag := true }
  | zero => { o with padChr := '0', zeroPad := true }
  | minus => { o with leftJustify := true }
  | plus => { o with showPlus := true }

/-- A specifier has the flag. -/
def Flag.isSet (o : Spec) : Flag → Bool
  | hash => o.hashFlag
  | zero => o.zeroPad
  | minus => o.leftJustify
  | plus => o.showPlus

/-- A width. -/
inductive Width where
  /-- Digits, or none. -/
  | digits (ds : Text)
  /-- An argument. -/
  | arg

/-- Its characters. -/
def Width.text : Width → Text
  | digits ds => ds
  | arg => ['*']

/-- What is converted. -/
inductive Conversion where
  /-- A string. -/
  | str
  /-- A string of wide characters. -/
  | wide
  /-- A character. -/
  | chr
  /-- A pointer, in small letters or capital ones. -/
  | pointer (caps : Bool)
  /-- A hexadecimal number. -/
  | hex (caps : Bool)
  /-- A number with a sign, from either letter. -/
  | decimal (integer : Bool)
  /-- A number without a sign. -/
  | unsigned
  /-- A UUID. -/
  | uuid

/-- Its character. -/
def Conversion.char : Conversion → Char
  | str => 's'
  | wide => 'S'
  | chr => 'c'
  | pointer caps => if caps then 'P' else 'p'
  | hex caps => if caps then 'X' else 'x'
  | decimal integer => if integer then 'i' else 'd'
  | unsigned => 'u'
  | uuid => 'U'

/-- A conversion with its flags, width, precision and length in the usual order. -/
structure Directive where
  /-- The flags. -/
  flags : List Flag
  /-- The width. -/
  width : Width
  /-- The digits behind the dot, if there is one. -/
  precision : Option Text
  /-- The number of times l is written. -/
  longs : ℕ
  /-- The conversion. -/
  conversion : Conversion
  /-- No flag comes twice. -/
  nodup : flags.Nodup
  /-- A width is made of digits, the first not being zero. -/
  widthDigits : ∀ ds,width = .digits ds → (∀ c ∈ ds,isDigit c = true) ∧ ds.head? ≠ some '0'
  /-- A precision is made of digits. -/
  precisionDigits : ∀ ds ∈ precision,∀ c ∈ ds,isDigit c = true

namespace Directive

variable (d : Directive)

/-- The characters behind the percent sign. -/
def tail : Text :=
  d.flags.map Flag.char ++ (d.width.text ++ ((d.precision.elim [] fun ds => '.'::ds) ++
    (List.replicate d.longs 'l' ++ [d.conversion.char])))

end Directive

/-- A part of a format. -/
inductive Item where
  /-- A character that stands for itself. -/
  | lit (c : Char) (h : c ≠ '%')
  /-- A percent sign. -/
  | percent
  /-- A conversion. -/
  | directive (d : Directive)

/-- Its characters. -/
def Item.text : Item → Text
  | lit c _ => [c]
  | percent => ['%','%']
  | directive d => '%'::d.tail

/-! ### What formats mean -/

/-- The number that digits make up. -/
def value (ds : Text) : ℕ := DigitStrings.value 10 (fun c => c.toNat - '0'.toNat) ds

/-- The value of a width, and the arguments behind it. -/
def Width.read : Width → List ℕ → Option (ℤ × List ℕ)
  | digits ds,args => some (value ds,args)
  | arg,[] => none
  | arg,w::args => some (MachineInt.signed 32 w,args)

/-- The specifier that a directive with a width of some value comes to. -/
def Directive.spec (d : Directive) (w : ℤ) : Spec :=
  { d.flags.foldl Flag.set {} with
    width := w
    argWidth := match d.width with
      | .digits _ => false
      | .arg => true
    dot := d.precision.isSome
    precision := value (d.precision.getD [])
    longSpec := decide (0 < d.longs) }

/-- The pieces of a field with padding around them. -/
def around (o : Spec) (padc : ℕ) (field : List Text) : List Text :=
  if o.leftJustify then field ++ List.replicate padc [o.padChr]
  else List.replicate padc [o.padChr] ++ field

/-- The value of an argument of one word. -/
def readWord : List ℕ → Option (ℕ × List ℕ)
  | [] => none
  | w::args => some (w,args)

/-- The value of a number. -/
def readNumber : Bool → List ℕ → Option (ℕ × List ℕ)
  | true,lo::hi::args => some (lo + 2 ^ 32 * hi,args)
  | false,w::args => some (w,args)
  | _,_ => none

/-- The prefix of a hexadecimal number. -/
def hexPrefix (o : Spec) : List Text := if o.hashFlag then ["0x".toList] else []

/-- The digits of a hexadecimal number. -/
def hexText (o : Spec) (caps : Bool) (val : ℕ) : Text :=
  hexBuf val caps o.precision
    (MachineInt.unsigned 32 (if o.width ≠ 0 then o.width - (if o.hashFlag then 2 else 0) else 16))

/-- The pieces of a hexadecimal number. -/
def hexField (o : Spec) (caps : Bool) (val : ℕ) : List Text :=
  around o (o.width - ((hexPrefix o).flatten.length + (hexText o caps val).length)).toNat
    (hexPrefix o ++ [hexText o caps val])

/-- A word with a sign as one of 64 bits. -/
def extend (longSpec : Bool) (val : ℕ) : ℕ :=
  if longSpec then val else MachineInt.unsigned 64 (MachineInt.signed 32 val)

/-- The digits of a decimal number, and its sign. -/
def decText (o : Spec) (unsig : Bool) (val : ℕ) : Text :=
  decBuf val o.precision (MachineInt.unsigned 32 (if o.width ≠ 0 then o.width else 19))
    o.showPlus unsig

/-- The pieces of a decimal number. -/
def decField (o : Spec) (unsig : Bool) (val : ℕ) : List Text :=
  around o (o.width - (decText o unsig val).length).toNat [decText o unsig val]

/-- A string up to a width, if there is one. -/
def cut {α : Type} (width : ℤ) (s : List α) : List α := if width = 0 then s else s.take width.toNat

/-- A pointer shows all its digits behind a prefix. -/
def Spec.pointer (o : Spec) : Spec := { o with dot := true, hashFlag := true, precision := 8 }

/-- The width that limits a string. -/
def Spec.limit (o : Spec) : ℤ := if o.dot then o.precision else o.width

/-- The padding of a string with a length. -/
def Spec.gap (o : Spec) (len : ℕ) : ℕ := if o.dot then 0 else (o.width - len).toNat

/-- The pieces that a conversion writes for its argument, and the arguments behind it. -/
def Conversion.field (mem : Memory) (o : Spec) (args : List ℕ) :
    Conversion → Option (List Text × List ℕ)
  | str => (readWord args).bind fun (p,args) =>
    let s := if p = 0 then "(null)".toList else mem.str p
    if o.limit < 0 then none else some (around o (o.gap s.length) [cut o.limit s],args)
  | wide => (readWord args).map fun (p,args) =>
    let s := if p = 0 then "(null)".toList.map Char.toNat else mem.wide p
    (around o (o.gap s.length) ((cut o.limit s).map fun w => [Char.ofNat (w % 256)]),args)
  | chr => (readWord args).map fun (w,args) =>
    (around o (o.width - 1).toNat [[Char.ofNat (w % 256)]],args)
  | pointer caps => (readNumber o.longSpec args).map fun (val,args) =>
    (hexField o.pointer caps val,args)
  | hex caps => (readNumber o.longSpec args).map fun (val,args) => (hexField o caps val,args)
  | decimal _ => (readNumber o.longSpec args).map fun (val,args) =>
    (decField o false (extend o.longSpec val),args)
  | unsigned => (readNumber o.longSpec args).map fun (val,args) => (decField o true val,args)
  | uuid => (readWord args).map fun (p,args) =>
    let text := UuidText.toString (if p = 0 then fun _ => 0#8 else mem.uuid p)
    (if o.hashFlag then [['\x7b'],text,['\x7d']] else [text],args)

/-- The pieces of an item, and the arguments behind it. -/
def Item.field (mem : Memory) (args : List ℕ) : Item → Option (List Text × List ℕ)
  | lit c _ => some ([[c]],args)
  | percent => some ([['%']],args)
  | directive d => (d.width.read args).bind fun (w,args) =>
    d.conversion.field mem (d.spec w) args

/-- The pieces of a format. -/
def fields (mem : Memory) : List Item → List ℕ → Option (List Text)
  | [],_ => some []
  | item::items,args => (item.field mem args).bind fun (pieces,args) =>
    (fields mem items args).map (pieces ++ ·)

/-- Pieces are written one after the other, and what the writes return is added up. -/
def writeAll {S : Type} (write : Text → S → ℕ × S) : List Text → S → ℕ × S
  | [],s => (0,s)
  | t::ts,s =>
    let rest := writeAll write ts (write t s).2
    ((write t s).1 + rest.1,rest.2)

section Pieces

variable {S : Type} (write : Text → S → ℕ × S) {mem : Memory} {st : State S} {o : Spec}

/-- Pieces are put on the stream. -/
def putAll (ts : List Text) (st : State S) : State S := ts.foldl (fun st t => put (write t) st) st

theorem putAll_append (ts us : List Text) (st : State S) :
    putAll write (ts ++ us) st = putAll write us (putAll write ts st) := List.foldl_append

/-- What the pieces leave on the stream, and nothing else changes. -/
theorem putAll_eq (ts : List Text) (st : State S) : putAll write ts st =
    { st with bw := st.bw + (writeAll write ts st.stream).1
              stream := (writeAll write ts st.stream).2 } := by
  induction ts generalizing st with
  | nil => rfl
  | cons t ts ih =>
    have hcons : putAll write (t::ts) st = putAll write ts (put (write t) st) := rfl
    rw [hcons,ih,put,writeAll]
    simp only [Nat.add_assoc]

theorem pad_eq (c : Char) (n : ℕ) (st : State S) :
    pad write c n st = putAll write (List.replicate n [c]) st := by
  induction n generalizing st with
  | zero => rfl
  | succ n ih =>
    rw [pad,ih]
    rfl

theorem put_write (t : Text) (st : State S) : put (write t) st = putAll write [t] st := rfl

theorem put_writeStr (t : Text) (n : ℕ) (st : State S) :
    put (writeStr write t n) st = putAll write [cut n t] st := by
  have htake : t.take (if n ≠ 0 ∧ n < t.length then n else t.length) = cut n t := by
    rw [cut]
    split_ifs with h h' h'
    · omega
    · rw [Int.toNat_natCast]
    · exact List.take_length
    · rw [Int.toNat_natCast,List.take_length,List.take_of_length_le (by omega)]
  rw [writeStr,htake]
  rfl

theorem cut_zero (t : Text) : cut ((0 : ℕ) : ℤ) t = t := if_pos rfl

/-- A field and the padding around it. -/
theorem justified_eq {field : State S → State S} {ts : List Text} (padc : ℤ)
    (h : ∀ st',st'.spec = st.spec → field st' = putAll write ts st') :
    justified write padc field st =
      { putAll write (around st.spec padc.toNat ts) st with specifier := false } := by
  rw [justified]
  cases hl : st.spec.leftJustify with
  | true =>
    have hspec : (putAll write ts st).spec.leftJustify = true := by
      rw [putAll_eq]
      exact hl
    have hchr : (putAll write ts st).spec.padChr = st.spec.padChr := by rw [putAll_eq]
    simp only [Bool.not_true,Bool.false_eq_true,if_false,h st rfl,hspec,if_true,pad_eq,hchr,around,
      hl,putAll_append]
  | false =>
    have hpad : (putAll write (List.replicate padc.toNat [st.spec.padChr]) st).spec = st.spec := by
      rw [putAll_eq]
    have hspec (us : List Text) : (putAll write us
        (putAll write (List.replicate padc.toNat [st.spec.padChr]) st)).spec.leftJustify =
          false := by
      rw [putAll_eq,putAll_eq]
      exact hl
    simp only [Bool.not_false,if_true,pad_eq,h _ hpad,hspec,Bool.false_eq_true,if_false,around,hl,
      putAll_append]

/-- The loop of %S writes what the width leaves of the string. -/
theorem writeWide_eq (width : ℤ) (ws : List ℕ) (st : State S) :
    writeWide write width 0 ws st =
      putAll write ((cut width ws).map fun w => [Char.ofNat (w % 256)]) st := by
  have hloop : ∀ (i : ℕ) (ws : List ℕ) (st : State S),writeWide write width i ws st =
      putAll write ((if width = 0 then ws else ws.take (width - i).toNat).map fun w =>
        [Char.ofNat (w % 256)]) st := by
    intro i ws st
    induction ws generalizing i st with
    | nil =>
      rw [writeWide,List.take_nil,ite_self]
      rfl
    | cons w ws ih =>
      rw [writeWide]
      split_ifs with h h0 h0
      · rw [ih,if_pos h0]
        rfl
      · have hpos : (width - i).toNat = (width - (i + 1 : ℕ)).toNat + 1 := by omega
        rw [ih,if_neg h0,hpos,List.take_succ_cons]
        rfl
      · omega
      · have hzero : (width - i).toNat = 0 := by omega
        rw [hzero,List.take_zero]
        rfl
  rw [hloop,cut,Nat.cast_zero,Int.sub_zero]

end Pieces

section Reading

variable {S : Type} (write : Text → S → ℕ × S) (mem : Memory)

/-- The rest of a format from a state. -/
def finish (fmt : Text) (st : State S) : Option (ℕ × S) :=
  (fmt.foldlM (step write mem) st).map fun st => (st.bw,st.stream)

variable {write mem} {st : State S} {o : Spec} {fmt : Text}

theorem finish_cons (c : Char) (fmt : Text) (st : State S) :
    finish write mem (c::fmt) st = (step write mem st c).bind (finish write mem fmt) := by
  rw [finish,List.foldlM_cons]
  cases step write mem st c with
  | none => rfl
  | some st => rfl

/-- Outside a specifier it does not matter what the last one was. -/
theorem finish_spec (h : st.specifier = false) (o : Spec) (fmt : Text) :
    finish write mem fmt { st with spec := o } = finish write mem fmt st := by
  cases fmt with
  | nil => rfl
  | cons c fmt =>
    rw [finish_cons,finish_cons]
    simp only [step,h,Bool.not_false,if_true]

/-- The state after the pieces of an item. -/
def after (write : Text → S → ℕ × S) (st : State S) (r : List Text × List ℕ) : State S :=
  { putAll write r.1 { st with args := r.2 } with specifier := false }

theorem word_eq (st : State S) :
    word st = (readWord st.args).map fun r => (r.1,{ st with args := r.2 }) := by
  rw [word]
  cases st.args <;> rfl

theorem number_eq (st : State S) : number st =
    (readNumber st.spec.longSpec st.args).map fun r => (r.1,{ st with args := r.2 }) := by
  rw [number,long,word]
  cases st.spec.longSpec with
  | true => rcases st.args with _ | ⟨lo,_ | ⟨hi,args⟩⟩ <;> rfl
  | false => cases st.args <;> rfl

/-- The padding of a string. -/
theorem gap_eq (o : Spec) (len : ℕ) :
    (if o.limit - len < 0 ∨ o.dot = true then 0 else o.limit - (len : ℤ)).toNat = o.gap len := by
  rw [Spec.gap,Spec.limit]
  cases o.dot with
  | true => simp
  | false =>
    simp only [Bool.false_eq_true,or_false,if_false]
    split_ifs with h
    · omega
    · rfl

/-- %s writes its field. -/
theorem convertStr_eq (st : State S) :
    convertStr write mem 's' st =
      (Conversion.str.field mem st.spec st.args).map (after write st) := by
  rw [convertStr,word_eq,Conversion.field]
  rcases readWord st.args with _ | ⟨p,args⟩
  · rfl
  · simp only [Option.map_some,Option.bind_eq_bind,Option.bind_some,if_true]
    have hlimit : (if st.spec.dot = true then (st.spec.precision : ℤ) else st.spec.width) =
        st.spec.limit := rfl
    rw [hlimit]
    generalize (if p = 0 then "(null)".toList else mem.str p) = str
    by_cases hneg : st.spec.limit < 0
    · rw [if_pos hneg,if_pos hneg]
      rfl
    · rw [if_neg hneg,if_neg hneg,justified_eq write _ fun st' _ => put_writeStr write str _ st']
      simp only [gap_eq,Int.toNat_of_nonneg (Int.not_lt.mp hneg)]
      rfl

/-- %S writes its field. -/
theorem convertStr_wide (st : State S) :
    convertStr write mem 'S' st =
      (Conversion.wide.field mem st.spec st.args).map (after write st) := by
  rw [convertStr,word_eq,Conversion.field]
  rcases readWord st.args with _ | ⟨p,args⟩
  · rfl
  · have hchar : ¬ 'S' = 's' := by decide
    simp only [Option.map_some,Option.bind_eq_bind,Option.bind_some,if_neg hchar]
    have hlimit : (if st.spec.dot = true then (st.spec.precision : ℤ) else st.spec.width) =
        st.spec.limit := rfl
    rw [hlimit,justified_eq write _ fun st' _ => writeWide_eq write _ _ st']
    simp only [gap_eq]
    rfl

/-- No padding is counted below zero. -/
theorem toNat_clip (x : ℤ) : (if x < 0 then 0 else x).toNat = x.toNat := by
  split_ifs with h
  · omega
  · rfl

/-- %c writes its field. -/
theorem convertChr_eq (st : State S) :
    convertChr write st = (Conversion.chr.field mem st.spec st.args).map (after write st) := by
  rw [convertChr,word_eq,Conversion.field]
  rcases readWord st.args with _ | ⟨w,args⟩
  · rfl
  · simp only [Option.map_some,Option.bind_eq_bind,Option.bind_some]
    rw [justified_eq write _ fun st' _ => put_write write _ st',toNat_clip]
    rfl

/-- %U writes its field. -/
theorem convertUuid_eq (st : State S) :
    convertUuid write mem st =
      (Conversion.uuid.field mem st.spec st.args).map (after write st) := by
  rw [convertUuid,word_eq,Conversion.field]
  rcases readWord st.args with _ | ⟨p,args⟩
  · rfl
  · simp only [Option.map_some,Option.bind_eq_bind,Option.bind_some]
    have hstr (t : Text) (st' : State S) : put (writeStr write t 0) st' = put (write t) st' := by
      rw [put_writeStr,cut_zero]
      rfl
    simp only [hstr]
    cases hh : st.spec.hashFlag with
    | true =>
      simp only [put,hh,if_true]
      rfl
    | false =>
      simp only [put,hh,Bool.false_eq_true,if_false]
      rfl

/-- A number goes out as its buffer. -/
theorem put_finish (t : Text) (st : State S) :
    put (NumberOutput.finish write t false) st = putAll write [t] st := by
  rw [← cut_zero t,← put_writeStr,cut_zero]
  rfl

/-- %p, %P, %x and %X write their fields. -/
theorem convertHex_eq (c : Char) (st : State S) :
    let o := if c = 'p' ∨ c = 'P' then st.spec.pointer else st.spec
    convertHex write c st =
      ((readNumber o.longSpec st.args).map fun r => (hexField o (between 'A' 'Z' c) r.1,r.2)).map
        (after write { st with spec := o }) := by
  intro o
  have hst : (if c = 'p' ∨ c = 'P' then
      { st with spec := { st.spec with dot := true, hashFlag := true, precision := 8 } } else st) =
        { st with spec := o } := by
    show _ = { st with spec := if c = 'p' ∨ c = 'P' then st.spec.pointer else st.spec }
    split_ifs <;> rfl
  rw [convertHex,hst]
  simp only [number_eq]
  rcases readNumber o.longSpec st.args with _ | ⟨val,args⟩
  · rfl
  · simp only [Option.map_some,Option.bind_eq_bind,Option.bind_some]
    have hfield : ∀ st' : State S,st'.spec = o →
        put (writeHex write val (between 'A' 'Z' c) o.precision
          (MachineInt.unsigned 32
            (if o.width ≠ 0 then o.width - ((if o.hashFlag then 2 else 0 : ℕ) : ℤ) else 16)) false)
          (if st'.spec.hashFlag then put (writeStr write "0x".toList 0) st' else st') =
        putAll write (hexPrefix o ++ [hexText o (between 'A' 'Z' c) val]) st' := by
      intro st' hspec
      rw [hspec,putAll_append,hexPrefix,hexText]
      cases o.hashFlag with
      | true =>
        simp only [if_true]
        rw [put_writeStr,cut_zero]
        exact put_finish _ _
      | false =>
        simp only [Bool.false_eq_true,if_false]
        exact put_finish _ _
    have hlen : ∀ s : S,((writeHex write val (between 'A' 'Z' c) o.precision
        (MachineInt.unsigned 32
          (if o.width ≠ 0 then o.width - ((if o.hashFlag then 2 else 0 : ℕ) : ℤ) else 16)) true s).1
            : ℤ) + ((if o.hashFlag then 2 else 0 : ℕ) : ℤ) =
        ((hexPrefix o).flatten.length + (hexText o (between 'A' 'Z' c) val).length : ℤ) := by
      intro s
      rw [Int.add_comm,hexPrefix,hexText]
      cases o.hashFlag <;> rfl
    rw [justified_eq write _ hfield]
    simp only [hlen,toNat_clip]
    rfl

/-- %d, %i and %u write their fields. -/
theorem convertDec_eq (c : Char) (st : State S) : convertDec write c st =
    ((readNumber st.spec.longSpec st.args).map fun r =>
      (decField st.spec (c = 'u') (if c = 'u' then r.1 else extend st.spec.longSpec r.1),r.2)).map
        (after write st) := by
  rw [convertDec,number_eq]
  rcases readNumber st.spec.longSpec st.args with _ | ⟨val,args⟩
  · rfl
  · simp only [Option.map_some,Option.bind_eq_bind,Option.bind_some]
    have hval : (if c = 'u' ∨ st.spec.longSpec = true then val
        else MachineInt.unsigned 64 (MachineInt.signed 32 val)) =
          if c = 'u' then val else extend st.spec.longSpec val := by
      rw [extend]
      split_ifs <;> simp_all
    rw [hval]
    generalize (if c = 'u' then val else extend st.spec.longSpec val) = v
    have hput : ∀ st' : State S,put (writeDec write v st.spec.precision
        (MachineInt.unsigned 32 (if st.spec.width ≠ 0 then st.spec.width else 19))
        st.spec.showPlus false (c = 'u')) st' =
        putAll write [decText st.spec (c = 'u') v] st' :=
      fun st' => put_finish _ st'
    rw [justified_eq write _ fun st' _ => hput st',toNat_clip]
    rfl

/-- A conversion writes its field. -/
theorem finish_char (c : Conversion) (hs : st.specifier = true) :
    finish write mem (c.char::fmt) st =
      (c.field mem st.spec st.args).bind fun r => finish write mem fmt (after write st r) := by
  rw [finish_cons]
  cases c with
  | str =>
    have hstep : step write mem st Conversion.str.char = convertStr write mem 's' st := by
      rw [step,hs]
      rfl
    rw [hstep,convertStr_eq,Option.bind_map]
    rfl
  | wide =>
    have hstep : step write mem st Conversion.wide.char = convertStr write mem 'S' st := by
      rw [step,hs]
      rfl
    rw [hstep,convertStr_wide,Option.bind_map]
    rfl
  | chr =>
    have hstep : step write mem st Conversion.chr.char = convertChr write st := by
      rw [step,hs]
      rfl
    rw [hstep,convertChr_eq,Option.bind_map]
    rfl
  | pointer caps =>
    have hstep : step write mem st (Conversion.pointer caps).char =
        convertHex write (if caps then 'P' else 'p') st := by
      rw [step,hs]
      cases caps <;> rfl
    have hcaps : between 'A' 'Z' (if caps then 'P' else 'p') = caps := by cases caps <;> rfl
    have hp : (if caps then 'P' else 'p') = 'p' ∨ (if caps then 'P' else 'p') = 'P' := by
      cases caps
      · exact .inl rfl
      · exact .inr rfl
    rw [hstep,convertHex_eq,if_pos hp,hcaps,Option.bind_map,Conversion.field,Option.bind_map,
      Option.bind_map]
    refine congrArg _ (funext fun r => ?_)
    simp only [Function.comp_apply,after,putAll_eq]
    exact @finish_spec S write mem ⟨st.spec,false,_,r.2,_⟩ rfl st.spec.pointer fmt
  | hex caps =>
    have hstep : step write mem st (Conversion.hex caps).char =
        convertHex write (if caps then 'X' else 'x') st := by
      rw [step,hs]
      cases caps <;> rfl
    have hcaps : between 'A' 'Z' (if caps then 'X' else 'x') = caps := by cases caps <;> rfl
    have hp : ¬((if caps then 'X' else 'x') = 'p' ∨ (if caps then 'X' else 'x') = 'P') := by
      cases caps <;> decide
    rw [hstep,convertHex_eq,if_neg hp,hcaps,Option.bind_map]
    rfl
  | decimal integer =>
    have hstep : step write mem st (Conversion.decimal integer).char =
        convertDec write (if integer then 'i' else 'd') st := by
      rw [step,hs]
      cases integer <;> rfl
    have hu : ¬(if integer then 'i' else 'd') = 'u' := by cases integer <;> decide
    rw [hstep,convertDec_eq,Option.bind_map]
    simp only [hu,decide_false,if_false]
    rfl
  | unsigned =>
    have hstep : step write mem st Conversion.unsigned.char = convertDec write 'u' st := by
      rw [step,hs]
      rfl
    rw [hstep,convertDec_eq,Option.bind_map]
    simp only [decide_true,if_true]
    rfl
  | uuid =>
    have hstep : step write mem st Conversion.uuid.char = convertUuid write mem st := by
      rw [step,hs]
      rfl
    rw [hstep,convertUuid_eq,Option.bind_map]
    rfl

/-- Inside a specifier. -/
def reading (st : State S) (o : Spec) : State S := { st with spec := o, specifier := true }

/-- Behind a field it does not matter what the specifier was. -/
theorem finish_after (o : Spec) (b : Bool) (r : List Text × List ℕ) :
    finish write mem fmt (after write { st with spec := o, specifier := b } r) =
      finish write mem fmt (after write st r) := by
  simp only [after,putAll_eq]
  exact @finish_spec S write mem ⟨st.spec,false,_,r.2,_⟩ rfl o fmt

/-- A conversion ends the specifier. -/
theorem finish_conversion (c : Conversion) (o : Spec) :
    finish write mem (c.char::fmt) (reading st o) =
      (c.field mem o st.args).bind fun r => finish write mem fmt (after write st r) := by
  rw [finish_char c rfl]
  exact congrArg _ (funext fun r => finish_after o true r)

/-- A flag that is not there yet is set. -/
theorem step_flag (f : Flag) (hdot : o.dot = false) (hw : o.width = 0) (hf : f.isSet o = false) :
    step write mem (reading st o) f.char = some (reading st (f.set o)) := by
  cases f <;>
    (rw [Flag.isSet] at hf; simp [step,reading,hdot,hw,hf,Flag.char,Flag.set,isDigit,between])

/-- Another flag is not changed. -/
theorem Flag.isSet_set {f g : Flag} (h : g ≠ f) (o : Spec) : g.isSet (f.set o) = g.isSet o := by
  cases f <;> cases g <;> first | rfl | exact absurd rfl h

/-- A flag changes nothing else. -/
theorem Flag.set_rest (f : Flag) (o : Spec) : (f.set o).dot = o.dot ∧ (f.set o).width = o.width ∧
    (f.set o).precision = o.precision ∧ (f.set o).argWidth = o.argWidth ∧
    (f.set o).longSpec = o.longSpec := by
  cases f <;> exact ⟨rfl,rfl,rfl,rfl,rfl⟩

theorem Flag.foldl_rest (fs : List Flag) (o : Spec) :
    (fs.foldl Flag.set o).dot = o.dot ∧ (fs.foldl Flag.set o).width = o.width ∧
      (fs.foldl Flag.set o).precision = o.precision ∧
      (fs.foldl Flag.set o).argWidth = o.argWidth ∧
      (fs.foldl Flag.set o).longSpec = o.longSpec := by
  induction fs generalizing o with
  | nil => exact ⟨rfl,rfl,rfl,rfl,rfl⟩
  | cons f fs ih =>
    obtain ⟨h1,h2,h3,h4,h5⟩ := f.set_rest o
    obtain ⟨i1,i2,i3,i4,i5⟩ := ih (f.set o)
    exact ⟨i1.trans h1,i2.trans h2,i3.trans h3,i4.trans h4,i5.trans h5⟩

/-- Flags in any order. -/
theorem finish_flags {fs : List Flag} (hn : fs.Nodup) (hdot : o.dot = false) (hw : o.width = 0)
    (hf : ∀ f ∈ fs,f.isSet o = false) :
    finish write mem (fs.map Flag.char ++ fmt) (reading st o) =
      finish write mem fmt (reading st (fs.foldl Flag.set o)) := by
  induction fs generalizing o with
  | nil => rfl
  | cons f fs ih =>
    obtain ⟨hnot,hn⟩ := List.nodup_cons.mp hn
    obtain ⟨h1,h2,-⟩ := f.set_rest o
    rw [List.map_cons,List.cons_append,finish_cons,step_flag f hdot hw (hf f List.mem_cons_self),
      Option.bind_some]
    refine ih hn (h1.trans hdot) (h2.trans hw) fun g hg => ?_
    rw [Flag.isSet_set (ne_of_mem_of_not_mem hg hnot)]
    exact hf g (List.mem_cons_of_mem f hg)

/-- The value of digits behind a value. -/
def valueFrom (v : ℕ) (ds : Text) : ℕ := ds.foldl (fun v c => v * 10 + (c.toNat - '0'.toNat)) v

theorem step_digit {c : Char} (hc : isDigit c = true) (o : Spec) :
    step write mem (reading st o) c = some (reading st
      (if o.dot = true then { o with precision := o.precision * 10 + (c.toNat - '0'.toNat) }
      else if o.width = 0 ∧ c = '0' ∧ o.zeroPad = false then
        { o with padChr := '0', zeroPad := true }
      else { o with width := o.width * 10 + (c.toNat - '0'.toNat : ℕ) })) := by
  have hne : ∀ {d},isDigit d = false → ¬c = d := by
    rintro d hd rfl
    rw [hc] at hd
    cases hd
  have h1 : ¬c = '%' := hne (by decide)
  have h2 : ¬c = 'l' := hne (by decide)
  have h3 : ¬c = '.' := hne (by decide)
  have h4 : ¬c = '#' := hne (by decide)
  simp only [step,reading,Bool.not_true,Bool.false_eq_true,if_false,if_neg h1,if_neg h2,if_neg h3,
    if_neg h4,hc,if_true]
  by_cases hd : o.dot = true
  · simp only [hd,Bool.not_true,Bool.false_eq_true,if_false,if_true]
  · rw [Bool.not_eq_true] at hd
    simp only [hd,Bool.not_false,Bool.false_eq_true,if_false,if_true]
    split_ifs <;> rfl

/-- The digits of a width. -/
theorem finish_width {ds : Text} {w : ℕ} (hds : ∀ c ∈ ds,isDigit c = true) (hdot : o.dot = false)
    (hw : o.width = w) (hhead : w = 0 → ds.head? ≠ some '0') :
    finish write mem (ds ++ fmt) (reading st o) =
      finish write mem fmt (reading st { o with width := valueFrom w ds }) := by
  induction ds generalizing o w with
  | nil =>
    have hsame : { o with width := (w : ℤ) } = o := by rw [← hw]
    rw [valueFrom,List.foldl_nil,hsame]
    rfl
  | cons c ds ih =>
    have hc := hds c List.mem_cons_self
    have hzero : ¬(o.width = 0 ∧ c = '0' ∧ o.zeroPad = false) := by
      rintro ⟨h0,rfl,-⟩
      exact hhead (by omega) rfl
    have hno : ¬o.dot = true := by rw [hdot]; exact Bool.false_ne_true
    rw [List.cons_append,finish_cons,step_digit hc,if_neg hno,if_neg hzero,Option.bind_some]
    refine @ih { o with width := o.width * 10 + (c.toNat - '0'.toNat : ℕ) }
      (w * 10 + (c.toNat - '0'.toNat)) (fun d hd => hds d (List.mem_cons_of_mem c hd)) hdot ?_
      fun h0 => ?_
    · rw [hw]
      push_cast
      rfl
    · -- A digit that adds nothing to no width is the zero that a width does not begin with.
      have hrange := between_iff.mp hc
      have hcode : c.toNat = '0'.toNat := by omega
      have hchar : c = '0' := Char.ext (UInt32.toNat_inj.mp hcode)
      exact absurd (congrArg some hchar) (hhead (by omega))

/-- The digits of a precision. -/
theorem finish_precision {ds : Text} (hds : ∀ c ∈ ds,isDigit c = true) (hdot : o.dot = true) :
    finish write mem (ds ++ fmt) (reading st o) =
      finish write mem fmt (reading st { o with precision := valueFrom o.precision ds }) := by
  induction ds generalizing o with
  | nil => rfl
  | cons c ds ih =>
    rw [List.cons_append,finish_cons,step_digit (hds c List.mem_cons_self),if_pos hdot,
      Option.bind_some]
    exact @ih { o with precision := o.precision * 10 + (c.toNat - '0'.toNat) }
      (fun d hd => hds d (List.mem_cons_of_mem c hd)) hdot

/-- The length. -/
theorem finish_longs (n : ℕ) (o : Spec) :
    finish write mem (List.replicate n 'l' ++ fmt) (reading st o) =
      finish write mem fmt (reading st { o with longSpec := o.longSpec || decide (0 < n) }) := by
  induction n generalizing o with
  | zero =>
    simp only [Nat.lt_irrefl,decide_false,Bool.or_false]
    rfl
  | succ n ih =>
    have hstep : step write mem (reading st o) 'l' =
        some (reading st { o with longSpec := true }) := rfl
    rw [List.replicate_succ,List.cons_append,finish_cons,hstep,Option.bind_some,ih]
    simp only [Bool.true_or,Nat.succ_pos,decide_true,Bool.or_true]

/-- A precision, a length and the conversion behind a width. -/
theorem finish_end (d : Directive) (hdot : o.dot = false) (hp : o.precision = 0)
    (hl : o.longSpec = false) :
    finish write mem ((d.precision.elim [] fun ds => '.'::ds) ++
      (List.replicate d.longs 'l' ++ (d.conversion.char::fmt))) (reading st o) =
      (d.conversion.field mem
        { o with
          dot := d.precision.isSome
          precision := value (d.precision.getD [])
          longSpec := decide (0 < d.longs) } st.args).bind
        fun r => finish write mem fmt (after write st r) := by
  cases hd : d.precision with
  | none =>
    have hsame : { o with dot := false, precision := 0 } = o := by rw [← hdot,← hp]
    rw [Option.elim_none,List.nil_append,finish_longs,finish_conversion,hl,Bool.false_or]
    conv_lhs => rw [← hsame]
    rfl
  | some ds =>
    have hstep : step write mem (reading st o) '.' = some (reading st { o with dot := true }) := by
      simp [step,reading,hdot]
    rw [Option.elim_some,List.cons_append,finish_cons,hstep,Option.bind_some,
      finish_precision (d.precisionDigits ds hd) rfl,finish_longs,finish_conversion]
    simp only [hp,hl,Bool.false_or]
    rfl

/-- A directive writes its field. -/
theorem finish_directive (d : Directive) (hs : st.specifier = false) :
    finish write mem ('%'::(d.tail ++ fmt)) st =
      ((Item.directive d).field mem st.args).bind
        fun r => finish write mem fmt (after write st r) := by
  have hstep : step write mem st '%' = some (reading st {}) := by
    rw [step,hs]
    rfl
  obtain ⟨o,ho⟩ : ∃ o,o = d.flags.foldl Flag.set {} := ⟨_,rfl⟩
  obtain ⟨hdot,hwidth,hprec,harg,hlong⟩ : o.dot = false ∧ o.width = 0 ∧ o.precision = 0 ∧
      o.argWidth = false ∧ o.longSpec = false := ho ▸ Flag.foldl_rest d.flags {}
  have hspec (w : ℤ) : d.spec w =
      { o with
        width := w
        argWidth := match d.width with
          | .digits _ => false
          | .arg => true
        dot := d.precision.isSome
        precision := value (d.precision.getD [])
        longSpec := decide (0 < d.longs) } := by
    rw [ho]
    rfl
  rw [finish_cons,hstep,Option.bind_some,Directive.tail]
  simp only [List.append_assoc,List.singleton_append]
  rw [finish_flags d.nodup rfl rfl fun f _ => by cases f <;> rfl,← ho,Item.field]
  -- The width is set, and what follows it does not look at how.
  cases hw : d.width with
  | digits ds =>
    obtain ⟨hds,hhead⟩ := d.widthDigits ds hw
    have hval : valueFrom 0 ds = value ds := rfl
    rw [Width.text,finish_width hds hdot hwidth fun _ => hhead,
      finish_end (o := { o with width := (valueFrom 0 ds : ℕ) }) d hdot hprec hlong,hval,
      Width.read,Option.bind_some]
    simp only [hspec,hw,harg]
  | arg =>
    have hstar : step write mem (reading st o) '*' = (word (reading st o)).map fun r =>
        { r.2 with
          spec := { o with argWidth := true, width := MachineInt.signed 32 r.1 } } := by
      have hnew : o.argWidth = false ∧ o.width = 0 := ⟨harg,hwidth⟩
      simp only [step,reading]
      exact if_pos hnew
    have hread : Width.arg.read st.args =
        (readWord st.args).map fun r => (MachineInt.signed 32 r.1,r.2) := by
      cases st.args <;> rfl
    have hargs : (reading st o).args = st.args := rfl
    rw [Width.text,List.singleton_append,finish_cons,hstar,word_eq,hargs,hread]
    rcases readWord st.args with _ | ⟨w,args⟩
    · rfl
    · simp only [Option.map_some,Option.bind_some]
      refine (@finish_end S write mem { st with args := args }
        { o with argWidth := true, width := MachineInt.signed 32 w } fmt d hdot hprec
          hlong).trans ?_
      simp only [hspec,hw]
      rfl

/-- An item writes its field. -/
theorem finish_item (item : Item) (hs : st.specifier = false) :
    finish write mem (item.text ++ fmt) st =
      (item.field mem st.args).bind fun r => finish write mem fmt (after write st r) := by
  cases item with
  | lit c hc =>
    have hstep : step write mem st c =
        some (after write { st with spec := {}, specifier := false } ([[c]],st.args)) := by
      rw [step,hs]
      simp only [Bool.not_false,if_true,if_neg hc]
      rw [after,put_write,putAll_eq]
    rw [Item.text,List.singleton_append,finish_cons,hstep,Option.bind_some,finish_after]
    rfl
  | percent =>
    have hfirst : step write mem st '%' = some (reading st {}) := by
      rw [step,hs]
      rfl
    have hsecond : step write mem (reading st {}) '%' =
        some (after write { st with spec := {}, specifier := true } ([['%']],st.args)) := rfl
    rw [Item.text,List.cons_append,List.singleton_append,finish_cons,hfirst,Option.bind_some,
      finish_cons,hsecond,Option.bind_some,finish_after]
    rfl
  | directive d => exact finish_directive d hs

theorem writeAll_append (ts us : List Text) (s : S) : writeAll write (ts ++ us) s =
    ((writeAll write ts s).1 + (writeAll write us (writeAll write ts s).2).1,
      (writeAll write us (writeAll write ts s).2).2) := by
  induction ts generalizing s with
  | nil => simp [writeAll]
  | cons t ts ih => simp only [List.cons_append,writeAll,ih,Nat.add_assoc]

/-- Items write their fields. -/
theorem finish_items (items : List Item) (hs : st.specifier = false) :
    finish write mem (items.flatMap Item.text) st =
      (fields mem items st.args).map fun pieces =>
        (st.bw + (writeAll write pieces st.stream).1,(writeAll write pieces st.stream).2) := by
  induction items generalizing st with
  | nil => rfl
  | cons item items ih =>
    rw [List.flatMap_cons,finish_item item hs,fields]
    rcases item.field mem st.args with _ | ⟨ts,args⟩
    · rfl
    · rw [Option.bind_some,Option.bind_some,ih rfl,after,putAll_eq,Option.map_map]
      refine congrFun (congrArg _ (funext fun pieces => ?_)) _
      rw [Function.comp_apply,writeAll_append]
      simp only [Nat.add_assoc]

/-- A format from its beginning on. -/
theorem finish_format (items : List Item) (args : List ℕ) (s : S) :
    finish write mem (items.flatMap Item.text) ⟨{},false,0,args,s⟩ =
      (fields mem items args).map fun pieces => writeAll write pieces s := by
  rw [finish_items items rfl]
  refine congrFun (congrArg _ (funext fun pieces => ?_)) _
  exact Prod.ext (Nat.zero_add _) rfl

end Reading

/-- A text with padding up to the width. -/
def padded (o : Spec) (text : Text) : Text :=
  let padding := List.replicate (o.width.toNat - text.length) o.padChr
  if o.leftJustify then text ++ padding else padding ++ text

/-- What is written of a number. -/
structure Numeral where
  /-- The digits. -/
  table : Text
  /-- The number. -/
  number : ℤ
  /-- What comes before it. -/
  lead : Text
  /-- The least number of digits. -/
  minDigits : ℕ
  /-- The most digits that numbers in the table have. -/
  places : ℕ

/-- The number that a conversion finds in the words of its argument. -/
def Conversion.numeral (o : Spec) (raw : ℕ) : Conversion → Option Numeral
  | pointer caps => some ⟨hexTable caps,raw,"0x".toList,8,16⟩
  | hex caps => some ⟨hexTable caps,raw,if o.hashFlag then "0x".toList else [],o.precision,16⟩
  | decimal _ =>
    some ⟨decTable,MachineInt.signed (if o.longSpec then 64 else 32) raw,[],o.precision,19⟩
  | unsigned => some ⟨decTable,raw,[],o.precision,19⟩
  | str => none
  | wide => none
  | chr => none
  | uuid => none

/-- A number fits: it has no more digits than places, or than the width leaves if there is one,
and it is not negative where a plus is wanted. -/
structure Numeral.Fits (n : Numeral) (o : Spec) : Prop where
  /-- It fits into the places. -/
  places : n.number.natAbs < n.table.length ^ n.places
  /-- It fits into the width. -/
  width : o.width ≠ 0 → n.lead.length < o.width.toNat ∧
    n.number.natAbs < n.table.length ^ (o.width.toNat - n.lead.length)
  /-- The precision does. -/
  precision : n.minDigits ≤ n.places
  /-- The width is a number of characters. -/
  range : 0 ≤ o.width ∧ o.width < 2 ^ 31
  /-- A plus is only wanted of numbers that are not negative. -/
  plus : o.showPlus = true → 0 ≤ n.number

section Numbers

variable {o : Spec}

theorem around_flatten {ts : List Text} {len : ℕ} (h : ts.flatten.length = len) :
    (around o (o.width - len).toNat ts).flatten = padded o ts.flatten := by
  have hpad : ((List.replicate (o.width - len).toNat [o.padChr]).flatten : Text) =
      List.replicate (o.width.toNat - ts.flatten.length) o.padChr := by
    rw [h,show (o.width - len).toNat = o.width.toNat - len by omega]
    generalize o.width.toNat - len = n
    induction n with
    | zero => rfl
    | succ n ih => rw [List.replicate_succ,List.flatten_cons,ih]; rfl
  rw [around,padded]
  split_ifs
  · rw [List.flatten_append,hpad]
  · rw [List.flatten_append,hpad]

/-- The most digits that the width leaves. -/
theorem Numeral.Fits.digits {n : Numeral} (h : n.Fits o) {places lead : ℕ}
    (hplaces : n.places = places) (hlead : n.lead.length = lead) (hp : places < 2 ^ 32)
    (hpos : 1 ≤ places) :
    let most := MachineInt.unsigned 32 (if o.width ≠ 0 then o.width - lead else places)
    1 ≤ most ∧ n.number.natAbs < n.table.length ^ most := by
  intro most
  have hrange := h.range
  by_cases hw : o.width = 0
  · have hmost : most = places := by
      show MachineInt.unsigned 32 (if o.width ≠ 0 then o.width - lead else places) = places
      rw [if_neg (not_not.mpr hw)]
      exact MachineInt.unsigned_natCast hp
    rw [hmost,← hplaces]
    exact ⟨hplaces ▸ hpos,h.places⟩
  · obtain ⟨hlt,hfit⟩ := h.width hw
    rw [hlead] at hlt hfit
    have hmost : most = o.width.toNat - lead := by
      show MachineInt.unsigned 32 (if o.width ≠ 0 then o.width - lead else places) = _
      rw [if_pos hw,show o.width - (lead : ℤ) = ((o.width.toNat - lead : ℕ) : ℤ) by omega]
      exact MachineInt.unsigned_natCast (by omega)
    rw [hmost]
    exact ⟨by omega,hfit⟩

/-- A word with a sign, as WriteDec takes it. -/
theorem extend_spec {longSpec : Bool} {raw : ℕ} (h : raw < 2 ^ (if longSpec then 64 else 32)) :
    let v := extend longSpec raw
    let z := MachineInt.signed (if longSpec then 64 else 32) raw
    v < 2 ^ 64 ∧ (2 ^ 63 ≤ v ↔ z < 0) ∧ (if 2 ^ 63 ≤ v then 2 ^ 64 - v else v) = z.natAbs := by
  intro v z
  cases longSpec with
  | true =>
    have hv : v = raw := rfl
    have hz : z = MachineInt.signed (63 + 1) raw := congrArg (MachineInt.signed · raw) (if_pos rfl)
    have hraw : raw < 2 ^ 64 := h
    rcases Nat.lt_or_ge raw (2 ^ 63) with hlow | hhigh
    · rw [MachineInt.signed_of_range (by omega) (by omega)] at hz
      rw [hv,hz,if_neg (by omega)]
      omega
    · rw [MachineInt.signed_of_high (by omega) (by omega)] at hz
      rw [hv,hz,if_pos hhigh]
      omega
  | false =>
    have hz : z = MachineInt.signed 32 raw :=
      congrArg (MachineInt.signed · raw) (if_neg Bool.false_ne_true)
    have hv : v = MachineInt.unsigned 64 (MachineInt.signed 32 raw) := if_neg Bool.false_ne_true
    have hraw : raw < 2 ^ 32 := h
    rw [← hz] at hv
    rcases Nat.lt_or_ge raw (2 ^ 31) with hlow | hhigh
    · rw [MachineInt.signed_of_range (w := 31) (by omega) (by omega)] at hz
      rw [hv,hz,MachineInt.unsigned_natCast (by omega),if_neg (by omega)]
      omega
    · rw [MachineInt.signed_of_high (w := 31) (by omega) (by omega)] at hz
      have hneg : z = ((raw + (2 ^ 64 - 2 ^ 32) : ℕ) : ℤ) - 2 ^ 64 := by omega
      rw [hv,hneg,MachineInt.unsigned_neg (by omega),if_pos (by omega)]
      omega

/-- A decimal number of a field. -/
theorem decField_shows {n : Numeral} {unsig : Bool} {v : ℕ} (hfit : n.Fits o) (hv : v < 2 ^ 64)
    (htable : n.table = decTable) (hplaces : n.places = 19) (hlead : n.lead = [])
    (hneg : (unsig = false ∧ 2 ^ 63 ≤ v) ↔ n.number < 0)
    (habs : (if unsig = false ∧ 2 ^ 63 ≤ v then 2 ^ 64 - v else v) = n.number.natAbs)
    (hmin : n.minDigits = o.precision) :
    ∃ body,Shows n.table (n.number < 0) n.number.natAbs n.minDigits body ∧
      (decField o unsig v).flatten = padded o (n.lead ++ body) := by
  have hlead0 : n.lead.length = 0 := congrArg List.length hlead
  obtain ⟨hpos,hmost⟩ := hfit.digits hplaces hlead0 (by decide) (by decide)
  have hplus := hfit.plus
  have hbig := hfit.places
  have hprec : o.precision ≤ 19 := hmin ▸ hplaces ▸ hfit.precision
  rw [htable] at hmost hbig
  rw [Nat.cast_zero,Int.sub_zero] at hpos hmost
  rw [hplaces] at hbig
  have hdec : DecRight v o.precision _ o.showPlus unsig :=
    (decRight_iff hv hprec (by rw [habs]; exact hmost) hpos).mpr (by
      rw [← habs] at hbig
      cases unsig with
      | true =>
        rw [if_pos rfl]
        exact hbig
      | false =>
        rw [if_neg Bool.false_ne_true]
        intro hs
        have hnot : ¬n.number < 0 := not_lt.mpr (hplus hs)
        rw [← hneg,not_and] at hnot
        exact not_le.mp (hnot rfl))
  refine ⟨decText o unsig v,?_,?_⟩
  · have hshows := prints_finish.mp hdec
    rw [habs,propext hneg] at hshows
    rw [htable,hmin]
    exact hshows
  · rw [decField,around_flatten (by simp),hlead]
    simp

/-- A hexadecimal number of a field. -/
theorem hexField_shows {n : Numeral} {caps : Bool} {v : ℕ} (hfit : n.Fits o)
    (htable : n.table = hexTable caps) (hplaces : n.places = 16)
    (hlead : n.lead = (hexPrefix o).flatten) (hnum : n.number = v)
    (hmin : n.minDigits = o.precision) :
    ∃ body,Shows n.table (n.number < 0) n.number.natAbs n.minDigits body ∧
      (hexField o caps v).flatten = padded o (n.lead ++ body) := by
  have hpre : n.lead.length = if o.hashFlag then 2 else 0 := by
    rw [hlead,hexPrefix]
    split_ifs <;> rfl
  obtain ⟨hpos,hmost⟩ := hfit.digits hplaces hpre (by decide) (by decide)
  have hbig := hfit.places
  have hcaps : (hexTable caps).length = 16 := by cases caps <;> rfl
  have habs : n.number.natAbs = v := by rw [hnum,Int.natAbs_natCast]
  have hprec : o.precision ≤ 16 := hmin ▸ hplaces ▸ hfit.precision
  rw [htable,hcaps,habs] at hmost hbig
  rw [hplaces] at hbig
  have hhex : HexRight v caps o.precision _ := hexRight caps (by omega) hprec hmost hpos
  refine ⟨hexText o caps v,?_,?_⟩
  · have hshows := prints_finish.mp hhex
    have hneg : False = (n.number < 0) := by
      rw [hnum]
      exact (eq_false (not_lt.mpr (Int.natCast_nonneg v))).symm
    rw [hneg] at hshows
    rw [htable,hmin,habs,hexText]
    split_ifs at hshows ⊢ <;> exact hshows
  · have hlen : (hexPrefix o ++ [hexText o caps v]).flatten.length =
        (hexPrefix o).flatten.length + (hexText o caps v).length := by simp
    rw [hexField,← Nat.cast_add,around_flatten hlen,hlead]
    simp

/-- The number that a conversion finds is written so that it can be read back: digits with its
value, and a sign if it is negative, padded up to the width. -/
theorem number_field {c : Conversion} {n : Numeral} {raw : ℕ} (hc : c.numeral o raw = some n)
    (hfit : n.Fits o) (hraw : raw < 2 ^ (if o.longSpec then 64 else 32)) {mem : Memory}
    {args rest : List ℕ} (hread : readNumber o.longSpec args = some (raw,rest)) :
    ∃ pieces body,c.field mem o args = some (pieces,rest) ∧
      Shows n.table (n.number < 0) n.number.natAbs n.minDigits body ∧
      pieces.flatten = padded o (n.lead ++ body) := by
  cases c with
  | pointer caps =>
    obtain rfl := Option.some.inj hc
    have hfit' : Numeral.Fits ⟨hexTable caps,raw,"0x".toList,8,16⟩ o.pointer :=
      ⟨hfit.places,hfit.width,hfit.precision,hfit.range,hfit.plus⟩
    obtain ⟨body,hshows,htext⟩ := hexField_shows hfit' rfl rfl rfl rfl rfl
    exact ⟨_,body,by rw [Conversion.field,hread]; rfl,hshows,htext⟩
  | hex caps =>
    obtain rfl := Option.some.inj hc
    have hlead : (if o.hashFlag then "0x".toList else []) = (hexPrefix o).flatten := by
      rw [hexPrefix]
      split_ifs <;> rfl
    obtain ⟨body,hshows,htext⟩ := hexField_shows hfit rfl rfl hlead rfl rfl
    exact ⟨_,body,by rw [Conversion.field,hread]; rfl,hshows,htext⟩
  | decimal integer =>
    obtain rfl := Option.some.inj hc
    obtain ⟨hv,hneg,habs⟩ := extend_spec hraw
    have hiff : (false = false ∧ 2 ^ 63 ≤ extend o.longSpec raw) ↔
        MachineInt.signed (if o.longSpec then 64 else 32) raw < 0 := by
      rw [eq_self_iff_true,true_and]
      exact hneg
    obtain ⟨body,hshows,htext⟩ := decField_shows hfit hv rfl rfl rfl hiff
      (by simpa only [true_and] using habs) rfl
    exact ⟨_,body,by rw [Conversion.field,hread]; rfl,hshows,htext⟩
  | unsigned =>
    obtain rfl := Option.some.inj hc
    have hv : raw < 2 ^ 64 :=
      hraw.trans_le (Nat.pow_le_pow_right (by decide) (by split_ifs <;> decide))
    obtain ⟨body,hshows,htext⟩ := @decField_shows o ⟨decTable,raw,[],o.precision,19⟩ true raw hfit
      hv rfl rfl rfl (by simp) (by simp) rfl
    exact ⟨_,body,by rw [Conversion.field,hread]; rfl,hshows,htext⟩
  | str => cases hc
  | wide => cases hc
  | chr => cases hc
  | uuid => cases hc

/-- A stream that takes everything. -/
def append (t s : Text) : ℕ × Text := (t.length,s ++ t)

theorem writeAll_append_text (ts : List Text) (s : Text) :
    writeAll append ts s = (ts.flatten.length,s ++ ts.flatten) := by
  induction ts generalizing s with
  | nil => rw [writeAll,List.flatten_nil,List.append_nil,List.length_nil]
  | cons t ts ih =>
    simp only [writeAll,append,ih,List.flatten_cons,List.length_append,List.append_assoc]

/-- A format of one conversion of a number that fits, with flags in any order, a width in
digits or from an argument, a precision and a length: the text is the number, padded, and its
length is returned. -/
theorem vWriteFmt_number {d : Directive} {mem : Memory} {w : ℤ} {raw : ℕ} {n : Numeral}
    {args args' rest : List ℕ} (hw : d.width.read args = some (w,args'))
    (hread : readNumber (decide (0 < d.longs)) args' = some (raw,rest))
    (hraw : raw < 2 ^ (if decide (0 < d.longs) then 64 else 32))
    (hc : d.conversion.numeral (d.spec w) raw = some n) (hfit : n.Fits (d.spec w)) (s : Text) :
    ∃ body,Shows n.table (n.number < 0) n.number.natAbs n.minDigits body ∧
      vWriteFmt append mem ('%'::d.tail) args s =
        some ((padded (d.spec w) (n.lead ++ body)).length,
          s ++ padded (d.spec w) (n.lead ++ body)) := by
  obtain ⟨pieces,body,hfield,hshows,htext⟩ := @number_field (d.spec w) _ _ _ hc hfit hraw mem _ _
    hread
  refine ⟨body,hshows,?_⟩
  have hfields : fields mem [.directive d] args = some pieces := by
    rw [fields,Item.field,hw,Option.bind_some]
    simp only [hfield,Option.bind_some]
    exact congrArg some (List.append_nil pieces)
  have hitems := @finish_format _ append mem [.directive d] args s
  rw [List.flatMap_singleton,Item.text,hfields,Option.map_some,writeAll_append_text,htext] at hitems
  exact hitems

/-- A hexadecimal number with a prefix and padding to the right of it. -/
def leftHex : Directive where
  flags := [.minus,.hash]
  width := .digits ['8']
  precision := none
  longs := 0
  conversion := .hex false
  nodup := by decide
  widthDigits := by
    rintro ds ⟨⟩
    exact ⟨fun c hc => List.mem_singleton.mp hc ▸ rfl,by decide⟩
  precisionDigits := by
    rintro ds ⟨⟩

theorem vWriteFmt_number_left :
    ∃ body,Shows (hexTable false) ((0x1F : ℤ) < 0) (0x1F : ℤ).natAbs 0 body ∧
      vWriteFmt append ⟨fun _ => [],fun _ => [],fun _ _ => 0#8⟩ ('%'::leftHex.tail) [0x1F] [] =
        some ((padded (leftHex.spec 8) ("0x".toList ++ body)).length,
          padded (leftHex.spec 8) ("0x".toList ++ body)) :=
  vWriteFmt_number (d := leftHex) (n := ⟨hexTable false,0x1F,"0x".toList,0,16⟩) rfl rfl
    (by decide) rfl ⟨by decide,by decide,by decide,by decide,by decide⟩ []

end Numbers

end WootOs.FormatOutput
