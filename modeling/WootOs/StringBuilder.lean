import WootOs.ObjectTree
import Mathlib.Data.List.TakeWhile

/-!
# String builders

A string builder is a memory stream over a buffer that is cleared at first. Each
write takes what still fits into the buffer, up to its last byte: nothing keeps a
byte for the terminator, which is there only as long as the text is shorter than
the buffer.
-/

namespace WootOs.StringBuilder

open ObjectTree (Text)

/-- The terminator. -/
def nul : Char := Char.ofNat 0

/-- A memory stream over a buffer. -/
structure Builder where
  /-- The buffer. -/
  data : Text
  /-- Where the next write goes. -/
  position : ℕ
  /-- It goes into the buffer or right behind it. -/
  fits : position ≤ data.length

/-- StringBuilder::StringBuilder for a buffer of a size, given or allocated. -/
def ofSize (size : ℕ) : Builder where
  data := List.replicate size nul
  position := 0
  fits := Nat.zero_le _

namespace Builder

variable (b : Builder)

/-- The number of bytes that MemoryStream::Write takes. -/
def taken (n : ℕ) : ℕ := if b.data.length < b.position + n then b.data.length - b.position else n

theorem position_add_taken (n : ℕ) : b.position + b.taken n ≤ b.data.length := by
  have := b.fits
  rw [taken]
  split_ifs <;> omega

/-- MemoryStream::Write. -/
def write (buffer : Text) : Builder where
  data := b.data.take b.position ++ buffer.take (b.taken buffer.length) ++
    b.data.drop (b.position + b.taken buffer.length)
  position := b.position + b.taken buffer.length
  fits := by
    have := b.position_add_taken buffer.length
    have hle : b.taken buffer.length ≤ buffer.length := by
      have := b.fits
      rw [taken]
      split_ifs <;> omega
    simp only [List.length_append,List.length_take,List.length_drop]
    omega

/-- StringBuilder::Clear. -/
def clear : Builder where
  data := List.replicate b.data.length nul
  position := 0
  fits := Nat.zero_le _

end Builder

/-- What Stream::WriteStr passes on: a string up to its terminator, and up to a length if that
is not zero. -/
def strText (str : Text) (maxLen : ℕ) : Text :=
  let s := str.takeWhile (· ≠ nul)
  s.take (if maxLen ≠ 0 ∧ maxLen < s.length then maxLen else s.length)

/-- A call. -/
inductive Op where
  /-- WriteStr of a string, up to a length. -/
  | writeStr (str : Text) (maxLen : ℕ)
  /-- WriteFmt, with the pieces that the format comes to, each written by itself. -/
  | writeFmt (pieces : List Text)
  /-- WriteByte. -/
  | writeByte (value : Char)
  /-- Clear. -/
  | clear

/-- A call on a string builder. -/
def Builder.apply (b : Builder) : Op → Builder
  | .writeStr str maxLen => b.write (strText str maxLen)
  | .writeFmt pieces => pieces.foldl Builder.write b
  | .writeByte value => b.write [value]
  | .clear => b.clear

/-- The text since the last Clear after one more call. -/
def textAfter (text : Text) : Op → Text
  | .writeStr str maxLen => text ++ strText str maxLen
  | .writeFmt pieces => text ++ pieces.flatten
  | .writeByte value => text ++ [value]
  | .clear => []

/-- The text that calls have written since the last Clear. -/
def written (ops : List Op) : Text := ops.foldl textAfter []

/-- The buffer holds a string that ends in it: as much of the text as fits. -/
def Holds (data text : Text) : Prop :=
  nul ∈ data ∧ data.takeWhile (· ≠ nul) = text.take (data.length - 1)

/-- There is no terminator in what fits of a text, and the text is shorter than the buffer or
has a terminator where the buffer ends. -/
def Short (size : ℕ) (text : Text) : Prop :=
  nul ∉ text.take (size - 1) ∧ (text.length < size ∨ text[size - 1]? = some nul)

section Filling

variable {b : Builder} {size : ℕ} {text : Text}

/-- A buffer filled with a text from its beginning on. -/
structure Filled (size : ℕ) (b : Builder) (text : Text) : Prop where
  /-- What does not fit is cut off, the rest is cleared. -/
  data : b.data = (text ++ List.replicate size nul).take size
  /-- The next write goes behind the text. -/
  position : b.position = min text.length size

/-- The buffer keeps its size. -/
theorem Filled.length (h : Filled size b text) : b.data.length = size := by
  rw [h.data,List.length_take,List.length_append,List.length_replicate]
  omega

/-- A new buffer holds nothing. -/
theorem filled_ofSize (size : ℕ) : Filled size (ofSize size) [] := by
  refine ⟨?_,?_⟩
  · simp [ofSize]
  · simp [ofSize]

/-- A write adds to the text. -/
theorem Filled.write (h : Filled size b text) (buffer : Text) :
    Filled size (b.write buffer) (text ++ buffer) := by
  have hlen := h.length
  have hpos := h.position
  have htaken : b.taken buffer.length = min buffer.length (size - text.length) := by
    rw [Builder.taken,hlen,hpos]
    split_ifs <;> omega
  refine ⟨?_,?_⟩
  · have hrun : (b.write buffer).data = b.data.take b.position ++
        buffer.take (b.taken buffer.length) ++ b.data.drop (b.position + b.taken buffer.length) := rfl
    have hcut (n : ℕ) : buffer.take (min buffer.length n) = buffer.take n := by
      rw [Nat.min_comm,← List.take_take,List.take_length]
    rw [hrun,htaken,hpos,hcut,h.data]
    rcases Nat.le_total text.length size with hle | hle
    · have hold : (text ++ List.replicate size nul).take size =
          text ++ List.replicate (size - text.length) nul := by
        rw [List.take_append,List.take_of_length_le hle,List.take_replicate,
          Nat.min_eq_left (Nat.sub_le _ _)]
      have hnew : (text ++ buffer ++ List.replicate size nul).take size =
          text ++ buffer.take (size - text.length) ++
            List.replicate (size - text.length - buffer.length) nul := by
        rw [List.take_append,List.take_append,List.take_of_length_le hle,List.take_replicate,
          List.length_append]
        congr 2
        omega
      rw [Nat.min_eq_left hle,hold,hnew,List.take_left,List.drop_append,
        List.drop_eq_nil_of_le (Nat.le_add_right _ _),List.nil_append,List.drop_replicate]
      congr 2
      omega
    · have hno : size - text.length = 0 := by omega
      rw [Nat.min_eq_right hle,hno,Nat.min_zero,List.take_zero,List.append_nil,Nat.add_zero,
        List.take_append_drop,List.append_assoc text,List.take_append_of_le_length hle,
        List.take_append_of_le_length hle]
  · have : (b.write buffer).position = b.position + b.taken buffer.length := rfl
    rw [this,hpos,htaken,List.length_append]
    omega

/-- Clear forgets the text. -/
theorem Filled.clear (h : Filled size b text) : Filled size b.clear [] := by
  have := filled_ofSize size
  rw [Builder.clear]
  simp only [h.length]
  exact this

/-- A call adds its text. -/
theorem Filled.apply (h : Filled size b text) (op : Op) :
    Filled size (b.apply op) (textAfter text op) := by
  cases op with
  | writeStr str maxLen => exact h.write _
  | writeByte value => exact h.write _
  | clear => exact h.clear
  | writeFmt pieces =>
    rw [textAfter,Builder.apply]
    induction pieces generalizing b text with
    | nil =>
      rw [List.flatten_nil,List.append_nil]
      exact h
    | cons piece pieces ih =>
      rw [List.flatten_cons,← List.append_assoc]
      exact ih (h.write piece)

/-- After any calls the buffer is filled with the text since the last Clear. -/
theorem Filled.run (h : Filled size b text) (ops : List Op) :
    Filled size (ops.foldl Builder.apply b) (ops.foldl textAfter text) := by
  induction ops generalizing b text with
  | nil => exact h
  | cons op ops ih => exact ih (h.apply op)

/-- A buffer that is filled with a text holds it exactly when the text is short. -/
theorem Filled.holds_iff (h : Filled size b text) (hsize : 1 ≤ size) :
    Holds b.data text ↔ Short size text := by
  obtain ⟨m,rfl⟩ : ∃ m,size = m + 1 := ⟨size - 1,by omega⟩
  rw [Holds,h.length,Short,Nat.add_sub_cancel,h.data]
  constructor
  · rintro ⟨hnul,hstr⟩
    have hno : nul ∉ text.take m := by
      intro hmem
      rw [← hstr] at hmem
      simpa using List.mem_takeWhile_imp hmem
    refine ⟨hno,?_⟩
    by_cases hlen : text.length < m + 1
    · exact .inl hlen
    · right
      rw [List.take_append_of_le_length (Nat.not_lt.mp hlen),List.take_add_one,
        List.mem_append] at hnul
      rcases hnul with hnul | hnul
      · exact absurd hnul hno
      · rw [Option.mem_toList] at hnul
        exact hnul
  · rintro ⟨hno,hend⟩
    obtain ⟨rest,hrest⟩ : ∃ rest,(text ++ List.replicate (m + 1) nul).take (m + 1) =
        text.take m ++ nul :: rest := by
      rcases Nat.lt_or_ge text.length (m + 1) with hlt | hge
      · refine ⟨List.replicate (m - text.length) nul,?_⟩
        have hm : text.take m = text := List.take_of_length_le (by omega)
        rw [List.take_append,List.take_of_length_le hlt.le,List.take_replicate,hm,
          ← List.replicate_succ]
        congr 2
        omega
      · refine ⟨[],?_⟩
        have hlast := hend.resolve_left (Nat.not_lt.mpr hge)
        rw [List.take_append_of_le_length hge,List.take_add_one,hlast]
        rfl
    rw [hrest]
    refine ⟨by simp,?_⟩
    rw [List.takeWhile_append_of_pos]
    · simp
    · intro c hc
      simp only [ne_eq,decide_not,Bool.not_eq_true',decide_eq_false_iff_not]
      rintro rfl
      exact hno hc

end Filling

/-- After any calls the buffer, of at least one byte, holds the text since the last Clear as
far as it fits exactly when that text is short. -/
theorem holds_iff_short (maxLength : ℕ) (ops : List Op) :
    Holds (ops.foldl Builder.apply (ofSize (maxLength + 1))).data (written ops) ↔
      Short (maxLength + 1) (written ops) :=
  ((filled_ofSize _).run ops).holds_iff (Nat.succ_pos _)

/-- A buffer of four bytes that gets four characters. -/
theorem full_not_terminated :
    let ops := [Op.writeStr ['a','b'] 0,.writeByte 'c',.writeFmt [['d'],[]]]
    (ops.foldl Builder.apply (ofSize 4)).data = ['a','b','c','d'] ∧
      ¬Holds (ops.foldl Builder.apply (ofSize 4)).data (written ops) := by
  refine ⟨by decide,?_⟩
  rintro ⟨h,-⟩
  exact absurd h (by decide)

end WootOs.StringBuilder
