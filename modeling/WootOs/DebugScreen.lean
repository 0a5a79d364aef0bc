import WootOs.KernelMemory
import Mathlib.Data.List.Induction
import Mathlib.Data.Nat.Bitwise
import Mathlib.Tactic.SplitIfs

/-!
# The debug screen

The debug stream shows its text on a screen of twenty-five rows of eighty columns,
two bytes for each, and sends it to two ports. When the last row is full, the rows
are moved up by one, over one another.

The screen is a window on a page without an end: it shows the last rows of the page
that the text fills from its beginning on. No byte beside the screen changes, and
the cursor of the hardware stands where the next character goes.
-/

namespace WootOs.DebugScreen

open ByteStore

/-- The address of the screen. -/
def vgaTextMem : ℕ := 0xC00B8000

/-- The columns. -/
def vgaTextWidth : ℕ := 80

/-- The rows. -/
def vgaTextHeight : ℕ := 25

/-- The colours. -/
def vgaAttrib : ℕ := 0x1700

/-- The screen, its registers and the ports. -/
structure Screen where
  /-- The memory. -/
  mem : Store
  /-- The column of the next character. -/
  vgaCurX : ℕ
  /-- Its row. -/
  vgaCurY : ℕ
  /-- The register that the next value goes to. -/
  index : ℕ
  /-- The registers. -/
  crtc : ℕ → ℕ
  /-- What went to the serial line. -/
  serial : List UInt8
  /-- What went to the debug port. -/
  port : List UInt8

/-- Memory::Set16. -/
def set16 (m : Store) (dst val : ℕ) : ℕ → Store
  | 0 => m
  | n + 1 => set16 (patch m dst (leBytes 2 val)) (dst + 2) val n

namespace Screen

/-- Output to the port of the index. -/
def select (s : Screen) (index : ℕ) : Screen := { s with index := index }

/-- Output to the port of the registers. -/
def register (s : Screen) (value : ℕ) : Screen :=
  { s with crtc := Function.update s.crtc s.index (value % 256) }

/-- vgaSetCursorPos. -/
def vgaSetCursorPos (s : Screen) (pos : ℕ) : Screen :=
  (((s.select 0x0F).register pos).select 0x0E).register (pos / 256)

/-- vgaClearScreen. -/
def vgaClearScreen (s : Screen) : Screen :=
  vgaSetCursorPos
    { s with
      mem := set16 s.mem vgaTextMem vgaAttrib (vgaTextWidth * vgaTextHeight)
      vgaCurX := 0
      vgaCurY := 0 } 0

/-- The character goes to its place, or moves it. -/
def place (s : Screen) (c : UInt8) : Screen :=
  if c = 10 then { s with vgaCurX := 0, vgaCurY := s.vgaCurY + 1 }
  else if c = 9 then { s with vgaCurX := 8 * ((s.vgaCurX + 1 + 7) / 8) }
  else
    { s with
      mem := patch s.mem (vgaTextMem + 2 * (s.vgaCurY * vgaTextWidth + s.vgaCurX))
        (leBytes 2 (vgaAttrib ||| c.toNat))
      vgaCurX := s.vgaCurX + 1 }

/-- The end of a row. -/
def wrap (s : Screen) : Screen :=
  if vgaTextWidth ≤ s.vgaCurX then { s with vgaCurX := 0, vgaCurY := s.vgaCurY + 1 } else s

/-- The end of the screen. -/
def scroll (s : Screen) : Screen :=
  if vgaTextHeight ≤ s.vgaCurY then
    let moved := KernelMemory.move s.mem vgaTextMem (vgaTextMem + 2 * vgaTextWidth)
      (2 * vgaTextWidth * (vgaTextHeight - 1))
    { s with
      mem := set16 moved (vgaTextMem + 2 * (vgaTextWidth * (vgaTextHeight - 1))) vgaAttrib
        vgaTextWidth
      vgaCurX := 0
      vgaCurY := s.vgaCurY - 1 }
  else s

/-- The ports get a carriage return before every line feed. -/
def send (s : Screen) (c : UInt8) : Screen :=
  let s := if c = 10 then { s with serial := s.serial ++ [13], port := s.port ++ [13] } else s
  { s with serial := s.serial ++ [c], port := s.port ++ [c] }

/-- One turn of the loop of debugWrite. -/
def debugChar (s : Screen) (c : UInt8) : Screen :=
  let s := ((s.place c).wrap).scroll
  (s.vgaSetCursorPos (s.vgaCurY * vgaTextWidth + s.vgaCurX)).send c

/-- debugWrite: what it returns and the screen. -/
def debugWrite (s : Screen) (buffer : List UInt8) : ℕ × Screen :=
  (buffer.length,buffer.foldl debugChar s)

/-- The cell in a row and a column. -/
def cell (s : Screen) (row column : ℕ) : ℕ :=
  word s.mem 2 (vgaTextMem + 2 * (row * vgaTextWidth + column))

end Screen

/-! ### A page without an end -/

/-- A page, and where the next character goes. -/
structure Page where
  /-- The cells. -/
  cell : ℕ → ℕ → ℕ
  /-- The column. -/
  x : ℕ
  /-- The row. -/
  y : ℕ

namespace Page

/-- The empty page. -/
def empty : Page where
  cell := fun _ _ => vgaAttrib
  x := 0
  y := 0

/-- The next row is begun where this one is full. -/
def advance (p : Page) (x : ℕ) : Page :=
  if x < vgaTextWidth then { p with x := x } else { p with x := 0, y := p.y + 1 }

/-- The page with one more character. -/
def put (p : Page) (c : UInt8) : Page :=
  if c = 10 then { p with x := 0, y := p.y + 1 }
  else if c = 9 then p.advance (8 * (p.x / 8 + 1))
  else
    advance { p with cell := fun row column =>
      if row = p.y ∧ column = p.x then vgaAttrib ||| c.toNat else p.cell row column } (p.x + 1)

/-- The page of a text. -/
def ofText (text : List UInt8) : Page := text.foldl put empty

end Page

/-- A text with a carriage return before every line feed. -/
def crlf (text : List UInt8) : List UInt8 := text.flatMap fun c => if c = 10 then [13,c] else [c]

/-- The screen shows the last rows of a page. -/
structure Shows (p : Page) (s : Screen) : Prop where
  /-- The next character goes to the same column, -/
  x : s.vgaCurX = p.x
  /-- which is on the screen, -/
  inside : p.x < vgaTextWidth
  /-- and to the same row as long as that is, and to the last one from then on. -/
  y : s.vgaCurY = min p.y (vgaTextHeight - 1)
  /-- The cells are those of the page. -/
  cell : ∀ row < vgaTextHeight,∀ column < vgaTextWidth,
    s.cell row column = p.cell (p.y - (vgaTextHeight - 1) + row) column
  /-- Below the row of the next character the page is empty. -/
  below : ∀ row,p.y < row → ∀ column,p.cell row column = vgaAttrib
  /-- The cursor stands where the next character goes. -/
  cursor : 256 * s.crtc 0x0E + s.crtc 0x0F = s.vgaCurY * vgaTextWidth + s.vgaCurX

-- The proofs do not depend on where the screen is.
attribute [irreducible] vgaTextMem

section Cells

variable {m : Store} {dst val n a i : ℕ}

/-- A fill changes the words that are filled only. -/
theorem set16_out (h : a < dst ∨ dst + 2 * n ≤ a) : set16 m dst val n a = m a := by
  induction n generalizing m dst with
  | zero => rfl
  | succ n ih =>
    rw [set16,ih (by omega)]
    exact patch_out (by rw [leBytes_length]; omega)

/-- Words that are filled have the value. -/
theorem word_set16 (hval : val < 2 ^ 16) (hi : i < n) :
    word (set16 m dst val n) 2 (dst + 2 * i) = val := by
  induction n generalizing m dst i with
  | zero => omega
  | succ n ih =>
    rw [set16]
    cases i with
    | zero =>
      have hsame : word (set16 (patch m dst (leBytes 2 val)) (dst + 2) val n) 2 dst =
          word (patch m dst (leBytes 2 val)) 2 dst :=
        word_congr fun j hj => set16_out (by omega)
      exact hsame.trans (word_patch_same hval)
    | succ i =>
      have hplace : dst + 2 * (i + 1) = dst + 2 + 2 * i := by ring
      rw [hplace]
      exact ih (by omega)

/-- A character with its colours is a word. -/
theorem attrib_lt (c : UInt8) : vgaAttrib ||| c.toNat < 2 ^ 16 :=
  Nat.or_lt_two_pow (by decide) (c.toNat_lt.trans (by decide))

variable {s t : Screen} {row column : ℕ}

/-- The cells of a screen are in its memory. -/
theorem Screen.cell_congr (h : t.mem = s.mem) : t.cell row column = s.cell row column := by
  rw [Screen.cell,Screen.cell,h]

theorem Screen.wrap_mem (s : Screen) : s.wrap.mem = s.mem := by
  rw [Screen.wrap]
  split_ifs <;> rfl

/-- The cells after a character that has a place. -/
theorem Screen.cell_patch (row : ℕ) {row' column' : ℕ} (hval : val < 2 ^ 16)
    (hc : column < vgaTextWidth)
    (hc' : column' < vgaTextWidth)
    (h : t.mem = patch s.mem (vgaTextMem + 2 * (row' * vgaTextWidth + column')) (leBytes 2 val)) :
    t.cell row column = if row = row' ∧ column = column' then val else s.cell row column := by
  rw [Screen.cell,h]
  split_ifs with heq
  · rw [heq.1,heq.2]
    exact word_patch_same hval
  · rw [vgaTextWidth] at *
    exact word_patch_disjoint (by rw [leBytes_length]; omega)

theorem Screen.scroll_mem (hy : vgaTextHeight ≤ s.vgaCurY) : s.scroll.mem =
    set16 (KernelMemory.move s.mem vgaTextMem (vgaTextMem + 2 * vgaTextWidth)
      (2 * vgaTextWidth * (vgaTextHeight - 1)))
        (vgaTextMem + 2 * (vgaTextWidth * (vgaTextHeight - 1))) vgaAttrib vgaTextWidth := by
  rw [Screen.scroll,if_pos hy]

/-- The rows are moved up, and the last one is empty. -/
theorem Screen.cell_scroll (hrow : row < vgaTextHeight) (hc : column < vgaTextWidth)
    (hy : vgaTextHeight ≤ s.vgaCurY) : s.scroll.cell row column =
      if row + 1 < vgaTextHeight then s.cell (row + 1) column else vgaAttrib := by
  rw [Screen.cell,Screen.scroll_mem hy]
  by_cases hlast : row + 1 < vgaTextHeight
  · rw [if_pos hlast]
    refine word_congr fun j hj => ?_
    simp only [vgaTextWidth,vgaTextHeight] at *
    rw [set16_out (by omega),KernelMemory.move_eq,if_pos (by omega)]
    congr 1
    omega
  · have hattrib : vgaAttrib < 2 ^ 16 := by decide
    have hplace : vgaTextMem + 2 * (row * vgaTextWidth + column) =
        vgaTextMem + 2 * (vgaTextWidth * (vgaTextHeight - 1)) + 2 * column := by
      simp only [vgaTextWidth,vgaTextHeight] at *
      omega
    rw [if_neg hlast,hplace]
    exact word_set16 hattrib hc

end Cells

-- A fill is not unrolled to see which bytes it changes.
attribute [irreducible] set16

section Outputs

variable {s : Screen} {c : UInt8} {a : ℕ}

theorem crlf_append (text : List UInt8) (c : UInt8) :
    crlf (text ++ [c]) = crlf text ++ crlf [c] := List.flatMap_append

/-- The registers of the cursor. -/
theorem Screen.vgaSetCursorPos_eq (s : Screen) (pos : ℕ) : s.vgaSetCursorPos pos =
    { s with
      index := 0x0E
      crtc := Function.update (Function.update s.crtc 0x0F (pos % 256)) 0x0E
        (pos / 256 % 256) } := rfl

/-- What a character does beside the screen. -/
theorem Screen.debugChar_eq (s : Screen) (c : UInt8) :
    let t := ((s.place c).wrap).scroll
    let pos := t.vgaCurY * vgaTextWidth + t.vgaCurX
    (s.debugChar c).mem = t.mem ∧ (s.debugChar c).vgaCurX = t.vgaCurX ∧
      (s.debugChar c).vgaCurY = t.vgaCurY ∧ (s.debugChar c).crtc 0x0E = pos / 256 % 256 ∧
      (s.debugChar c).crtc 0x0F = pos % 256 ∧ (s.debugChar c).serial = t.serial ++ crlf [c] ∧
      (s.debugChar c).port = t.port ++ crlf [c] := by
  intro t pos
  have hregs : Function.update (Function.update t.crtc 0x0F (pos % 256)) 0x0E (pos / 256 % 256)
      0x0F = pos % 256 := by
    rw [Function.update_of_ne (by decide),Function.update_self]
  have hself : Function.update (Function.update t.crtc 0x0F (pos % 256)) 0x0E (pos / 256 % 256)
      0x0E = pos / 256 % 256 := Function.update_self _ _ _
  have hchar : s.debugChar c = (t.vgaSetCursorPos pos).send c := rfl
  rw [hchar,Screen.vgaSetCursorPos_eq,Screen.send]
  by_cases hn : c = 10
  · have hcr : crlf [c] = [13,c] := by simp [crlf,hn]
    rw [if_pos hn,hcr]
    exact ⟨rfl,rfl,rfl,hself,hregs,List.append_assoc t.serial [13] [c],
      List.append_assoc t.port [13] [c]⟩
  · have hcr : crlf [c] = [c] := by simp [crlf,hn]
    rw [if_neg hn,hcr]
    exact ⟨rfl,rfl,rfl,hself,hregs,rfl,rfl⟩

/-- Nothing goes to the ports before that. -/
theorem Screen.moved_ports (s : Screen) (c : UInt8) :
    ((s.place c).wrap).scroll.serial = s.serial ∧ ((s.place c).wrap).scroll.port = s.port := by
  have hplace : (s.place c).serial = s.serial ∧ (s.place c).port = s.port := by
    rw [Screen.place]
    split_ifs <;> exact ⟨rfl,rfl⟩
  have hwrap : ∀ t : Screen,t.wrap.serial = t.serial ∧ t.wrap.port = t.port := by
    intro t
    rw [Screen.wrap]
    split_ifs <;> exact ⟨rfl,rfl⟩
  have hscroll : ∀ t : Screen,t.scroll.serial = t.serial ∧ t.scroll.port = t.port := by
    intro t
    rw [Screen.scroll]
    split_ifs <;> exact ⟨rfl,rfl⟩
  rw [(hscroll _).1,(hscroll _).2,(hwrap _).1,(hwrap _).2]
  exact hplace

/-- An address is beside the screen. -/
def Beside (a : ℕ) : Prop :=
  a < vgaTextMem ∨ vgaTextMem + 2 * (vgaTextWidth * vgaTextHeight) ≤ a

/-- Clearing the screen does, too. -/
theorem Screen.vgaClearScreen_beside (s : Screen) (ha : Beside a) :
    s.vgaClearScreen.mem a = s.mem a := by
  have hmem : s.vgaClearScreen.mem =
      set16 s.mem vgaTextMem vgaAttrib (vgaTextWidth * vgaTextHeight) := by
    rw [Screen.vgaClearScreen,Screen.vgaSetCursorPos_eq]
  rw [hmem,set16_out ha]

/-- A character leaves the memory beside the screen alone. -/
theorem Screen.debugChar_beside (hx : s.vgaCurX < vgaTextWidth) (hy : s.vgaCurY < vgaTextHeight)
    (ha : Beside a) : (s.debugChar c).mem a = s.mem a := by
  have hplace : (s.place c).mem a = s.mem a := by
    rw [Screen.place]
    split_ifs
    · rfl
    · rfl
    · refine patch_out ?_
      simp only [Beside,vgaTextWidth,vgaTextHeight,leBytes_length] at *
      omega
  rw [(s.debugChar_eq c).1,← hplace,← (s.place c).wrap_mem]
  generalize (s.place c).wrap = t
  by_cases hfull : vgaTextHeight ≤ t.vgaCurY
  · rw [Screen.scroll_mem hfull]
    have hrows : ∀ b,a < b ∨ b + 2 * (vgaTextWidth * vgaTextHeight) ≤ a →
        (a < b + 2 * (vgaTextWidth * (vgaTextHeight - 1)) ∨
          b + 2 * (vgaTextWidth * (vgaTextHeight - 1)) + 2 * vgaTextWidth ≤ a) ∧
        (a < b ∨ b + 2 * vgaTextWidth * (vgaTextHeight - 1) ≤ a) := by
      intro b hb
      simp only [vgaTextWidth,vgaTextHeight] at *
      omega
    obtain ⟨hlast,hmoved⟩ := hrows vgaTextMem ha
    rw [set16_out hlast,KernelMemory.move_out hmoved]
  · rw [Screen.scroll,if_neg hfull]

end Outputs

section Steps

variable {p : Page} {s : Screen} {c : UInt8}

/-- Before the screen is moved: the page has changed, and the screen still shows the rows
that it showed before. -/
structure Placed (top : ℕ) (p q : Page) (s t : Screen) : Prop where
  /-- The column is the same, -/
  x : t.vgaCurX = q.x
  /-- and is on the screen. -/
  inside : q.x < vgaTextWidth
  /-- The rows go on together. -/
  y : t.vgaCurY = s.vgaCurY + (q.y - p.y)
  /-- At most one row is begun, from its first column on. -/
  next : q.y = p.y ∨ q.y = p.y + 1 ∧ q.x = 0
  /-- The cells are those of the page. -/
  cell : ∀ row < vgaTextHeight,∀ column < vgaTextWidth,
    t.cell row column = q.cell (top + row) column
  /-- Below the row of the character the page is empty. -/
  below : ∀ row,p.y < row → ∀ column,q.cell row column = vgaAttrib

/-- A character is placed on the page and on the screen alike. -/
theorem Shows.place (h : Shows p s) (c : UInt8) :
    Placed (p.y - (vgaTextHeight - 1)) p (p.put c) s (s.place c).wrap := by
  have hx := h.x
  have hin := h.inside
  have hcell := h.cell
  have hbelow := h.below
  have hwidth : 0 < vgaTextWidth := by decide
  by_cases hn : c = 10
  · have hs : (s.place c).wrap = { s with vgaCurX := 0, vgaCurY := s.vgaCurY + 1 } := by
      rw [Screen.place,if_pos hn,Screen.wrap]
      exact if_neg (not_le.mpr hwidth)
    have hp : p.put c = { p with x := 0, y := p.y + 1 } := if_pos hn
    rw [hs,hp]
    exact ⟨rfl,hwidth,by simp,.inr ⟨rfl,rfl⟩,hcell,hbelow⟩
  · -- The other characters go on in the row, and may fill it.
    have hadvance : ∀ (t : Screen) (q : Page) (x : ℕ),t.vgaCurX = x → t.vgaCurY = s.vgaCurY →
        q.y = p.y → (∀ row < vgaTextHeight,∀ column < vgaTextWidth,
          t.cell row column = q.cell (p.y - (vgaTextHeight - 1) + row) column) →
        (∀ row,p.y < row → ∀ column,q.cell row column = vgaAttrib) →
        Placed (p.y - (vgaTextHeight - 1)) p (q.advance x) s t.wrap := by
      intro t q x htx hty hqy htcell hqbelow
      rw [Page.advance,Screen.wrap,htx]
      by_cases hfull : x < vgaTextWidth
      · rw [if_pos hfull,if_neg (not_le.mpr hfull)]
        exact ⟨htx,hfull,by simp [hty,hqy],.inl hqy,htcell,hqbelow⟩
      · rw [if_neg hfull,if_pos (not_lt.mp hfull)]
        exact ⟨rfl,hwidth,by simp [hty,hqy],.inr ⟨congrArg (· + 1) hqy,rfl⟩,htcell,hqbelow⟩
    by_cases ht : c = 9
    · have hs : s.place c = { s with vgaCurX := 8 * ((s.vgaCurX + 1 + 7) / 8) } := by
        rw [Screen.place,if_neg hn,if_pos ht]
      have hp : p.put c = p.advance (8 * (p.x / 8 + 1)) := by rw [Page.put,if_neg hn,if_pos ht]
      rw [hs,hp]
      exact hadvance _ p _ (by show 8 * ((s.vgaCurX + 1 + 7) / 8) = _; omega) rfl rfl hcell hbelow
    · have hplace : s.place c = { s with
          mem := patch s.mem (vgaTextMem + 2 * (s.vgaCurY * vgaTextWidth + s.vgaCurX))
            (leBytes 2 (vgaAttrib ||| c.toNat))
          vgaCurX := s.vgaCurX + 1 } := by
        rw [Screen.place,if_neg hn,if_neg ht]
      have hput : p.put c = Page.advance { p with cell := fun row column =>
          if row = p.y ∧ column = p.x then vgaAttrib ||| c.toNat else p.cell row column }
            (p.x + 1) := by
        rw [Page.put,if_neg hn,if_neg ht]
      rw [hput]
      refine hadvance _ _ _ (by rw [hplace,← hx]) (by rw [hplace]) rfl ?_ ?_
      · intro row hrow column hcol
        have hpatch := Screen.cell_patch (s := s) (t := s.place c) row (attrib_lt c) hcol
          (hx ▸ hin) (by rw [hplace])
        have hiff : row = s.vgaCurY ∧ column = s.vgaCurX ↔
            p.y - (vgaTextHeight - 1) + row = p.y ∧ column = p.x := by
          rw [h.y,hx]
          omega
        rw [hpatch,hcell row hrow column hcol]
        simp only [hiff]
      · intro row hr column
        exact (if_neg fun heq => hr.ne' heq.1).trans (hbelow row hr column)

/-- A character on the page and on the screen. -/
theorem Shows.debugChar (h : Shows p s) (c : UInt8) : Shows (p.put c) (s.debugChar c) := by
  obtain ⟨hx,hin,hy,hnext,hcell,hbelow⟩ := h.place c
  have hy0 := h.y
  obtain ⟨t,ht⟩ : ∃ t,t = (s.place c).wrap := ⟨_,rfl⟩
  rw [← ht] at hx hy hcell
  have hheight : 0 < vgaTextHeight := by decide
  -- The screen is moved exactly when the page goes on below its last row.
  have hscroll : t.scroll.vgaCurX = (p.put c).x ∧
      t.scroll.vgaCurY = min (p.put c).y (vgaTextHeight - 1) ∧
      ∀ row < vgaTextHeight,∀ column < vgaTextWidth,t.scroll.cell row column =
        (p.put c).cell ((p.put c).y - (vgaTextHeight - 1) + row) column := by
    by_cases hfull : vgaTextHeight ≤ t.vgaCurY
    · have hrows : (p.put c).y = p.y + 1 ∧ (p.put c).x = 0 ∧ vgaTextHeight - 1 ≤ p.y := by omega
      refine ⟨?_,?_,fun row hrow column hcol => ?_⟩
      · rw [Screen.scroll,if_pos hfull,hrows.2.1]
      · rw [Screen.scroll,if_pos hfull]
        show t.vgaCurY - 1 = _
        omega
      · rw [Screen.cell_scroll hrow hcol hfull]
        split_ifs with hlast
        · rw [hcell _ hlast column hcol]
          congr 1
          omega
        · exact (hbelow _ (by omega) column).symm
    · rw [Screen.scroll,if_neg hfull]
      refine ⟨hx,by omega,fun row hrow column hcol => ?_⟩
      rw [hcell row hrow column hcol]
      congr 1
      omega
  obtain ⟨hx',hy',hcell'⟩ := hscroll
  obtain ⟨u,hu⟩ : ∃ u,u = t.scroll := ⟨_,rfl⟩
  obtain ⟨hmem,hux,huy,hhigh,hlow,-,-⟩ := s.debugChar_eq c
  rw [← ht,← hu] at hmem hux huy hhigh hlow
  rw [← hu] at hx' hy' hcell'
  refine ⟨hux.trans hx',hin,huy.trans hy',fun row hrow column hcol => ?_,
    fun row hrow => hbelow row (by omega),?_⟩
  · rw [Screen.cell_congr hmem]
    exact hcell' row hrow column hcol
  · rw [hhigh,hlow,hux,huy]
    simp only [vgaTextWidth,vgaTextHeight] at *
    omega

/-- The screen after it has been cleared. -/
theorem shows_clear (s : Screen) : Shows .empty s.vgaClearScreen := by
  have hattrib : vgaAttrib < 2 ^ 16 := by decide
  rw [Screen.vgaClearScreen,Screen.vgaSetCursorPos_eq]
  refine ⟨rfl,by decide,rfl,fun row hrow column hcol => ?_,fun _ _ _ => rfl,?_⟩
  · refine word_set16 hattrib ?_
    simp only [vgaTextWidth,vgaTextHeight] at *
    omega
  · simp only [Function.update_self]
    rw [Function.update_of_ne (by decide),Function.update_self]
    rfl

/-- A text on the page and on the screen, and what it does beside the screen. -/
theorem Shows.foldl (h : Shows p s) (text : List UInt8) :
    let t := text.foldl Screen.debugChar s
    Shows (text.foldl Page.put p) t ∧ (∀ a,Beside a → t.mem a = s.mem a) ∧
      t.serial = s.serial ++ crlf text ∧ t.port = s.port ++ crlf text := by
  induction text using List.reverseRecOn with
  | nil => exact ⟨h,fun _ _ => rfl,(List.append_nil _).symm,(List.append_nil _).symm⟩
  | append_singleton text c ih =>
    intro t
    obtain ⟨hshows,hbeside,hserial,hport⟩ := ih
    obtain ⟨u,hu⟩ : ∃ u,u = text.foldl Screen.debugChar s := ⟨_,rfl⟩
    have ht : t = u.debugChar c := by
      rw [hu]
      exact List.foldl_append
    have hput : (text ++ [c]).foldl Page.put p = (text.foldl Page.put p).put c :=
      List.foldl_append
    rw [← hu] at hshows hbeside hserial hport
    obtain ⟨-,-,-,-,-,hsend,hout⟩ := u.debugChar_eq c
    rw [ht,hput,hsend,hout,(u.moved_ports c).1,(u.moved_ports c).2,hserial,hport,crlf_append]
    have hy : u.vgaCurY < vgaTextHeight := by
      rw [hshows.y]
      simp only [vgaTextHeight]
      omega
    refine ⟨hshows.debugChar c,fun a ha => ?_,List.append_assoc _ _ _,List.append_assoc _ _ _⟩
    rw [Screen.debugChar_beside (hshows.x ▸ hshows.inside) hy ha]
    exact hbeside a ha

end Steps

/-- After any calls of debugWrite on a screen that was cleared: the screen shows the last rows
of the page that the text of all calls fills, the cursor stands on the screen where the next
character goes, no byte beside the screen has changed, and both ports have got the text with a
carriage return before every line feed. -/
theorem debugWrite_shows (s : Screen) (buffers : List (List UInt8)) :
    let t := buffers.foldl (fun s buffer => (s.debugWrite buffer).2) s.vgaClearScreen
    Shows (Page.ofText buffers.flatten) t ∧ (∀ a,Beside a → t.mem a = s.mem a) ∧
      t.serial = s.serial ++ crlf buffers.flatten ∧ t.port = s.port ++ crlf buffers.flatten := by
  have hrun : buffers.foldl (fun s buffer => (s.debugWrite buffer).2) s.vgaClearScreen =
      buffers.flatten.foldl Screen.debugChar s.vgaClearScreen := by
    rw [List.foldl_flatten]
    rfl
  obtain ⟨hshows,hbeside,hserial,hport⟩ := (shows_clear s).foldl buffers.flatten
  intro t
  have ht : t = buffers.flatten.foldl Screen.debugChar s.vgaClearScreen := hrun
  rw [ht]
  have hclear : s.vgaClearScreen.serial = s.serial ∧ s.vgaClearScreen.port = s.port := by
    rw [Screen.vgaClearScreen,Screen.vgaSetCursorPos_eq]
    exact ⟨rfl,rfl⟩
  rw [hserial,hport,hclear.1,hclear.2]
  exact ⟨hshows,fun a ha => (hbeside a ha).trans (s.vgaClearScreen_beside ha),rfl,rfl⟩

end WootOs.DebugScreen
