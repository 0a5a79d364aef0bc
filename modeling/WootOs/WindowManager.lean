import WootOs.MachineInt

/-!
# The window manager

Clients ask the window manager for windows, which lie in a list from bottom to
top. The main loop takes messages as long as there are some and collects one
rectangle that has to be drawn anew; then it draws the parts of all windows
inside that rectangle into a back buffer and copies the rectangle to the
screen. Coordinates are 32-bit integers, and each operation on them wraps.

A pixel map is given by its size, its format and the value stored at each
place. The addresses of pixels matter only for the direction in which blits
run. MSG_QUIT ends the loop and is not among the messages.
-/

namespace WootOs.WindowManager

open MachineInt

/-- Arithmetic on the int type. -/
def int (x : ℤ) : ℤ := signed 32 x

/-- A rectangle. -/
structure Rectangle where
  /-- Left edge. -/
  x : ℤ
  /-- Upper edge. -/
  y : ℤ
  /-- Columns. -/
  width : ℤ
  /-- Rows. -/
  height : ℤ
  deriving DecidableEq

/-- rcRectangleEmpty. -/
def rcRectangleEmpty : Rectangle := ⟨0,0,0,0⟩

/-- rcIsEmpty. -/
def rcIsEmpty (r : Rectangle) : Prop := r.width ≤ 0 ∨ r.height ≤ 0

instance (r : Rectangle) : Decidable (rcIsEmpty r) := inferInstanceAs (Decidable (_ ∨ _))

/-- rcAdd. -/
def rcAdd (a b : Rectangle) : Rectangle :=
  if rcIsEmpty b then a
  else if rcIsEmpty a then b
  else
    let minx := min a.x b.x
    let miny := min a.y b.y
    let maxx := max (int (a.x + a.width)) (int (b.x + b.width))
    let maxy := max (int (a.y + a.height)) (int (b.y + b.height))
    ⟨minx,miny,int (maxx - minx),int (maxy - miny)⟩

/-- rcIntersect. -/
def rcIntersect (a b : Rectangle) : Rectangle :=
  let x := max a.x b.x
  let x2 := min (int (a.x + a.width)) (int (b.x + b.width))
  let y := max a.y b.y
  let y2 := min (int (a.y + a.height)) (int (b.y + b.height))
  let w := int (x2 - x)
  let h := int (y2 - y)
  if w ≤ 0 ∨ h ≤ 0 then rcRectangleEmpty else ⟨x,y,w,h⟩

/-- How colours are stored. -/
structure PixelFormat where
  /-- Bits of a pixel. -/
  bpp : ℕ
  /-- Bits of the alpha channel. -/
  alphaBits : ℕ
  /-- Bits of the red channel. -/
  redBits : ℕ
  /-- Bits of the green channel. -/
  greenBits : ℕ
  /-- Bits of the blue channel. -/
  blueBits : ℕ
  /-- Where the alpha channel lies. -/
  alphaShift : ℕ
  /-- Where the red channel lies. -/
  redShift : ℕ
  /-- Where the green channel lies. -/
  greenShift : ℕ
  /-- Where the blue channel lies. -/
  blueShift : ℕ
  deriving DecidableEq

/-- pmFormatA8R8G8B8. -/
def pmFormatA8R8G8B8 : PixelFormat := ⟨32,8,8,8,8,24,16,8,0⟩

/-- A colour of four bytes. -/
structure Color where
  /-- Alpha. -/
  a : ℕ
  /-- Red. -/
  r : ℕ
  /-- Green. -/
  g : ℕ
  /-- Blue. -/
  b : ℕ

/-- pmColorBlack. -/
def pmColorBlack : Color := ⟨255,0,0,0⟩

/-- pmColorToValue. -/
def pmColorToValue (f : PixelFormat) (c : Color) : ℕ :=
  ((c.a >>> (8 - f.alphaBits)) <<< f.alphaShift ||| (c.r >>> (8 - f.redBits)) <<< f.redShift |||
    (c.g >>> (8 - f.greenBits)) <<< f.greenShift |||
      (c.b >>> (8 - f.blueBits)) <<< f.blueShift) % 2 ^ 32

/-- pmColorFromValue. -/
def pmColorFromValue (f : PixelFormat) (value : ℕ) : Color where
  a := ((value >>> f.alphaShift) <<< (8 - f.alphaBits)) % 256
  r := ((value >>> f.redShift) <<< (8 - f.redBits)) % 256
  g := ((value >>> f.greenShift) <<< (8 - f.greenBits)) % 256
  b := ((value >>> f.blueShift) <<< (8 - f.blueBits)) % 256

/-- pmBlendPixel. -/
def pmBlendPixel (a b : Color) : Color :=
  let alpha := b.a + 1
  let inverse := 256 - b.a
  { a := a.a
    r := (alpha * b.r + inverse * a.r) / 256 % 256
    g := (alpha * b.g + inverse * a.g) / 256 % 256
    b := (alpha * b.b + inverse * a.b) / 256 % 256 }

/-- A pixel map. -/
structure PixMap where
  /-- Columns. -/
  width : ℤ
  /-- Rows. -/
  height : ℤ
  /-- How colours are stored. -/
  format : PixelFormat
  /-- The colours of 8-bit pixels. -/
  palette : ℕ → Color
  /-- Address of the pixels. -/
  address : ℕ
  /-- The value stored at a column and a row. -/
  pixels : ℤ → ℤ → ℕ

/-- The square of a difference of bytes, in 32 bits. -/
def distance (x y : ℕ) : ℕ := (((x : ℤ) - y) * ((x : ℤ) - y) % 2 ^ 32).toNat

/-- pmIndexFromColor: the first colour of the palette that is nearest. -/
def pmIndexFromColor (pm : PixMap) (c : Color) : ℕ :=
  ((List.range (2 ^ pm.format.bpp)).foldl (fun (best : ℕ × ℕ) i =>
    let p := pm.palette i
    let e := (distance p.r c.r + distance p.g c.g + distance p.b c.b) % 2 ^ 32
    if e < best.1 then (e,i) else best) (2 ^ 32 - 1,0)).2

/-- What pmSetPixel stores over a value. -/
def stored (pm : PixMap) (c : Color) (old : ℕ) : ℕ :=
  let col := pmColorToValue pm.format c
  if pm.format.bpp = 8 then pmIndexFromColor pm c
  else if pm.format.bpp = 32 then col
  else if pm.format.bpp = 24 then col % 2 ^ 24
  else if pm.format.bpp = 16 ∨ pm.format.bpp = 15 then col % 2 ^ 16
  else old

/-- The colour that pmGetPixel reads from a value. -/
def colorOf (pm : PixMap) (value : ℕ) : Color :=
  if pm.format.bpp = 32 then pmColorFromValue pm.format value
  else if pm.format.bpp = 24 then pmColorFromValue pm.format (value % 2 ^ 24)
  else if pm.format.bpp = 16 ∨ pm.format.bpp = 15 then pmColorFromValue pm.format value
  else if pm.format.bpp = 8 then pm.palette value
  else pmColorBlack

/-- A coordinate as pmGetPixel wraps it. -/
def wrapped (x size : ℤ) : ℤ := if x < 0 then size - (-x) % size else x % size

/-- pmGetPixel. -/
def pmGetPixel (pm : PixMap) (x y : ℤ) : Color :=
  colorOf pm (pm.pixels (wrapped x pm.width) (wrapped y pm.height))

/-- One direction of a blit, clipped to both pixel maps. -/
structure Span where
  /-- First coordinate of the destination. -/
  x : ℤ
  /-- End in the destination. -/
  x2 : ℤ
  /-- First coordinate of the source. -/
  sx : ℤ
  /-- End in the source. -/
  sx2 : ℤ

/-- The clipping of blits, which is the same for columns and rows. A length
that has become negative is taken for the whole source. -/
def span (dstSize srcSize sx x w : ℤ) : Span :=
  let (sx,x,w) := if x < 0 then (int (sx - x),0,int (w + x)) else (sx,x,w)
  let (sx,x,w) := if sx < 0 then (0,int (x - sx),int (w + sx)) else (sx,x,w)
  let w := if w < 0 then srcSize else w
  ⟨x,min dstSize (int (x + w)),sx,min srcSize (int (sx + w))⟩

/-- Whether a coordinate of the destination is drawn. The loops that run
backward do not look at the end in the source. -/
def Span.Hits (s : Span) (bounded : Bool) (c : ℤ) : Prop :=
  s.x ≤ c ∧ c < s.x2 ∧ (bounded = true → s.sx + (c - s.x) < s.sx2)

instance (s : Span) (bounded : Bool) (c : ℤ) : Decidable (s.Hits bounded c) :=
  inferInstanceAs (Decidable (_ ∧ _ ∧ (_ → _)))

/-- What all blits do: a new value for each pixel hit, from the old value, its
place and the place in the source. -/
def blit (bounded : Bool) (dst src : PixMap) (sx sy x y w h : ℤ)
    (value : ℕ → ℤ → ℤ → ℤ → ℤ → ℕ) : PixMap :=
  let s := span dst.width src.width sx x w
  let t := span dst.height src.height sy y h
  if dst.width ≤ s.x ∨ dst.height ≤ t.x then dst
  else if s.x2 ≤ 0 ∨ t.x2 ≤ 0 ∨ src.width ≤ s.sx ∨ src.height ≤ t.sx then dst
  else
    { dst with pixels := fun c d =>
        if s.Hits bounded c ∧ t.Hits bounded d then
          value (dst.pixels c d) c d (s.sx + (c - s.x)) (t.sx + (d - t.x))
        else dst.pixels c d }

/-- The short cut from 8 to 32 bits takes the pixel of the source from the place
in the destination. -/
def expanded (dst src : PixMap) (c d : ℤ) : ℕ :=
  let col := src.palette (src.pixels c d)
  (col.r <<< dst.format.redShift ||| col.g <<< dst.format.greenShift |||
    col.b <<< dst.format.blueShift |||
      (if dst.format.alphaBits ≠ 0 then 255 else 0) <<< dst.format.alphaShift) % 2 ^ 32

/-- pmBlit. -/
def pmBlit (dst src : PixMap) (sx sy x y w h : ℤ) : PixMap :=
  if dst.format = src.format ∧ 8 ≤ dst.format.bpp then
    blit true dst src sx sy x y w h fun _ _ _ sc sd => src.pixels sc sd
  else if src.format.bpp = 8 ∧ dst.format.bpp = 32 then
    blit (dst.address < src.address) dst src sx sy x y w h fun _ c d _ _ => expanded dst src c d
  else
    blit (dst.address < src.address) dst src sx sy x y w h fun old _ _ sc sd =>
      stored dst (pmGetPixel src sc sd) old

/-- pmAlphaBlit. -/
def pmAlphaBlit (dst src : PixMap) (sx sy x y w h : ℤ) : PixMap :=
  if src.format.alphaBits = 0 then pmBlit dst src sx sy x y w h
  else
    blit (dst.address < src.address) dst src sx sy x y w h fun old c d sc sd =>
      stored dst (pmBlendPixel (pmGetPixel dst c d) (pmGetPixel src sc sd)) old

/-- A window. -/
structure Window where
  /-- The number of the window, from a counter. -/
  id : ℕ
  /-- Where it is. -/
  rect : Rectangle
  /-- WM_CWF_USEALPHA. -/
  useAlpha : Bool
  /-- Its pixels, unless the constructor could not get them. -/
  pixMap : Option PixMap

/-- Window::SetPosition. -/
def Window.setPosition (wnd : Window) (x y : ℤ) : Window :=
  { wnd with rect := ⟨x,y,wnd.rect.width,wnd.rect.height⟩ }

/-- A client paints its window. -/
def Window.repaint (wnd : Window) (pixels : ℤ → ℤ → ℕ) : Window :=
  { wnd with pixMap := wnd.pixMap.map fun pm => { pm with pixels := pixels } }

/-- The state of the window manager. -/
structure Machine where
  /-- Columns of the screen as asked for. -/
  screenWidth : ℤ
  /-- Rows of the screen as asked for. -/
  screenHeight : ℤ
  /-- Column of the cursor that points. -/
  cursorHotX : ℤ
  /-- Row of the cursor that points. -/
  cursorHotY : ℤ
  /-- The screen. -/
  fbPixMap : PixMap
  /-- The back buffer. -/
  bbPixMap : PixMap
  /-- The windows from bottom to top. -/
  windows : List Window
  /-- The window of the mouse cursor. -/
  mouseWnd : Option ℕ
  /-- Column of the mouse. -/
  mouseX : ℤ
  /-- Row of the mouse. -/
  mouseY : ℤ
  /-- The last number of a window. -/
  ids : ℕ

/-- What the main loop receives. Clients paint before they ask for a redraw. -/
inductive Message where
  /-- A mouse event with how far it moved. -/
  | mouse (deltaX deltaY : BitVec 32)
  /-- wmCreateWindow, and the pixels that the constructor gets. -/
  | createWindow (x y w h : BitVec 32) (useAlpha : Bool) (pixels : Option (ℕ × (ℤ → ℤ → ℕ)))
  /-- wmDeleteWindow. -/
  | deleteWindow (id : ℕ)
  /-- wmRedrawWindow, after the client has painted. -/
  | redrawWindow (id : ℕ) (pixels : ℤ → ℤ → ℕ)
  /-- Any other message. -/
  | other

namespace Machine

variable (m : Machine)

/-- Change the first window of a number. -/
def modifyFirst (id : ℕ) (change : Window → Window) : List Window → List Window
  | [] => []
  | wnd :: rest => if wnd.id = id then change wnd :: rest else wnd :: modifyFirst id change rest

/-- Change the window of a number. -/
def modifyWindow (id : ℕ) (change : Window → Window) : Machine :=
  { m with windows := modifyFirst id change m.windows }

/-- getWindowById. -/
def getWindowById (id : ℕ) : Option Window := m.windows.find? (·.id = id)

/-- moveWindow of the mouse window; there is no result when it has been deleted. -/
def moveWindow (dirtyRect : Rectangle) (id : ℕ) (x y : ℤ) : Option (Machine × Rectangle) :=
  (m.getWindowById id).map fun window =>
    (m.modifyWindow id (·.setPosition x y),
      rcAdd (rcAdd dirtyRect window.rect) (window.setPosition x y).rect)

/-- A coordinate of the mouse is kept on the screen. -/
def clampMouse (position size : ℤ) : ℤ :=
  if position < 0 then 0 else if size ≤ position then size - 1 else position

/-- The mouse moves. -/
def moveMouse (deltaX deltaY : BitVec 32) : Machine :=
  { m with
    mouseX := clampMouse (int (m.mouseX + deltaX.toInt)) m.screenWidth
    mouseY := clampMouse (int (m.mouseY + deltaY.toInt)) m.screenHeight }

/-- Left edge of the mouse window that belongs to the mouse. -/
def cursorX : ℤ := int (m.mouseX - m.cursorHotX)

/-- Upper edge of the mouse window that belongs to the mouse. -/
def cursorY : ℤ := int (m.mouseY - m.cursorHotY)

/-- The window that wmCreateWindow makes. -/
def newWindow (x y w h : BitVec 32) (useAlpha : Bool) (pixels : Option (ℕ × (ℤ → ℤ → ℕ))) :
    Window where
  id := m.ids + 1
  rect := ⟨x.toInt,y.toInt,w.toInt,h.toInt⟩
  useAlpha := useAlpha
  pixMap :=
    if w.toInt < 1 ∨ h.toInt < 1 then none
    else pixels.map fun p =>
      { width := w.toInt,height := h.toInt,format := m.fbPixMap.format
        palette := m.fbPixMap.palette,address := p.1,pixels := p.2 }

/-- A new window goes below the mouse window, or on top. -/
def insertWindow (window : Window) : Machine :=
  let i := m.windows.findIdx fun other => some other.id = m.mouseWnd
  { m with windows := m.windows.take i ++ window :: m.windows.drop i,ids := m.ids + 1 }

/-- One message of the main loop. -/
def processMessage (dirtyRect : Rectangle) : Message → Option (Machine × Rectangle)
  | .mouse deltaX deltaY =>
    let m := m.moveMouse deltaX deltaY
    match m.mouseWnd with
    | some id => m.moveWindow dirtyRect id m.cursorX m.cursorY
    | none => some (m,dirtyRect)
  | .createWindow x y w h useAlpha pixels =>
    let wnd := m.newWindow x y w h useAlpha pixels
    some (m.insertWindow wnd,rcAdd dirtyRect wnd.rect)
  | .deleteWindow id => some ({ m with windows := m.windows.eraseP (·.id = id) },dirtyRect)
  | .redrawWindow id pixels =>
    let m := m.modifyWindow id (·.repaint pixels)
    let rect := ((m.getWindowById id).map Window.rect).getD rcRectangleEmpty
    some (m,rcAdd dirtyRect rect)
  | .other => some (m,dirtyRect)

/-- One window is drawn into the back buffer; there is no result without its pixels. -/
def drawWindow (rect : Rectangle) (bb : PixMap) (wnd : Window) : Option PixMap :=
  let rc := wnd.rect
  let is := rcIntersect rect rc
  if rcIsEmpty is then some bb
  else
    wnd.pixMap.map fun pm =>
      let sx := int (is.x - rc.x)
      let sy := int (is.y - rc.y)
      if wnd.useAlpha then pmAlphaBlit bb pm sx sy is.x is.y is.width is.height
      else pmBlit bb pm sx sy is.x is.y is.width is.height

/-- updateRect. -/
def updateRect (rect : Rectangle) : Option Machine := do
  let bb ← m.windows.foldlM (drawWindow rect) m.bbPixMap
  some
    { m with
      bbPixMap := bb
      fbPixMap := pmBlit m.fbPixMap bb rect.x rect.y rect.x rect.y rect.width rect.height }

/-- The messages of a batch, one after the other. -/
def collect (messages : List Message) : Option (Machine × Rectangle) :=
  messages.foldlM (fun (s : Machine × Rectangle) msg => s.1.processMessage s.2 msg)
    (m,rcRectangleEmpty)

/-- One round of the main loop. -/
def processBatch (messages : List Message) : Option Machine := do
  let (m,dirtyRect) ← m.collect messages
  if rcIsEmpty dirtyRect then some m else m.updateRect dirtyRect

end Machine

/-- A cursor as pmLoadCUR returns it. -/
structure Cursor where
  /-- Columns. -/
  width : ℤ
  /-- Rows. -/
  height : ℤ
  /-- Column that points. -/
  hotX : ℤ
  /-- Row that points. -/
  hotY : ℤ
  /-- Address of the pixels. -/
  address : ℕ
  /-- The pixels. -/
  pixels : ℤ → ℤ → ℕ

/-- The pixel map of a cursor. -/
def Cursor.pixMap (cursor : Cursor) : PixMap :=
  ⟨cursor.width,cursor.height,pmFormatA8R8G8B8,fun _ => pmColorBlack,cursor.address,cursor.pixels⟩

/-- The mouse window, with pixels at an address. -/
def mouseWindow (mouseX mouseY : ℤ) (address : ℕ) (cursor : Cursor) : Window where
  id := 2
  rect := ⟨int (mouseX - cursor.hotX),int (mouseY - cursor.hotY),cursor.width,cursor.height⟩
  useAlpha := true
  pixMap := some (pmBlit { cursor.pixMap with address := address,pixels := fun _ _ => 0 }
    cursor.pixMap 0 0 0 0 (-1) (-1))

/-- The desktop window, with pixels at an address. -/
def desktopWindow (fb : PixMap) (address : ℕ) (pixels : ℤ → ℤ → ℕ) : Window where
  id := 1
  rect := ⟨0,0,fb.width,fb.height⟩
  useAlpha := false
  pixMap := some { fb with address := address,pixels := pixels }

/-- The windows that the main function makes where the logo of the desktop can be loaded. -/
def initial (screenWidth screenHeight : ℤ) (fb : PixMap) (backBuffer desktop mouse : ℕ)
    (desktopPixels : ℤ → ℤ → ℕ) (cursor : Option Cursor) : Machine :=
  let mouseX := screenWidth.tdiv 2
  let mouseY := screenHeight.tdiv 2
  let mouseWnd := cursor.map (mouseWindow mouseX mouseY mouse)
  { screenWidth := screenWidth,screenHeight := screenHeight
    cursorHotX := (cursor.map Cursor.hotX).getD 0,cursorHotY := (cursor.map Cursor.hotY).getD 0
    fbPixMap := fb
    bbPixMap := pmBlit { fb with address := backBuffer,pixels := fun _ _ => 0 } fb 0 0 0 0
      fb.width fb.height
    windows := desktopWindow fb desktop desktopPixels :: mouseWnd.toList
    mouseWnd := mouseWnd.map Window.id
    mouseX := mouseX,mouseY := mouseY,ids := if mouseWnd.isSome then 2 else 1 }

/-- The main function up to its loop. -/
def start (screenWidth screenHeight : ℤ) (fb : PixMap) (backBuffer desktop mouse : ℕ)
    (desktopPixels : ℤ → ℤ → ℕ) (cursor : Option Cursor) : Option Machine :=
  (initial screenWidth screenHeight fb backBuffer desktop mouse desktopPixels cursor).updateRect
    ⟨0,0,fb.width,fb.height⟩

end WootOs.WindowManager
