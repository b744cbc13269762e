import CobjOs.Fs.Transfer
import CobjOs.Misc.MemOps

/-!
# The console

`src/fb/fbcon.c` draws characters into the frame buffer, through `fb_put` of `src/fb/fb.h` and with
the font that `font_load_psf` of `src/fb/font.c` has found in a file.  `fbcon_clear` and `fb_clear`
are not here.

Memory is threaded through the functions, because drawing reads the font while it writes pixels, and
the accesses are recorded in order (`Access`).  Coordinates are 64-bit numbers and wrap around; the
numbers of a font have 32 bits.
-/

namespace CobjOs

/-- `font_t`. -/
structure Font where
  width : ℕ
  height : ℕ
  glyphSize : ℕ
  numGlyphs : ℕ
  glyphs : ℕ
  deriving DecidableEq, Repr

/-- `PSF1_MAGIC` and `PSF2_MAGIC`. -/
def psf1Magic : ℕ := 0x0436
def psf2Magic : ℕ := 0x864ab572

/-- `font_load_psf` of the file at `data`; `none` for `-1`. -/
def fontLoadPsf (mem : Mem) (data size : ℕ) : Option Font :=
  if 32 ≤ size ∧ mem.readNat 4 data = psf2Magic then
    some
      { width := mem.readNat 4 (data + 28)
        height := mem.readNat 4 (data + 24)
        glyphSize := mem.readNat 4 (data + 20)
        numGlyphs := mem.readNat 4 (data + 16)
        glyphs := data + mem.readNat 4 (data + 8) }
  else if 4 ≤ size ∧ mem.readNat 2 data = psf1Magic then
    some
      { width := 8
        height := mem.readNat 1 (data + 3)
        glyphSize := mem.readNat 1 (data + 3)
        numGlyphs := if mem.readNat 1 (data + 2) % 2 = 1 then 512 else 256
        glyphs := data + 4 }
  else none

/-- What the console does to memory. -/
inductive Access
  /-- A byte of the font is read. -/
  | glyph (addr : ℕ)
  /-- `fb_put(x, y, color)`. -/
  | put (x y : ℕ) (color : UInt32)
  /-- `fbcon_scroll()`. -/
  | scroll
  deriving DecidableEq, Repr

/-- Memory, and the accesses so far. -/
structure Screen where
  mem : Mem
  log : List Access

/-- The frame buffer, the font and the variables of `fbcon.c`. -/
structure Console where
  fb : Framebuffer
  font : Font
  bgColor : UInt32
  fgColor : UInt32
  cx : ℕ
  cy : ℕ

/-- `fb_put`. -/
def Framebuffer.put (fb : Framebuffer) (x y : ℕ) (color : UInt32) (s : Screen) : Screen :=
  let pixPerRow := fb.pitch / (fb.bpp / 8)
  { mem := s.mem.writeNat 4 (u64 (fb.address + 4 * u64 (y * pixPerRow + x))) color.toNat
    log := s.log ++ [.put x y color] }

namespace Console

variable (con : Console)

/-- The two loops over the cell at the cursor, with what is done for every row and column. -/
def forCell (draw : ℕ → ℕ → Screen → Screen) (s : Screen) : Screen :=
  (List.range con.font.height).foldl
    (fun s row => (List.range con.font.width).foldl (fun s col => draw row col s) s) s

/-- `fb_put` at a row and column of the cell. -/
def putCell (row col : ℕ) (color : UInt32) (s : Screen) : Screen :=
  let ox := u64 (con.cx * con.font.width)
  let oy := u64 (con.cy * con.font.height)
  con.fb.put (u64 (ox + col)) (u64 (oy + row)) color s

/-- `fbcon_clear_cursor`. -/
def clearCursor (s : Screen) : Screen :=
  con.forCell (fun row col => con.putCell row col con.bgColor) s

/-- `fbcon_draw_cursor`. -/
def drawCursor (s : Screen) : Screen :=
  con.forCell (fun row col => con.putCell row col con.fgColor) s

/-- `fbcon_scroll`. -/
def scroll (s : Screen) : Screen :=
  let rowBytes := u64 (con.fb.pitch * con.font.height)
  let totalBytes := u64 (con.fb.pitch * con.fb.height)
  let rest := u64 (totalBytes + (2 ^ 64 - rowBytes))
  let mem := s.mem.memmove (UInt64.ofNat con.fb.address)
    (UInt64.ofNat (con.fb.address + rowBytes)) rest
  let bottom := con.fb.address + rest
  { mem := (List.range (rowBytes / 4)).foldl
      (fun mem i => mem.writeNat 4 (u64 (bottom + 4 * i)) con.bgColor.toNat) mem
    log := s.log ++ [.scroll] }

/-- `fbcon_newline`. -/
def newline (s : Screen) : Console × Screen :=
  let con := { con with cx := 0, cy := u64 (con.cy + 1) }
  if con.fb.height ≤ u64 (con.cy * con.font.height) then
    ({ con with cy := u64 (con.cy + u64Max) }, con.scroll s)
  else (con, s)

/-- The glyph of a character: the first one, if the font has no other. -/
def glyphIndex (font : Font) (c : UInt8) : ℕ := if font.numGlyphs ≤ c.toNat then 0 else c.toNat

/-- `bytes_per_row`; the sum has 32 bits. -/
def bytesPerRow (font : Font) : ℕ := (font.width + 7) % 2 ^ 32 / 8

/-- The address of `row_data[col / 8]`. -/
def glyphByte (font : Font) (c : UInt8) (row col : ℕ) : ℕ :=
  font.glyphs + glyphIndex font c * font.glyphSize + row * bytesPerRow font + col / 8

/-- A turn of the loops that draw the glyph. -/
def drawPixel (c : UInt8) (row col : ℕ) (s : Screen) : Screen :=
  let addr := glyphByte con.font c row col
  let bit := s.mem addr &&& (0x80 >>> UInt8.ofNat (col % 8))
  con.putCell row col (if bit ≠ 0 then con.fgColor else con.bgColor)
    { s with log := s.log ++ [.glyph addr] }

/-- `fbcon_putchar`. -/
def putchar (c : UInt8) (s : Screen) : Console × Screen :=
  let s := con.clearCursor s
  if c = 10 then
    let (con, s) := con.newline s
    (con, con.drawCursor s)
  else if c = 13 then ({ con with cx := 0 }, s)
  else if c = 8 then
    if 0 < con.cx then
      let con := { con with cx := con.cx - 1 }
      (con, con.drawCursor (con.clearCursor s))
    else if 0 < con.cy then
      let con := { con with
        cy := con.cy - 1, cx := u64 (con.fb.width / con.font.width + u64Max) }
      (con, con.drawCursor (con.clearCursor s))
    else (con, s)
  else
    let s := con.forCell (con.drawPixel c) s
    let con := { con with cx := u64 (con.cx + 1) }
    let (con, s) := if con.fb.width ≤ u64 (con.cx * con.font.width) then con.newline s else (con, s)
    (con, con.drawCursor s)

/-- `fbcon_write`: the characters of a string one after the other. -/
def write (con : Console) (str : List UInt8) (s : Screen) : Console × Screen :=
  str.foldl (fun r c => r.1.putchar c r.2) (con, s)

end Console

end CobjOs
