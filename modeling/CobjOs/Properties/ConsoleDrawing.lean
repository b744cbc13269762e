import CobjOs.Devices.Console
import CobjOs.Framework.Trace

/-!
# Where the console draws, and what it reads

Drawing a character records its accesses: pixels in the cell the cursor leaves and in the one it
comes to, the bytes of one glyph, and a scroll (`putchar_adds`).

The tests that wrap and scroll look at the upper left corner of a cell.  A cell that is only partly
on the screen passes them, so the console stays on the screen exactly if cells fill it.  The loader
of fonts compares nothing in the header with the size of the file, so the glyphs are read inside the
file exactly if the last glyph that is ever drawn ends there.
-/

namespace CobjOs

open List

namespace Console

/-! ## The accesses of a character -/

/-- A pixel of the cell at the cursor. -/
def InCell (con : Console) (x y : ℕ) : Prop :=
  ∃ row < con.font.height, ∃ col < con.font.width,
    x = u64 (u64 (con.cx * con.font.width) + col) ∧ y = u64 (u64 (con.cy * con.font.height) + row)

/-- What `fbcon_putchar` may access when the cursor goes from that of `con` to that of `con'`. -/
inductive Touches (con con' : Console) (c : UInt8) : Access → Prop
  | put {x y : ℕ} {color : UInt32} : con.InCell x y ∨ con'.InCell x y →
      Touches con con' c (.put x y color)
  | glyph {row col : ℕ} : c ≠ 10 ∧ c ≠ 13 ∧ c ≠ 8 → row < con.font.height →
      col < con.font.width → Touches con con' c (.glyph (glyphByte con.font c row col))
  | scroll : Touches con con' c .scroll

variable {con con' : Console} {c : UInt8} {s : Screen} {A : Access → Prop} {W a k n w x y : ℕ}

lemma forCell_adds {draw : ℕ → ℕ → Screen → Screen}
    (hdraw : ∀ row < con.font.height, ∀ col < con.font.width, ∀ s,
      Adds Screen.log A s (draw row col s)) (s : Screen) :
    Adds Screen.log A s (con.forCell draw s) :=
  Adds.foldl (fun row hrow s => Adds.foldl (fun col hcol s =>
    hdraw row (mem_range.1 hrow) col (mem_range.1 hcol) s) s) s

lemma forCell_reaches {R : Access → Prop} {draw : ℕ → ℕ → Screen → Screen}
    (hdraw : ∀ row < con.font.height, ∀ col < con.font.width, ∀ s,
      Adds Screen.log A s (draw row col s)) {row col : ℕ} (hrow : row < con.font.height)
    (hcol : col < con.font.width) (hR : ∀ s, ∃ e ∈ (draw row col s).log, R e) (s : Screen) :
    ∃ e ∈ (con.forCell draw s).log, R e := by
  refine Adds.foldl_reaches (A := A) ?_ (mem_range.2 hrow) (fun s => ?_) s
  · exact fun row hrow s => Adds.foldl (fun col hcol s =>
      hdraw row (mem_range.1 hrow) col (mem_range.1 hcol) s) s
  · exact Adds.foldl_reaches (A := A) (fun col hcol s =>
      hdraw row hrow col (mem_range.1 hcol) s) (mem_range.2 hcol) hR s

/-- Filling a cell. -/
lemma putCell_adds (hA : ∀ x y color, con.InCell x y → A (.put x y color))
    (color : UInt32) : ∀ row < con.font.height, ∀ col < con.font.width, ∀ s,
      Adds Screen.log A s (con.putCell row col color s) := fun row hrow col hcol _ =>
  Adds.of_append rfl (hA _ _ color ⟨row, hrow, col, hcol, rfl, rfl⟩)

lemma drawPixel_adds (hc : c ≠ 10 ∧ c ≠ 13 ∧ c ≠ 8) :
    ∀ row < con.font.height, ∀ col < con.font.width, ∀ s,
      Adds Screen.log (con.Touches con' c) s (con.drawPixel c row col s) := by
  intro row hrow col hcol s
  have hread : Adds Screen.log (con.Touches con' c) s
      { s with log := s.log ++ [.glyph (glyphByte con.font c row col)] } :=
    Adds.of_append rfl (.glyph hc hrow hcol)
  exact hread.trans (putCell_adds (fun _ _ _ h => .put (.inl h)) _ row hrow col hcol _)

lemma newline_adds (con : Console) (s : Screen) :
    Adds Screen.log (· = .scroll) s (con.newline s).2 := by
  unfold newline
  dsimp only
  split_ifs
  · exact Adds.of_append rfl rfl
  · exact .refl s

lemma drawCursor_adds (hA : ∀ x y color, con.InCell x y → A (.put x y color))
    (s : Screen) : Adds Screen.log A s (con.drawCursor s) :=
  forCell_adds (putCell_adds hA _) s

lemma clearCursor_adds (hA : ∀ x y color, con.InCell x y → A (.put x y color))
    (s : Screen) : Adds Screen.log A s (con.clearCursor s) :=
  forCell_adds (putCell_adds hA _) s

/-- The cursor behind a character. -/
def advanced (con : Console) (s : Screen) : Console × Screen :=
  let con := { con with cx := u64 (con.cx + 1) }
  if con.fb.width ≤ u64 (con.cx * con.font.width) then con.newline s else (con, s)

lemma putchar_print (hc : c ≠ 10 ∧ c ≠ 13 ∧ c ≠ 8) : con.putchar c s =
    ((con.advanced (con.forCell (con.drawPixel c) (con.clearCursor s))).1,
      (con.advanced (con.forCell (con.drawPixel c) (con.clearCursor s))).1.drawCursor
        (con.advanced (con.forCell (con.drawPixel c) (con.clearCursor s))).2) := by
  simp only [putchar, hc.1, hc.2.1, hc.2.2, if_false]
  rfl

lemma advanced_adds (con : Console) (s : Screen) :
    Adds Screen.log (· = .scroll) s (con.advanced s).2 := by
  unfold advanced
  dsimp only
  split_ifs
  · exact newline_adds _ s
  · exact .refl s

lemma putchar_adds (con : Console) (c : UInt8) (s : Screen) :
    Adds Screen.log (con.Touches (con.putchar c s).1 c) s (con.putchar c s).2 := by
  have hclear : ∀ con', Adds Screen.log (con.Touches con' c) s (con.clearCursor s) := fun con' =>
    clearCursor_adds (fun _ _ _ h => .put (.inl h)) s
  have hdraw : ∀ (con' : Console) (s : Screen),
      Adds Screen.log (con.Touches con' c) s (con'.drawCursor s) := fun con' s =>
    drawCursor_adds (fun _ _ _ h => .put (.inr h)) s
  have hscroll : ∀ {con' : Console} {s s' : Screen}, Adds Screen.log (· = .scroll) s s' →
      Adds Screen.log (con.Touches con' c) s s' := fun h => h.mono fun e he => he ▸ .scroll
  by_cases hc : c ≠ 10 ∧ c ≠ 13 ∧ c ≠ 8
  · rw [putchar_print hc]
    exact (((hclear _).trans (forCell_adds (drawPixel_adds hc) _)).trans
      (hscroll (advanced_adds con _))).trans (hdraw _ _)
  · unfold putchar
    dsimp only
    split_ifs with h₁ h₂ h₃
    · exact ((hclear _).trans (hscroll (newline_adds con _))).trans (hdraw _ _)
    · exact hclear _
    · exact ((hclear _).trans (clearCursor_adds (fun _ _ _ h => .put (.inr h)) _)).trans (hdraw _ _)
    · exact ((hclear _).trans (clearCursor_adds (fun _ _ _ h => .put (.inr h)) _)).trans (hdraw _ _)
    · exact hclear _
    all_goals exact absurd ⟨h₁, h₂, h₃⟩ hc

/-- A character that is neither `\r` nor `\b` is followed by the cursor. -/
lemma putchar_draws (hc : c ≠ 13 ∧ c ≠ 8) :
    ∃ s', (con.putchar c s).2 = (con.putchar c s).1.drawCursor s' := by
  by_cases h : c = 10
  · exact ⟨(con.newline (con.clearCursor s)).2, by simp only [putchar, h, if_true]⟩
  · exact ⟨_, by rw [putchar_print ⟨h, hc⟩]⟩

/-! ## The screen -/

/-- The cell at the cursor is on the screen. -/
structure Inside (fb : Framebuffer) (font : Font) (con : Console) : Prop where
  sameFb : con.fb = fb
  sameFont : con.font = font
  right : (con.cx + 1) * font.width ≤ fb.width
  bottom : (con.cy + 1) * font.height ≤ fb.height

/-- Cells fill the screen. -/
structure Tiled (fb : Framebuffer) (font : Font) : Prop where
  width : 0 < font.width ∧ 0 < fb.width ∧ fb.width < 2 ^ 64 ∧ font.width ∣ fb.width
  height : 0 < font.height ∧ 0 < fb.height ∧ fb.height < 2 ^ 64 ∧ font.height ∣ fb.height

/-- A cell that starts on the screen ends there. -/
lemma next_le (hdvd : w ∣ W) (h : a * w < W) : (a + 1) * w ≤ W := by
  obtain ⟨q, rfl⟩ := hdvd
  rw [Nat.mul_comm w q] at h ⊢
  exact Nat.mul_le_mul_right w (Nat.lt_of_mul_lt_mul_right h)

lemma u64_of_lt (h : n < 2 ^ 64) : u64 n = n := Nat.mod_eq_of_lt h

/-- A step to the next cell, which overflows nothing. -/
lemma u64_next (hw : 0 < w) (hW : W < 2 ^ 64) (h : (a + 1) * w ≤ W) :
    u64 (a + 1) = a + 1 ∧ u64 ((a + 1) * w) = (a + 1) * w :=
  ⟨u64_of_lt ((Nat.le_mul_of_pos_right _ hw).trans_lt (h.trans_lt hW)),
    u64_of_lt (h.trans_lt hW)⟩

lemma u64_pred (h₀ : 0 < n) (h : n < 2 ^ 64) : u64 (n + u64Max) + 1 = n := by
  unfold u64 u64Max
  omega

variable {fb : Framebuffer} {font : Font}

lemma Inside.moved {cx cy : ℕ} (hr : (cx + 1) * con.font.width ≤ con.fb.width)
    (hb : (cy + 1) * con.font.height ≤ con.fb.height) :
    Inside con.fb con.font { con with cx := cx, cy := cy } := ⟨rfl, rfl, hr, hb⟩

lemma Inside.inCell (h : Inside fb font con) (ht : Tiled fb font)
    (hin : con.InCell x y) : x < fb.width ∧ y < fb.height := by
  obtain ⟨rfl, rfl, hr, hb⟩ := h
  obtain ⟨row, hrow, col, hcol, rfl, rfl⟩ := hin
  rw [Nat.succ_mul] at hr hb
  have hW := ht.width.2.2.1
  have hH := ht.height.2.2.1
  rw [u64_of_lt (n := con.cx * _) (by omega), u64_of_lt (n := con.cy * _) (by omega),
    u64_of_lt (by omega), u64_of_lt (by omega)]
  omega

lemma Inside.newline (hfb : con.fb = fb) (hfont : con.font = font)
    (hb : (con.cy + 1) * font.height ≤ fb.height) (ht : Tiled fb font) (s : Screen) :
    Inside fb font (con.newline s).1 := by
  subst hfb hfont
  obtain ⟨hw, hW₀, -, hwd⟩ := ht.width
  obtain ⟨hh, -, hH, hhd⟩ := ht.height
  obtain ⟨h₁, h₂⟩ := u64_next hh hH hb
  have hright : (0 + 1) * con.font.width ≤ con.fb.width := next_le hwd (by rwa [Nat.zero_mul])
  unfold Console.newline
  dsimp only
  rw [h₁, h₂]
  split_ifs with hlast
  · have hcy := (Nat.le_mul_of_pos_right (con.cy + 1) hh).trans_lt (hb.trans_lt hH)
    exact .moved hright (by rwa [u64_pred (Nat.succ_pos _) hcy])
  · exact ⟨rfl, rfl, hright, next_le hhd (Nat.not_le.mp hlast)⟩

lemma Inside.putchar (h : Inside fb font con) (ht : Tiled fb font) (c : UInt8) (s : Screen) :
    Inside fb font (con.putchar c s).1 := by
  obtain ⟨rfl, rfl, hr, hb⟩ := h
  obtain ⟨hw, hW₀, hW, hwd⟩ := ht.width
  by_cases hc : c ≠ 10 ∧ c ≠ 13 ∧ c ≠ 8
  · rw [putchar_print hc]
    obtain ⟨h₁, h₂⟩ := u64_next hw hW hr
    dsimp only [advanced]
    rw [h₁, h₂]
    split_ifs with hwrap
    · exact .newline rfl rfl hb ht _
    · exact ⟨rfl, rfl, next_le hwd (Nat.not_le.mp hwrap), hb⟩
  · have hright : (0 + 1) * con.font.width ≤ con.fb.width := next_le hwd (by rwa [Nat.zero_mul])
    unfold Console.putchar
    dsimp only
    split_ifs with h₁ h₂ h₃ hx hy
    · exact .newline rfl rfl hb ht _
    · exact ⟨rfl, rfl, hright, hb⟩
    · exact .moved ((Nat.mul_le_mul_right _ (Nat.succ_le_succ (Nat.sub_le _ _))).trans hr) hb
    · refine .moved ?_ ((Nat.mul_le_mul_right _ (Nat.succ_le_succ (Nat.sub_le _ _))).trans hb)
      rw [u64_pred (Nat.div_pos (Nat.le_of_dvd hW₀ hwd) hw) ((Nat.div_le_self _ _).trans_lt hW)]
      exact Nat.div_mul_le_self _ _
    · exact ⟨rfl, rfl, hr, hb⟩
    all_goals exact absurd ⟨h₁, h₂, h₃⟩ hc

/-- While cells fill the screen, what a string draws is on it. -/
lemma write_inside (h : Inside fb font con) (ht : Tiled fb font) (str : List UInt8) (s : Screen)
    (hs : ∀ x y color, .put x y color ∈ s.log → x < fb.width ∧ y < fb.height) :
    Inside fb font (con.write str s).1 ∧ ∀ x y color,
      .put x y color ∈ (con.write str s).2.log → x < fb.width ∧ y < fb.height := by
  refine List.foldlRecOn (b := (con, s)) str _ (motive := fun r : Console × Screen =>
    Inside fb font r.1 ∧ ∀ x y color, .put x y color ∈ r.2.log → x < fb.width ∧ y < fb.height)
    ⟨h, hs⟩ ?_
  rintro ⟨con, s⟩ ⟨h, hs⟩ c -
  have h' := h.putchar ht c s
  refine ⟨h', fun x y color he => ?_⟩
  rcases (putchar_adds con c s).mem _ he with he | he
  · exact hs x y color he
  · cases he with
    | put hin => exact hin.elim (h.inCell ht) (h'.inCell ht)

lemma write_snoc (con : Console) (str : List UInt8) (c : UInt8) (s : Screen) :
    con.write (str ++ [c]) s = (con.write str s).1.putchar c (con.write str s).2 := by
  rw [write, foldl_append]
  rfl

/-- Every pixel of the cell the cursor comes to is written. -/
lemma write_snoc_puts {str : List UInt8} (hc : c ≠ 13 ∧ c ≠ 8)
    (hin : (con.write (str ++ [c]) s).1.InCell x y) :
    ∃ color, .put x y color ∈ (con.write (str ++ [c]) s).2.log := by
  rw [write_snoc] at hin ⊢
  obtain ⟨row, hrow, col, hcol, rfl, rfl⟩ := hin
  obtain ⟨s', hs'⟩ := putchar_draws hc
  rw [hs']
  obtain ⟨e, he, color, rfl⟩ := forCell_reaches (A := fun _ => True) (R := fun e => ∃ color,
    e = .put _ _ color) (putCell_adds (fun _ _ _ _ => trivial) _) hrow hcol
    (fun s => ⟨_, mem_append_right _ (mem_singleton_self _), _, rfl⟩) s'
  exact ⟨color, he⟩

lemma write_print (hcx : con.cx = 0) (hw : 0 < con.font.width) (hW : con.fb.width < 2 ^ 64)
    (s : Screen) (hk : k * con.font.width < con.fb.width) :
    (con.write (replicate k 97) s).1 = { con with cx := k } := by
  induction k with
  | zero =>
    show con = { con with cx := 0 }
    rw [← hcx]
  | succ k ih =>
    have hlt := (Nat.mul_le_mul_right _ (Nat.le_succ k)).trans_lt hk
    obtain ⟨h₁, h₂⟩ := u64_next hw hW hk.le
    rw [replicate_succ', write_snoc, ih hlt, putchar_print (by decide)]
    dsimp only [advanced]
    rw [h₁, h₂, if_neg (Nat.not_le.mpr hk)]

lemma write_newlines (hcx : con.cx = 0) (hcy : con.cy = 0) (hh : 0 < con.font.height)
    (hH : con.fb.height < 2 ^ 64) (s : Screen)
    (hk : k * con.font.height < con.fb.height) :
    (con.write (replicate k 10) s).1 = { con with cy := k } := by
  induction k with
  | zero =>
    show con = { con with cy := 0 }
    rw [← hcy]
  | succ k ih =>
    have hlt := (Nat.mul_le_mul_right _ (Nat.le_succ k)).trans_lt hk
    obtain ⟨h₁, h₂⟩ := u64_next hh hH hk.le
    rw [replicate_succ', write_snoc, ih hlt]
    simp only [putchar, if_true, newline, h₁, h₂, if_neg (Nat.not_le.mpr hk), hcx]

/-- The last cell of a row that cells do not fill. -/
lemma last_cell (hw : 0 < w) (hle : w ≤ W) (hdvd : ¬ w ∣ W) :
    ∃ k, (k + 1) * w < W ∧ W < (k + 1) * w + w := by
  have hpos := (Nat.one_le_div_iff hw).2 hle
  refine ⟨W / w - 1, ?_, ?_⟩
  · rw [Nat.sub_add_cancel hpos]
    exact lt_of_le_of_ne (Nat.div_mul_le_self W w) fun h => hdvd (Dvd.intro_left _ h)
  · rw [Nat.sub_add_cancel hpos, ← Nat.succ_mul, Nat.mul_comm]
    exact Nat.lt_mul_div_succ W hw

end Console

open Console

/-- Starting in the upper left corner, the console writes pixels of the screen only, whatever it is
given, exactly if cells fill the screen. -/
theorem console_stays_on_screen {con : Console}
    (hw : 0 < con.font.width ∧ con.font.width ≤ con.fb.width ∧ con.fb.width < 2 ^ 64)
    (hh : 0 < con.font.height ∧ con.font.height ≤ con.fb.height ∧ con.fb.height < 2 ^ 64)
    (hcx : con.cx = 0) (hcy : con.cy = 0) :
    (∀ (mem : Mem) (str : List UInt8) (x y : ℕ) (color : UInt32),
      .put x y color ∈ (con.write str ⟨mem, []⟩).2.log → x < con.fb.width ∧ y < con.fb.height) ↔
      con.font.width ∣ con.fb.width ∧ con.font.height ∣ con.fb.height := by
  constructor
  · intro hall
    by_contra hdvd
    rcases not_and_or.mp hdvd with hdvd | hdvd
    · -- the column right of the screen is in the last cell
      obtain ⟨k, hlt, hgt⟩ := last_cell hw.1 hw.2.1 hdvd
      have hend := write_print hcx hw.1 hw.2.2 ⟨fun _ => 0, []⟩ hlt
      rw [replicate_succ'] at hend
      obtain ⟨color, hput⟩ := write_snoc_puts (x := con.fb.width) (y := 0) (c := 97)
        (by decide) (by
          rw [hend]
          refine ⟨0, hh.1, con.fb.width - (k + 1) * con.font.width, by dsimp only; omega, ?_, ?_⟩
          · rw [u64_of_lt (hlt.trans hw.2.2), Nat.add_sub_cancel' hlt.le, u64_of_lt hw.2.2]
          · simp [hcy, u64])
      exact lt_irrefl _ (hall _ _ _ _ _ hput).1
    · -- and the row below it in the last line
      obtain ⟨k, hlt, hgt⟩ := last_cell hh.1 hh.2.1 hdvd
      have hend := write_newlines hcx hcy hh.1 hh.2.2 ⟨fun _ => 0, []⟩ hlt
      rw [replicate_succ'] at hend
      obtain ⟨color, hput⟩ := write_snoc_puts (x := 0) (y := con.fb.height) (c := 10)
        (by decide) (by
          rw [hend]
          refine ⟨con.fb.height - (k + 1) * con.font.height, by dsimp only; omega, 0, hw.1, ?_, ?_⟩
          · simp [hcx, u64]
          · rw [u64_of_lt (hlt.trans hh.2.2), Nat.add_sub_cancel' hlt.le, u64_of_lt hh.2.2])
      exact lt_irrefl _ (hall _ _ _ _ _ hput).2
  · rintro ⟨hwd, hhd⟩ mem str
    have hstart : Inside con.fb con.font con :=
      ⟨rfl, rfl, by rw [hcx]; omega, by rw [hcy]; omega⟩
    exact (write_inside hstart ⟨⟨hw.1, hw.1.trans_le hw.2.1, hw.2.2, hwd⟩,
      ⟨hh.1, hh.1.trans_le hh.2.1, hh.2.2, hhd⟩⟩ str ⟨mem, []⟩ (by simp)).2

/-- A console with an 8×8 font on a screen of the given size. -/
def smallConsole (width height : ℕ) : Console where
  fb :=
    { address := 0x1000, width := width, height := height, pitch := 4 * width, bpp := 32
      redMaskSize := 8, redMaskShift := 16, greenMaskSize := 8, greenMaskShift := 8
      blueMaskSize := 8, blueMaskShift := 0 }
  font := { width := 8, height := 8, glyphSize := 8, numGlyphs := 256, glyphs := 0 }
  bgColor := 0xff000000
  fgColor := 0xffffffff
  cx := 0
  cy := 0

/-- A screen of two by two cells. -/
theorem console_stays_on_screen_tiled : 8 ∣ 16 ∧ ∀ mem str x y color,
    .put x y color ∈ ((smallConsole 16 16).write str ⟨mem, []⟩).2.log → x < 16 ∧ y < 16 :=
  ⟨by decide, (@console_stays_on_screen (smallConsole 16 16) (by decide) (by decide) rfl
    rfl).2 (by decide)⟩

/-- On a screen ten pixels wide, the cursor behind the first character is drawn from column 8 to
column 15. -/
theorem cursor_leaves_screen : ∃ con : Console, con.cx = 0 ∧ con.cy = 0 ∧
    4 * con.fb.width ≤ con.fb.pitch ∧ con.fb.bpp = 32 ∧
    (0 < con.font.width ∧ con.font.width ≤ con.fb.width) ∧
    (0 < con.font.height ∧ con.font.height ≤ con.fb.height) ∧
    ∃ color, .put con.fb.width 0 color ∈ (con.write [97] ⟨fun _ => 0, []⟩).2.log := by
  refine ⟨smallConsole 10 8, rfl, rfl, by decide, rfl, by decide, by decide, ?_⟩
  exact @write_snoc_puts _ 97 _ 10 0 [] (by decide) ⟨0, by decide, 2, by decide, rfl, rfl⟩

/-! ## The font -/

/-- The largest index of a glyph that is drawn; `\b`, `\n` and `\r` draw none. -/
def Font.lastGlyph (font : Font) : ℕ :=
  let m := min font.numGlyphs 256 - 1
  if m = 8 ∨ m = 10 ∨ m = 13 then m - 1 else m

/-- The address of the last byte of that glyph. -/
def Font.lastByte (font : Font) : ℕ :=
  font.glyphs + font.lastGlyph * font.glyphSize + (font.height - 1) * bytesPerRow font +
    (font.width - 1) / 8

namespace Console

variable {con : Console} {font : Font} {c : UInt8}

lemma glyphIndex_le (hc : c ≠ 10 ∧ c ≠ 13 ∧ c ≠ 8) : glyphIndex font c ≤ font.lastGlyph := by
  have hlt := c.toNat_lt
  have hne : c.toNat ≠ 10 ∧ c.toNat ≠ 13 ∧ c.toNat ≠ 8 :=
    ⟨fun h => hc.1 (UInt8.toNat_inj.1 h), fun h => hc.2.1 (UInt8.toNat_inj.1 h),
      fun h => hc.2.2 (UInt8.toNat_inj.1 h)⟩
  unfold glyphIndex Font.lastGlyph
  dsimp only
  split_ifs <;> omega

lemma exists_lastGlyph (font : Font) :
    ∃ c : UInt8, (c ≠ 10 ∧ c ≠ 13 ∧ c ≠ 8) ∧ glyphIndex font c = font.lastGlyph := by
  have hlast : font.lastGlyph < 256 ∧ font.lastGlyph ≠ 10 ∧ font.lastGlyph ≠ 13 ∧
      font.lastGlyph ≠ 8 ∧ (font.numGlyphs ≤ font.lastGlyph → font.lastGlyph = 0) := by
    unfold Font.lastGlyph
    dsimp only
    split_ifs <;> omega
  obtain ⟨hlt, h₁, h₂, h₃, hzero⟩ := hlast
  have hnat : (UInt8.ofNat font.lastGlyph).toNat = font.lastGlyph := UInt8.toNat_ofNat_of_lt hlt
  refine ⟨UInt8.ofNat font.lastGlyph, ⟨?_, ?_, ?_⟩, ?_⟩
  · exact fun h => h₁ (by rw [← hnat, h]; rfl)
  · exact fun h => h₂ (by rw [← hnat, h]; rfl)
  · exact fun h => h₃ (by rw [← hnat, h]; rfl)
  · rw [glyphIndex, hnat]
    split_ifs with h
    · exact (hzero h).symm
    · rfl

/-- A character that is drawn reads every byte of its glyph. -/
lemma putchar_reads (hc : c ≠ 10 ∧ c ≠ 13 ∧ c ≠ 8) {row col : ℕ} (hrow : row < con.font.height)
    (hcol : col < con.font.width) (s : Screen) :
    .glyph (glyphByte con.font c row col) ∈ (con.putchar c s).2.log := by
  obtain ⟨e, he, rfl⟩ := forCell_reaches (A := con.Touches con c)
    (R := (· = .glyph (glyphByte con.font c row col)))
    (drawPixel_adds hc) hrow hcol
    (fun s => ⟨_, mem_append_left _ (mem_append_right _ (mem_singleton_self _)),
      rfl⟩) (con.clearCursor s)
  rw [putchar_print hc]
  exact (drawCursor_adds (A := fun _ => True) (fun _ _ _ _ => trivial) _).sub
    ((advanced_adds con _).sub he)

lemma glyphByte_le (hc : c ≠ 10 ∧ c ≠ 13 ∧ c ≠ 8) {row col : ℕ} (hrow : row < font.height)
    (hcol : col < font.width) : glyphByte font c row col ≤ font.lastByte := by
  unfold glyphByte Font.lastByte
  have hrow' : row ≤ font.height - 1 := by omega
  have hcol' : col ≤ font.width - 1 := by omega
  gcongr
  exact glyphIndex_le hc

end Console

/-- The characters of a font that was loaded from a file are read inside the file, whatever is
drawn, exactly if the last byte of the last glyph is. -/
theorem glyphs_are_read_in_file {mem : Mem} {data size : ℕ} {font : Font}
    (h : fontLoadPsf mem data size = some font) :
    (∀ (con : Console) (c : UInt8) (mem' : Mem) (addr : ℕ), con.font = font →
      .glyph addr ∈ (con.putchar c ⟨mem', []⟩).2.log → ∃ i < size, addr = data + i) ↔
      font.width = 0 ∨ font.height = 0 ∨ font.lastByte < data + size := by
  have hglyphs : data ≤ font.glyphs := by
    unfold fontLoadPsf at h
    split_ifs at h
    all_goals exact Option.some.inj h ▸ Nat.le_add_right _ _
  constructor
  · intro hall
    by_contra hcond
    simp only [not_or] at hcond
    obtain ⟨hw, hh, hout⟩ := hcond
    obtain ⟨c, hc, hidx⟩ := exists_lastGlyph font
    obtain ⟨i, hi, heq⟩ := hall { smallConsole 0 0 with font := font } c mem
      (glyphByte font c (font.height - 1) (font.width - 1)) rfl
      (putchar_reads hc (Nat.sub_one_lt hh) (Nat.sub_one_lt hw) _)
    rw [glyphByte, hidx] at heq
    exact hout (by unfold Font.lastByte; omega)
  · intro hcond con c mem' addr hfont hread
    subst hfont
    rcases (putchar_adds con c ⟨mem', []⟩).mem _ hread with hread | hread
    · simp at hread
    cases hread with
    | @glyph row col hc hrow hcol =>
      have hle := glyphByte_le hc hrow hcol
      have hge : con.font.glyphs ≤ glyphByte con.font c row col := by
        unfold glyphByte
        omega
      exact ⟨glyphByte con.font c row col - data, by omega, by omega⟩

/-- A PSF1 file of 256 glyphs with one row each. -/
theorem glyphs_are_read_in_file_psf1 : ∃ font : Font,
    fontLoadPsf (fun a => [0x36, 0x04, 0, 1].getD a 0) 0 260 = some font ∧
    ∀ (con : Console) (c : UInt8) (mem : Mem) (addr : ℕ), con.font = font →
      .glyph addr ∈ (con.putchar c ⟨mem, []⟩).2.log → ∃ i < 260, addr = 0 + i := by
  have hload : fontLoadPsf (fun a => [0x36, 0x04, 0, 1].getD a 0) 0 260 =
      some ⟨8, 1, 1, 256, 4⟩ := by decide +kernel
  exact ⟨⟨8, 1, 1, 256, 4⟩, hload, (glyphs_are_read_in_file hload).2 (by decide)⟩

/-- A PSF2 file that ends with its header, for one glyph of 8×16 pixels, is loaded; drawing a
character reads behind it. -/
theorem header_without_glyphs_is_loaded : ∃ (mem : Mem) (font : Font) (con : Console) (addr : ℕ),
    fontLoadPsf mem 0 32 = some font ∧ con.font = font ∧
    .glyph addr ∈ (con.putchar 97 ⟨mem, []⟩).2.log ∧ ¬ ∃ i < 32, addr = 0 + i := by
  refine ⟨fun a => [0x72, 0xb5, 0x4a, 0x86, 0, 0, 0, 0, 32, 0, 0, 0, 0, 0, 0, 0,
    1, 0, 0, 0, 16, 0, 0, 0, 16, 0, 0, 0, 8, 0, 0, 0].getD a 0, ⟨8, 16, 16, 1, 32⟩,
    { smallConsole 16 16 with font := ⟨8, 16, 16, 1, 32⟩ }, 47, by decide +kernel, rfl, ?_,
    by decide⟩
  exact @putchar_reads _ 97 (by decide) 15 0 (by decide) (by decide) _

end CobjOs
