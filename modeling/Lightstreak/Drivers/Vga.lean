import Mathlib.Logic.Function.Basic
import Lightstreak.Lib.Run

/-!
# The VGA text screen (`kernel/drivers/vga.c`)

The driver writes characters to a buffer of 25 rows and 80 columns and scrolls it when the cursor
leaves the last row. An access to a cell outside the buffer has no result.

`Terminal` is what the screen is a part of: a terminal with unboundedly many rows, on which nothing
is ever moved.

* `vgaScroll_spec`: the in-place copy moves every row up by one and blanks the last;
* `Shows.putchar`: one character keeps the buffer a window on the terminal;
* `vga_shows_terminal`: hence every sequence of calls after `vga_init` does.
-/

namespace Lightstreak

open SysLib

/-- `VGA_COLS` -/
def vgaCols : ℕ := 80

/-- `VGA_ROWS` -/
def vgaRows : ℕ := 25

/-- The static variables of the driver, the text buffer, and the bytes written to I/O ports. -/
structure VgaState where
  /-- The cells of the screen, row after row. -/
  vgaBuf : ℕ → UInt16
  /-- The column of the cursor. -/
  vgaCol : UInt8
  /-- The row of the cursor. -/
  vgaRow : UInt8
  /-- The colours of what is printed next. -/
  vgaColor : UInt8
  /-- The bytes written to ports, in order. -/
  ports : List (ℕ × UInt8)

/-- `vga_make_color(fg, bg)` -/
def vgaMakeColor (fg bg : UInt8) : UInt8 := fg ||| bg <<< 4

/-- `vga_entry(c, color)` -/
def vgaEntry (c color : UInt8) : UInt16 := c.toUInt16 ||| color.toUInt16 <<< 8

/-- The entry that blanks a cell, `vga_entry(' ', color)`. -/
def vgaBlank (color : UInt8) : UInt16 := vgaEntry 0x20 color

/-- `vga_buf[i]` -/
def VgaState.read (s : VgaState) (i : ℕ) : Option UInt16 :=
  if i < vgaRows * vgaCols then some (s.vgaBuf i) else none

/-- `vga_buf[i] = entry` -/
def VgaState.write (s : VgaState) (i : ℕ) (entry : UInt16) : Option VgaState :=
  if i < vgaRows * vgaCols then some { s with vgaBuf := Function.update s.vgaBuf i entry } else none

/-- The cell under the cursor, `vga_row * VGA_COLS + vga_col`. -/
def VgaState.pos (s : VgaState) : ℕ := s.vgaRow.toNat * vgaCols + s.vgaCol.toNat

/-- `vga_update_cursor()`: the position goes to the registers `VGA_CURSOR_HI` and `VGA_CURSOR_LO`
by way of `VGA_CTRL_PORT` and `VGA_DATA_PORT`. -/
def vgaUpdateCursor (s : VgaState) : VgaState :=
  let pos := UInt16.ofNat s.pos
  { s with
    ports := s.ports ++ [(0x3D4, (14 : UInt8)), (0x3D5, (pos >>> 8).toUInt8),
      (0x3D4, 15), (0x3D5, (pos &&& 0xFF).toUInt8)] }

/-- `vga_buf[(row - 1) * VGA_COLS + col] = vga_buf[row * VGA_COLS + col]` -/
def VgaState.copyUp (s : VgaState) (row col : ℕ) : Option VgaState := do
  s.write ((row - 1) * vgaCols + col) (← s.read (row * vgaCols + col))

/-- The inner copy loop of `vga_scroll`. -/
def vgaMoveRow (s : VgaState) (row : ℕ) : Option VgaState :=
  (List.range' 0 vgaCols).foldlM (fun s col => s.copyUp row col) s

/-- `vga_scroll()` -/
def vgaScroll (s : VgaState) : Option VgaState := do
  -- Move every row up by one.
  let s ← (List.range' 1 (vgaRows - 1)).foldlM vgaMoveRow s
  -- Blank the last row.
  let s ← (List.range' 0 vgaCols).foldlM (fun s col =>
    s.write ((vgaRows - 1) * vgaCols + col) (vgaBlank s.vgaColor)) s
  some { s with vgaRow := 24 }

/-- `vga_set_color(color)` -/
def vgaSetColor (s : VgaState) (color : UInt8) : VgaState := { s with vgaColor := color }

/-- `vga_clear()` -/
def vgaClear (s : VgaState) : Option VgaState := do
  let s ← (List.range' 0 (vgaRows * vgaCols)).foldlM (fun s i =>
    s.write i (vgaBlank s.vgaColor)) s
  some (vgaUpdateCursor { s with vgaRow := 0, vgaCol := 0 })

/-- `vga_init()`, with `VGA_COLOR_LIGHT_GREY` on `VGA_COLOR_BLACK`. -/
def vgaInit (s : VgaState) : Option VgaState :=
  vgaClear { s with vgaColor := vgaMakeColor 7 0 }

/-- `vga_col = 0; vga_row++;` -/
def VgaState.nextRow (s : VgaState) : VgaState := { s with vgaCol := 0, vgaRow := s.vgaRow + 1 }

/-- `if (vga_col >= VGA_COLS) { vga_col = 0; vga_row++; }` -/
def VgaState.wrap (s : VgaState) : VgaState := if vgaCols ≤ s.vgaCol.toNat then s.nextRow else s

/-- The branches of `vga_putchar` on the character. -/
def vgaPlace (s : VgaState) (c : UInt8) : Option VgaState :=
  if c = 0x0A then some s.nextRow
  else if c = 0x0D then some { s with vgaCol := 0 }
  -- Advance to the next 8-column tab stop.
  else if c = 0x09 then some { s with vgaCol := (s.vgaCol + 8) &&& ~~~7 }.wrap
  else if c = 0x08 then
    if 0 < s.vgaCol then
      let s := { s with vgaCol := s.vgaCol - 1 }
      s.write s.pos (vgaBlank s.vgaColor)
    else some s
  else do
    let s ← s.write s.pos (vgaEntry c s.vgaColor)
    some { s with vgaCol := s.vgaCol + 1 }.wrap

/-- The end of `vga_putchar`: `if (vga_row >= VGA_ROWS) vga_scroll(); vga_update_cursor();` -/
def vgaSettle (s : VgaState) : Option VgaState := do
  let s ← if vgaRows ≤ s.vgaRow.toNat then vgaScroll s else some s
  some (vgaUpdateCursor s)

/-- `vga_putchar(c)` -/
def vgaPutchar (s : VgaState) (c : UInt8) : Option VgaState := do
  vgaSettle (← vgaPlace s c)

/-- A call to the driver. -/
inductive VgaOp
  | putchar (c : UInt8)
  | setColor (color : UInt8)
deriving DecidableEq, Repr

/-- The state after a call; `none` if it accesses a cell outside the buffer. -/
def VgaOp.exec (s : VgaState) : VgaOp → Option VgaState
  | putchar c => vgaPutchar s c
  | setColor color => some (vgaSetColor s color)

/-! ## The ideal terminal -/

/-- A terminal with unboundedly many rows of 80 cells. -/
structure Terminal where
  /-- The cell in a row and a column. -/
  cell : ℕ → ℕ → UInt16
  /-- The row of the cursor, counted from the first row ever. -/
  row : ℕ
  /-- The column of the cursor. -/
  col : ℕ
  /-- The colours of what is printed next. -/
  color : UInt8
  /-- The greatest row number reached. -/
  greatest : ℕ

namespace Terminal

variable (t : Terminal)

/-- The last row of the screen: 24, or the greatest row number reached if that is larger. -/
def bottom : ℕ := max (vgaRows - 1) t.greatest

/-- The first row of the screen. -/
def top : ℕ := t.bottom - (vgaRows - 1)

/-- Write a cell of the current row. -/
def put (col : ℕ) (entry : UInt16) : Terminal :=
  { t with cell := Function.update t.cell t.row (Function.update (t.cell t.row) col entry) }

/-- Go to the start of the next row. A row below the screen is entered by scrolling, and then starts
blank in the colour that is current. -/
def newline : Terminal :=
  { t with
    row := t.row + 1
    col := 0
    greatest := max t.greatest (t.row + 1)
    cell := if t.bottom < t.row + 1 then
      Function.update t.cell (t.row + 1) fun _ => vgaBlank t.color else t.cell }

/-- A row that is entered for the first time is blank. -/
theorem newline_cell : t.newline.cell = if t.bottom < t.row + 1 then
    Function.update t.cell (t.row + 1) fun _ => vgaBlank t.color else t.cell := rfl

/-- Go to a column, or to the next row if the line is full. -/
def goto (col : ℕ) : Terminal := if vgaCols ≤ col then t.newline else { t with col := col }

/-- Process a character: newline, carriage return, tab, backspace, or one that is printed. -/
def putchar (c : UInt8) : Terminal :=
  if c = 0x0A then t.newline
  else if c = 0x0D then { t with col := 0 }
  else if c = 0x09 then t.goto ((t.col / 8 + 1) * 8)
  else if c = 0x08 then
    if 0 < t.col then { t.put (t.col - 1) (vgaBlank t.color) with col := t.col - 1 } else t
  else (t.put t.col (vgaEntry c t.color)).goto (t.col + 1)

/-- Process a call. -/
def step : VgaOp → Terminal
  | .putchar c => t.putchar c
  | .setColor color => { t with color := color }

/-- The blank terminal, in the colour that `vga_init` sets. -/
def init : Terminal := ⟨fun _ _ => vgaBlank (vgaMakeColor 7 0), 0, 0, vgaMakeColor 7 0, 0⟩

end Terminal

/-! ## Scrolling and clearing -/

variable {s : VgaState} {t : Terminal}

theorem VgaState.read_of_lt {i : ℕ} (hi : i < 2000) : s.read i = some (s.vgaBuf i) := if_pos hi

theorem VgaState.write_of_lt {i : ℕ} (hi : i < 2000) (entry : UInt16) :
    s.write i entry = some { s with vgaBuf := Function.update s.vgaBuf i entry } := if_pos hi

/-- The first `k` cells of `buf` are those 80 further on in `old`. -/
def MovedUp (old : ℕ → UInt16) (k : ℕ) (buf : ℕ → UInt16) : Prop :=
  ∀ i, buf i = if i < k then old (i + 80) else old i

/-- One more cell has been moved up. -/
theorem MovedUp.update {old buf : ℕ → UInt16} {k : ℕ} (h : MovedUp old k buf) :
    MovedUp old (k + 1) (Function.update buf k (buf (k + 80))) := by
  intro i
  by_cases hi : i = k
  · -- The cell that is copied has not been overwritten yet.
    rw [hi, Function.update_self, h, if_neg (by omega), if_pos (by omega)]
  · rw [Function.update_of_ne hi, h]
    exact if_congr (by omega) rfl rfl

/-- The inner copy loop, over the cells of a row. Both loops carry the same invariant, over the
number of cells copied so far. -/
theorem exists_moveRow {old buf : ℕ → UInt16} {row : ℕ} (hpos : 1 ≤ row) (hrow : row < 25)
    (hbuf : MovedUp old ((row - 1) * 80) buf) :
    ∃ buf', vgaMoveRow { s with vgaBuf := buf } row = some { s with vgaBuf := buf' } ∧
      MovedUp old (row * 80) buf' := by
  -- After `col` columns the cells before are those one row below in `old`.
  have hstep : ∀ col s₁, 0 ≤ col → col < 0 + vgaCols →
      (∃ buf, s₁ = { s with vgaBuf := buf } ∧ MovedUp old ((row - 1) * 80 + col) buf) →
      ∃ s₂, s₁.copyUp row col = some s₂ ∧
        ∃ buf, s₂ = { s with vgaBuf := buf } ∧ MovedUp old ((row - 1) * 80 + (col + 1)) buf := by
    rintro col - - hcol ⟨buf, rfl, hbuf⟩
    simp only [vgaCols] at hcol
    have hsrc : row * vgaCols + col = (row - 1) * 80 + col + 80 := by
      simp only [vgaCols]
      omega
    rw [VgaState.copyUp, hsrc, VgaState.read_of_lt (by omega)]
    exact ⟨_, VgaState.write_of_lt (by simp only [vgaCols]; omega) _, _, rfl, hbuf.update⟩
  obtain ⟨_, hrun, buf', rfl, hbuf'⟩ := exists_foldlM_range'
    (f := fun (s : VgaState) col => s.copyUp row col) ⟨buf, rfl, hbuf⟩ hstep
  refine ⟨buf', hrun, ?_⟩
  rwa [show (row - 1) * 80 + (0 + vgaCols) = row * 80 by simp only [vgaCols]; omega] at hbuf'

/-- The copy loop of `vga_scroll`. -/
theorem exists_moveRows (s : VgaState) :
    ∃ buf, (List.range' 1 (vgaRows - 1)).foldlM vgaMoveRow s = some { s with vgaBuf := buf } ∧
      MovedUp s.vgaBuf 1920 buf := by
  have hstep : ∀ row s₁, 1 ≤ row → row < 1 + (vgaRows - 1) →
      (∃ buf, s₁ = { s with vgaBuf := buf } ∧ MovedUp s.vgaBuf ((row - 1) * 80) buf) →
      ∃ s₂, vgaMoveRow s₁ row = some s₂ ∧
        ∃ buf, s₂ = { s with vgaBuf := buf } ∧ MovedUp s.vgaBuf ((row + 1 - 1) * 80) buf := by
    rintro row - hpos hrow ⟨buf, rfl, hbuf⟩
    obtain ⟨buf', hmove, hbuf'⟩ := exists_moveRow (s := s) hpos hrow hbuf
    exact ⟨_, hmove, buf', rfl, hbuf'⟩
  obtain ⟨_, hrun, buf, rfl, hbuf⟩ := exists_foldlM_range' ⟨s.vgaBuf, rfl, fun _ => rfl⟩ hstep
  exact ⟨buf, hrun, hbuf⟩

/-- A loop that blanks the cells from `a` on. -/
theorem exists_blankCells (s : VgaState) {a n : ℕ} (hn : a + n ≤ 2000) :
    ∃ buf, (List.range' 0 n).foldlM (fun s i => s.write (a + i) (vgaBlank s.vgaColor)) s =
      some { s with vgaBuf := buf } ∧
      ∀ i, buf i = if a ≤ i ∧ i < a + n then vgaBlank s.vgaColor else s.vgaBuf i := by
  -- After `k` steps the cells from `a` to `a + k` are blank.
  have hstep : ∀ k s₁, 0 ≤ k → k < 0 + n →
      (∃ buf, s₁ = { s with vgaBuf := buf } ∧
        ∀ i, buf i = if a ≤ i ∧ i < a + k then vgaBlank s.vgaColor else s.vgaBuf i) →
      ∃ s₂, s₁.write (a + k) (vgaBlank s₁.vgaColor) = some s₂ ∧
        ∃ buf, s₂ = { s with vgaBuf := buf } ∧
          ∀ i, buf i = if a ≤ i ∧ i < a + (k + 1) then vgaBlank s.vgaColor else s.vgaBuf i := by
    rintro k - - hk ⟨buf, rfl, hbuf⟩
    refine ⟨_, VgaState.write_of_lt (by omega) _, _, rfl, fun i => ?_⟩
    by_cases hi : i = a + k
    · rw [hi, Function.update_self, if_pos (by omega)]
    · rw [Function.update_of_ne hi]
      exact (hbuf i).trans (if_congr (by omega) rfl rfl)
  obtain ⟨_, hrun, buf, rfl, hbuf⟩ := exists_foldlM_range'
    ⟨s.vgaBuf, rfl, fun i => (if_neg (by omega)).symm⟩ hstep
  exact ⟨buf, hrun, fun i => by rw [hbuf, Nat.zero_add]⟩

/-- `vga_scroll` moves every row up by one and blanks the last. -/
theorem vgaScroll_spec (s : VgaState) :
    ∃ buf, vgaScroll s = some { s with vgaBuf := buf, vgaRow := 24 } ∧
      ∀ i j, i < 25 → j < 80 → buf (i * 80 + j) =
        if i < 24 then s.vgaBuf ((i + 1) * 80 + j) else vgaBlank s.vgaColor := by
  obtain ⟨buf, hmove, hbuf⟩ := exists_moveRows s
  obtain ⟨buf', hblank, hbuf'⟩ := exists_blankCells { s with vgaBuf := buf }
    (a := 1920) (n := vgaCols) (by decide)
  refine ⟨buf', ?_, fun i j hi hj => ?_⟩
  · have hfirst : (vgaRows - 1) * vgaCols = 1920 := rfl
    simp only [vgaScroll, hmove, hfirst, Option.bind_eq_bind, Option.bind_some, hblank]
  · have hcols : vgaCols = 80 := rfl
    rw [hbuf']
    -- The last row was blanked, and the others were moved.
    split_ifs with hlast hlt hlt
    · omega
    · rfl
    · show buf _ = _
      rw [hbuf, if_pos (by omega), show i * 80 + j + 80 = (i + 1) * 80 + j by omega]
    · omega

/-! ## The screen as a window -/

/-- The screen shows the rows of the terminal from `top` to `bottom`, and the cursor is at the same
place on both. -/
structure Shows (s : VgaState) (t : Terminal) : Prop where
  /-- The cursor is on the screen. -/
  row_lt : s.vgaRow.toNat < 25
  /-- The cursor is in its row. -/
  col_lt : s.vgaCol.toNat < 80
  /-- The screen starts at the row `top` of the terminal. -/
  row : t.row = t.top + s.vgaRow.toNat
  /-- The columns are the same. -/
  col : t.col = s.vgaCol.toNat
  /-- The colours are the same. -/
  color : t.color = s.vgaColor
  /-- No character goes back to an earlier row. -/
  greatest : t.greatest = t.row
  /-- The screen shows the last 25 rows. -/
  cells : ∀ i j, i < 25 → j < 80 → s.vgaBuf (i * 80 + j) = t.cell (t.top + i) j

/-- Two cells of the buffer are the same only if row and column are. -/
theorem cell_inj {i j i' j' : ℕ} (hj : j < 80) (hj' : j' < 80) :
    i * 80 + j = i' * 80 + j' ↔ i = i' ∧ j = j' := by
  omega

namespace Shows

/-- The cursor is in a cell of the screen. -/
theorem pos_lt (h : Shows s t) : s.pos < 2000 := by
  have := h.row_lt
  have := h.col_lt
  simp only [VgaState.pos, vgaCols]
  omega

/-- Moving the cursor inside the row. -/
theorem setCol (h : Shows s t) {col : UInt8} (hcol : col.toNat < 80) :
    Shows { s with vgaCol := col } { t with col := col.toNat } :=
  { h with col_lt := hcol, col := rfl }

theorem setColor (h : Shows s t) (color : UInt8) :
    Shows (vgaSetColor s color) { t with color := color } :=
  { h with color := rfl }

/-- Writing the cell under the cursor. -/
theorem put (h : Shows s t) (entry : UInt16) :
    Shows { s with vgaBuf := Function.update s.vgaBuf s.pos entry } (t.put t.col entry) := by
  refine { h with cells := fun i j hi hj => ?_ }
  -- A cell of the screen is under the cursor exactly if the terminal's cell is.
  have hpos : i * 80 + j = s.pos ↔ t.top + i = t.row ∧ j = t.col := by
    rw [VgaState.pos, vgaCols, cell_inj hj h.col_lt, h.row, h.col, Nat.add_left_cancel_iff]
  have hcell := h.cells i j hi hj
  show Function.update s.vgaBuf s.pos entry (i * 80 + j) =
    Function.update t.cell t.row (Function.update (t.cell t.row) t.col entry) (t.top + i) j
  by_cases hrow : t.top + i = t.row
  · rw [hrow] at hcell ⊢
    rw [Function.update_self]
    by_cases hj' : j = t.col
    · rw [hpos.mpr ⟨hrow, hj'⟩, hj', Function.update_self, Function.update_self]
    · rw [Function.update_of_ne (mt hpos.mp fun h => hj' h.2), Function.update_of_ne hj', hcell]
  · rw [Function.update_of_ne (mt hpos.mp fun h => hrow h.1), Function.update_of_ne hrow, hcell]

theorem toNat_nextRow (h : Shows s t) : s.nextRow.vgaRow.toNat = s.vgaRow.toNat + 1 := by
  have := h.row_lt
  rw [VgaState.nextRow, UInt8.toNat_add]
  exact Nat.mod_eq_of_lt (show s.vgaRow.toNat + 1 < 2 ^ 8 by omega)

/-- The cursor registers are not part of what is shown. -/
theorem updateCursor (h : Shows s t) : Shows (vgaUpdateCursor s) t := { h with }

/-- While the cursor is on the screen nothing is scrolled. -/
theorem settle (h : Shows s t) : ∃ s', vgaSettle s = some s' ∧ Shows s' t := by
  have hrow : ¬vgaRows ≤ s.vgaRow.toNat := Nat.not_le.mpr h.row_lt
  exact ⟨_, by rw [vgaSettle, if_neg hrow]; rfl, h.updateCursor⟩

/-- Going to the next row when the cursor is on the last row of the screen: the window moves down
by one row of the terminal, which is blank. -/
theorem newline_of_last (h : Shows s t) (hlast : s.vgaRow.toNat = 24) :
    ∃ s', vgaSettle s.nextRow = some s' ∧ Shows s' t.newline := by
  have hrow := h.row
  have hgr := h.greatest
  obtain ⟨buf, hscroll, hbuf⟩ := vgaScroll_spec s.nextRow
  have hbelow : t.bottom < t.row + 1 := by
    simp only [Terminal.top, Terminal.bottom, vgaRows] at hrow ⊢
    omega
  have htop : t.newline.top = t.top + 1 := by
    simp only [Terminal.top, Terminal.bottom, Terminal.newline, vgaRows] at hrow ⊢
    omega
  have hfull : vgaRows ≤ s.nextRow.vgaRow.toNat := by
    rw [toNat_nextRow h, hlast]
    decide
  refine ⟨vgaUpdateCursor { s.nextRow with vgaBuf := buf, vgaRow := 24 }, ?_, updateCursor
    ⟨show 24 < 25 by decide, show 0 < 80 by decide, ?_, rfl, h.color, ?_, fun i j hi hj => ?_⟩⟩
  · rw [vgaSettle, if_pos hfull, hscroll]
    rfl
  · show t.row + 1 = t.newline.top + 24
    omega
  · show max t.greatest (t.row + 1) = t.row + 1
    omega
  · show buf (i * 80 + j) = t.newline.cell (t.newline.top + i) j
    -- Each row but the last comes from the row below, and the last one is new.
    rw [hbuf i j hi hj, htop, Terminal.newline_cell, if_pos hbelow]
    split_ifs with hi'
    · rw [Function.update_of_ne (by omega), Nat.add_right_comm, Nat.add_assoc]
      exact h.cells (i + 1) j (by omega) hj
    · rw [show t.top + 1 + i = t.row + 1 by omega, Function.update_self, h.color]
      rfl

/-- Going to the next row when that is on the screen: nothing moves. -/
theorem newline_of_inside (h : Shows s t) (hlast : s.vgaRow.toNat ≠ 24) :
    ∃ s', vgaSettle s.nextRow = some s' ∧ Shows s' t.newline := by
  have hrow := h.row
  have hgr := h.greatest
  have hlt := h.row_lt
  have hnext := toNat_nextRow h
  -- There is a row below the cursor only as long as the terminal has not left its first screen.
  have hbottom : t.row < t.bottom := by
    simp only [Terminal.top, Terminal.bottom, vgaRows] at hrow ⊢
    omega
  have htop : t.newline.top = t.top := by
    simp only [Terminal.top, Terminal.bottom, Terminal.newline, vgaRows] at hrow ⊢
    omega
  refine settle ⟨by omega, show 0 < 80 by decide, ?_, rfl, h.color, ?_, fun i j hi hj => ?_⟩
  · show t.row + 1 = t.newline.top + s.nextRow.vgaRow.toNat
    omega
  · show max t.greatest (t.row + 1) = t.row + 1
    omega
  · rw [htop, Terminal.newline_cell, if_neg (Nat.not_lt.mpr hbottom)]
    exact h.cells i j hi hj

/-- Going to the next row, with the scroll that may follow. -/
theorem newline (h : Shows s t) : ∃ s', vgaSettle s.nextRow = some s' ∧ Shows s' t.newline := by
  by_cases hlast : s.vgaRow.toNat = 24
  · exact h.newline_of_last hlast
  · exact h.newline_of_inside hlast

/-- Going to a column, with the wrap and the scroll that may follow. -/
theorem goto (h : Shows s t) (col : UInt8) :
    ∃ s', vgaSettle { s with vgaCol := col }.wrap = some s' ∧ Shows s' (t.goto col.toNat) := by
  by_cases hcol : vgaCols ≤ col.toNat
  · rw [VgaState.wrap, if_pos hcol, Terminal.goto, if_pos hcol]
    exact h.newline
  · rw [VgaState.wrap, if_neg hcol, Terminal.goto, if_neg hcol]
    exact (h.setCol (Nat.not_le.mp hcol)).settle

end Shows

/-- The mask of the tab stop. -/
theorem toNat_tabStop {col : UInt8} (hcol : col.toNat < 80) :
    ((col + 8) &&& ~~~7).toNat = (col.toNat / 8 + 1) * 8 := by
  have hall : ∀ n < 80, ((UInt8.ofNat n + 8) &&& ~~~7).toNat = (n / 8 + 1) * 8 := by decide
  simpa using hall col.toNat hcol

namespace Shows

/-- A backspace inside the row. -/
theorem backspace (h : Shows s t) (hpos : 0 < s.vgaCol) :
    ∃ s', ({ s with vgaCol := s.vgaCol - 1 } : VgaState).write
        ({ s with vgaCol := s.vgaCol - 1 } : VgaState).pos (vgaBlank s.vgaColor) = some s' ∧
      Shows s' { t.put (t.col - 1) (vgaBlank t.color) with col := t.col - 1 } := by
  have hle : 1 ≤ s.vgaCol := UInt8.le_iff_toNat_le.mpr (UInt8.lt_iff_toNat_lt.mp hpos)
  have hcol : (s.vgaCol - 1).toNat = t.col - 1 := by
    rw [UInt8.toNat_sub_of_le _ _ hle, h.col]
    rfl
  have hback : Shows { s with vgaCol := s.vgaCol - 1 } { t with col := (s.vgaCol - 1).toNat } :=
    h.setCol (by have := h.col_lt; have := h.col; omega)
  rw [VgaState.write_of_lt hback.pos_lt]
  refine ⟨_, rfl, ?_⟩
  have hput := hback.put (vgaBlank s.vgaColor)
  rw [hcol] at hput
  rw [h.color]
  exact hput

/-- A character that is printed. -/
theorem print (h : Shows s t) (c : UInt8) :
    ∃ s', vgaSettle { s with
          vgaBuf := Function.update s.vgaBuf s.pos (vgaEntry c s.vgaColor)
          vgaCol := s.vgaCol + 1 }.wrap = some s' ∧
      Shows s' ((t.put t.col (vgaEntry c t.color)).goto (t.col + 1)) := by
  have hlt := h.col_lt
  have hcol : (s.vgaCol + 1).toNat = t.col + 1 := by
    rw [UInt8.toNat_add, h.col]
    exact Nat.mod_eq_of_lt (show s.vgaCol.toNat + 1 < 2 ^ 8 by omega)
  rw [← hcol, h.color]
  exact (h.put (vgaEntry c s.vgaColor)).goto (s.vgaCol + 1)

/-- One character keeps the screen a window on the terminal. -/
theorem putchar (h : Shows s t) (c : UInt8) :
    ∃ s', vgaPutchar s c = some s' ∧ Shows s' (t.putchar c) := by
  have hpos : 0 < s.vgaCol ↔ 0 < t.col := by
    rw [h.col, UInt8.lt_iff_toNat_lt]
    rfl
  rw [vgaPutchar, vgaPlace, Terminal.putchar]
  simp only [← hpos]
  split_ifs with hnl hcr htab hbs hcol
  · exact h.newline
  · -- A carriage return.
    exact (h.setCol (show (0 : UInt8).toNat < 80 by decide)).settle
  · -- A tab, whose mask the terminal states as a division.
    rw [h.col, ← toNat_tabStop h.col_lt]
    exact h.goto _
  · obtain ⟨s', hwrite, hs'⟩ := h.backspace hcol
    rw [hwrite]
    exact hs'.settle
  · -- A backspace in the first column does nothing.
    exact h.settle
  · rw [VgaState.write_of_lt h.pos_lt]
    exact h.print c

/-- One call keeps the screen a window on the terminal. -/
theorem exec (h : Shows s t) (op : VgaOp) : ∃ s', op.exec s = some s' ∧ Shows s' (t.step op) := by
  cases op with
  | putchar c => exact h.putchar c
  | setColor color => exact ⟨_, rfl, h.setColor color⟩

/-- Hence every sequence of calls does. -/
theorem exec_all (h : Shows s t) (ops : List VgaOp) :
    ∃ s', ops.foldlM VgaOp.exec s = some s' ∧ Shows s' (ops.foldl Terminal.step t) := by
  induction ops generalizing s t with
  | nil => exact ⟨s, rfl, h⟩
  | cons op ops ih =>
    obtain ⟨s₁, hop, h₁⟩ := h.exec op
    obtain ⟨s₂, hops, h₂⟩ := ih h₁
    refine ⟨s₂, ?_, h₂⟩
    rw [List.foldlM_cons, hop]
    exact hops

end Shows

/-- The cleared screen shows the blank terminal. -/
theorem shows_vgaInit (s : VgaState) : ∃ s', vgaInit s = some s' ∧ Shows s' Terminal.init := by
  obtain ⟨buf, hblank, hbuf⟩ := exists_blankCells { s with vgaColor := vgaMakeColor 7 0 }
    (a := 0) (n := vgaRows * vgaCols) (by decide)
  simp only [Nat.zero_add] at hblank hbuf
  refine ⟨vgaUpdateCursor ⟨buf, 0, 0, vgaMakeColor 7 0, s.ports⟩, ?_, Shows.updateCursor
    ⟨show 0 < 25 by decide, show 0 < 80 by decide, rfl, rfl, rfl, rfl, fun i j hi hj => ?_⟩⟩
  · simp only [vgaInit, vgaClear, hblank, Option.bind_eq_bind, Option.bind_some]
  · have hlt : i * 80 + j < vgaRows * vgaCols := by
      simp only [vgaRows, vgaCols]
      omega
    show buf (i * 80 + j) = vgaBlank (vgaMakeColor 7 0)
    rw [hbuf, if_pos ⟨Nat.zero_le _, hlt⟩]

/-- From `vga_init` on, every call returns (so that no cell outside the buffer is accessed), the
cursor stays on the screen, and the buffer is the part of the ideal terminal that ends with row 24
or with the greatest row reached, if that is larger. -/
theorem vga_shows_terminal (s₀ : VgaState) (ops : List VgaOp) :
    ∃ s t, (vgaInit s₀).bind (ops.foldlM VgaOp.exec) = some s ∧
      t = ops.foldl Terminal.step Terminal.init ∧
      s.vgaRow.toNat < vgaRows ∧ s.vgaCol.toNat < vgaCols ∧
      ∀ i j, i < vgaRows → j < vgaCols →
        s.vgaBuf (i * vgaCols + j) = t.cell (max 24 t.greatest - 24 + i) j := by
  obtain ⟨s₁, hinit, h₁⟩ := shows_vgaInit s₀
  obtain ⟨s, hops, h⟩ := h₁.exec_all ops
  exact ⟨s, _, by rw [hinit, Option.bind_some, hops], rfl, h.row_lt, h.col_lt, h.cells⟩

end Lightstreak
