import Lightstreak.Drivers.Vga
import Lightstreak.User.Shell

/-!
# The command on the screen (`userspace/shell/shell.c`, `kernel/drivers/vga.c`)

`readline` echoes what is typed and erases with the characters back, space, back. The terminal that
the screen is a part of is followed here as one long line of characters, row after row.

* `Terminal.Sound.print_eq`, `Terminal.Sound.erase_eq`: what a character and the erase sequence do
  to that line;
* `session_spec`: what the shell hands to the screen for a sequence of keys;
* `screenFollows_iff`: the screen shows the command buffer exactly if the row of the prompt was
  blank and no character is erased when the cursor is in the first column.
-/

namespace Lightstreak

open SysLib

/-! ## The terminal as one line -/

theorem toUInt8_vgaEntry (c color : UInt8) : (vgaEntry c color).toUInt8 = c := by
  have hhigh : (color.toUInt16 <<< 8).toUInt8 = 0 := by
    apply UInt8.toNat_inj.mp
    simp [Nat.shiftLeft_eq]
  rw [vgaEntry, UInt16.toUInt8_or, hhigh]
  simp

/-- The characters of the keyboard that are printed. -/
def isPrintable (c : UInt8) : Bool := 0x20 ≤ c ∧ c < 0x7F

/-- A printable character is no control character. -/
theorem ne_of_isPrintable {c : UInt8} (hc : isPrintable c = true) :
    c ≠ 0x0A ∧ c ≠ 0x0D ∧ c ≠ 0x09 ∧ c ≠ 0x08 := by
  refine ⟨?_, ?_, ?_, ?_⟩ <;> rintro rfl <;> exact absurd hc (by decide)

theorem isPrintable_prompt : ∀ c ∈ prompt, isPrintable c = true := by decide +kernel

theorem length_prompt : prompt.length = 15 := by decide +kernel

namespace Terminal

/-- The character in a cell, with the cells counted row after row. -/
def charAt (t : Terminal) (k : ℕ) : UInt8 := (t.cell (k / 80) (k % 80)).toUInt8

/-- The cell under the cursor. -/
def cursor (t : Terminal) : ℕ := t.row * 80 + t.col

/-- The cursor is inside its row, and there is nothing in the rows below. -/
structure Sound (t : Terminal) : Prop where
  /-- The cursor is in its row. -/
  col_lt : t.col < 80
  /-- The rows below are blank. -/
  blank : ∀ i j, t.row < i → (t.cell i j).toUInt8 = 0x20

variable {t : Terminal}

theorem Sound.col_eq (h : t.Sound) : t.col = t.cursor % 80 := by
  have := h.col_lt
  rw [cursor]
  omega

/-- A write changes one cell. -/
theorem charAt_put {col : ℕ} (hcol : col < 80) (entry : UInt16) :
    (t.put col entry).charAt = Function.update t.charAt (t.row * 80 + col) entry.toUInt8 := by
  funext k
  by_cases hk : k = t.row * 80 + col
  · have hrow : k / 80 = t.row := by omega
    have hcol' : k % 80 = col := by omega
    rw [← hk, Function.update_self]
    simp [charAt, put, hrow, hcol']
  · rw [Function.update_of_ne hk]
    by_cases hrow : k / 80 = t.row
    · have hcol' : k % 80 ≠ col := by omega
      simp [charAt, put, hrow, hcol']
    · simp [charAt, put, hrow]

theorem Sound.put (h : t.Sound) (col : ℕ) (entry : UInt16) : (t.put col entry).Sound := by
  refine ⟨h.col_lt, fun i j hi => ?_⟩
  have hi' : i ≠ t.row := Nat.ne_of_gt hi
  simp only [Terminal.put, Function.update_of_ne hi']
  exact h.blank i j hi

theorem Sound.setCol (h : t.Sound) {col : ℕ} (hcol : col < 80) : Sound { t with col := col } :=
  ⟨hcol, h.blank⟩

/-- A row that is entered for the first time is blank already. -/
theorem Sound.cell_newline (h : t.Sound) (i j : ℕ) :
    (t.newline.cell i j).toUInt8 = (t.cell i j).toUInt8 := by
  rw [newline_cell]
  split_ifs
  · by_cases hi : i = t.row + 1
    · rw [hi, Function.update_self, h.blank _ _ (Nat.lt_succ_self _)]
      exact toUInt8_vgaEntry 0x20 t.color
    · rw [Function.update_of_ne hi]
  · rfl

theorem Sound.newline (h : t.Sound) : t.newline.Sound := by
  refine ⟨show 0 < 80 by decide, fun i j hi => ?_⟩
  rw [h.cell_newline]
  exact h.blank i j (Nat.lt_of_succ_lt hi)

theorem Sound.goto (h : t.Sound) (col : ℕ) : (t.goto col).Sound := by
  rw [Terminal.goto]
  split_ifs with hcol
  · exact h.newline
  · exact h.setCol (Nat.not_le.mp hcol)

/-- Going to a column changes no cell. -/
theorem Sound.charAt_goto (h : t.Sound) (col : ℕ) : (t.goto col).charAt = t.charAt := by
  funext k
  rw [Terminal.goto]
  split_ifs
  · exact h.cell_newline _ _
  · rfl

/-- The column after the last one is the first of the next row. -/
theorem cursor_goto {col : ℕ} (hcol : col ≤ 80) : (t.goto col).cursor = t.row * 80 + col := by
  rw [Terminal.goto]
  split_ifs with hfull
  · have : col = 80 := Nat.le_antisymm hcol hfull
    simp only [cursor, newline]
    omega
  · rfl

/-- Every character keeps the terminal sound. -/
theorem Sound.putchar (h : t.Sound) (c : UInt8) : (t.putchar c).Sound := by
  unfold Terminal.putchar
  split_ifs
  · exact h.newline
  · exact h.setCol (by decide)
  · exact h.goto _
  · exact (h.put _ _).setCol (Nat.lt_of_le_of_lt (Nat.sub_le _ _) h.col_lt)
  · exact h
  · exact (h.put _ _).goto _

/-- Every output keeps the terminal sound. -/
theorem Sound.foldl_putchar (h : t.Sound) (out : List UInt8) :
    (out.foldl Terminal.putchar t).Sound := by
  induction out generalizing t with
  | nil => exact h
  | cons c out ih => exact ih (h.putchar c)

theorem Sound.foldl_step (h : t.Sound) (ops : List VgaOp) : (ops.foldl Terminal.step t).Sound := by
  induction ops generalizing t with
  | nil => exact h
  | cons op ops ih =>
    cases op with
    | putchar c => exact ih (h.putchar c)
    | setColor color => exact ih ⟨h.col_lt, h.blank⟩

theorem sound_init : Sound init := ⟨by decide, fun _ _ _ => toUInt8_vgaEntry _ _⟩

/-! ## Printing and erasing -/

/-- A character that is printed goes to the cell under the cursor. -/
theorem Sound.print_eq (h : t.Sound) {c : UInt8} (hc : isPrintable c = true) :
    (t.putchar c).charAt = Function.update t.charAt t.cursor c ∧
      (t.putchar c).cursor = t.cursor + 1 := by
  have hputchar : t.putchar c = (t.put t.col (vgaEntry c t.color)).goto (t.col + 1) := by
    obtain ⟨h₁, h₂, h₃, h₄⟩ := ne_of_isPrintable hc
    rw [Terminal.putchar, if_neg h₁, if_neg h₂, if_neg h₃, if_neg h₄]
  rw [hputchar, (h.put _ _).charAt_goto, charAt_put h.col_lt, toUInt8_vgaEntry,
    cursor_goto h.col_lt]
  exact ⟨rfl, rfl⟩

/-- A backspace blanks the cell before the cursor. -/
theorem putchar_back (hcol : 0 < t.col) :
    t.putchar 0x08 = { t.put (t.col - 1) (vgaBlank t.color) with col := t.col - 1 } := by
  rw [Terminal.putchar, if_neg (by decide), if_neg (by decide), if_neg (by decide), if_pos rfl,
    if_pos hcol]

/-- A backspace blanks the cell before the cursor. -/
theorem Sound.back_eq (h : t.Sound) (hcol : 0 < t.col) :
    (t.putchar 0x08).charAt = Function.update t.charAt (t.cursor - 1) 0x20 ∧
      (t.putchar 0x08).cursor = t.cursor - 1 := by
  have hlt := h.col_lt
  have hcell : t.row * 80 + (t.col - 1) = t.cursor - 1 := by
    rw [cursor]
    omega
  have hput : (t.put (t.col - 1) (vgaBlank t.color)).charAt = _ :=
    charAt_put (show t.col - 1 < 80 by omega) (vgaBlank t.color)
  rw [hcell, vgaBlank, toUInt8_vgaEntry] at hput
  rw [putchar_back hcol]
  exact ⟨hput, hcell⟩

/-- A backspace in the first column does nothing. -/
theorem putchar_back_of_first (hcol : t.col = 0) : t.putchar 0x08 = t := by
  rw [Terminal.putchar, if_neg (by decide), if_neg (by decide), if_neg (by decide), if_pos rfl,
    if_neg (by omega)]

/-- Back, space, back: the cell before the cursor is blanked, and the cursor goes there. -/
theorem Sound.erase_eq (h : t.Sound) (hcol : 0 < t.col) :
    ([0x08, 0x20, 0x08].foldl Terminal.putchar t).charAt =
        Function.update t.charAt (t.cursor - 1) 0x20 ∧
      ([0x08, 0x20, 0x08].foldl Terminal.putchar t).cursor = t.cursor - 1 := by
  obtain ⟨hchar₁, hcursor₁⟩ := h.back_eq hcol
  obtain ⟨hchar₂, hcursor₂⟩ := (h.putchar 0x08).print_eq (c := 0x20) (by decide)
  -- The space brings the cursor back to the column it came from, which is not the first.
  have hback : ((t.putchar 0x08).putchar 0x20).cursor = t.cursor := by
    rw [hcursor₂, hcursor₁, cursor]
    omega
  have hcol₂ : 0 < ((t.putchar 0x08).putchar 0x20).col := by
    rwa [((h.putchar _).putchar _).col_eq, hback, ← h.col_eq]
  obtain ⟨hchar₃, hcursor₃⟩ := ((h.putchar 0x08).putchar 0x20).back_eq hcol₂
  refine ⟨hchar₃.trans ?_, hcursor₃.trans (by rw [hback])⟩
  rw [hback, hchar₂, hchar₁, hcursor₁, Function.update_idem, Function.update_idem]

/-- In the first column the sequence leaves the cursor where it is. -/
theorem Sound.cursor_erase_of_first (h : t.Sound) (hcol : t.col = 0) :
    ([0x08, 0x20, 0x08].foldl Terminal.putchar t).cursor = t.cursor := by
  obtain ⟨-, hcursor⟩ := h.print_eq (c := 0x20) (by decide)
  have hcol' : 0 < (t.putchar 0x20).col := by
    rw [(h.putchar _).col_eq, hcursor, cursor, hcol]
    omega
  rw [List.foldl_cons, putchar_back_of_first hcol]
  exact ((h.putchar 0x20).back_eq hcol').2.trans (by rw [hcursor]; rfl)

/-! ## The text behind a cell -/

/-- From the cell `start` on the terminal shows a text and then blanks, and the cursor is behind the
text. -/
structure ShowsFrom (t : Terminal) (start : ℕ) (text : List UInt8) : Prop where
  /-- The cursor is behind the text. -/
  cursor : t.cursor = start + text.length
  /-- The cells from `start` on show the text, and blanks behind it. -/
  chars : ∀ k, start ≤ k → t.charAt k = text.getD (k - start) 0x20

variable {start : ℕ} {text : List UInt8}

/-- A printable character is shown at the end. -/
theorem ShowsFrom.print (hshows : t.ShowsFrom start text) (h : t.Sound) {c : UInt8}
    (hc : isPrintable c = true) : (t.putchar c).ShowsFrom start (text ++ [c]) := by
  obtain ⟨hchar, hcursor⟩ := h.print_eq hc
  have hlen := hshows.cursor
  refine ⟨by rw [hcursor, hlen, List.length_append]; rfl, fun k hk => ?_⟩
  rw [hchar]
  by_cases hlast : k = t.cursor
  · rw [hlast, Function.update_self, hlen, Nat.add_sub_cancel_left]
    simp
  · -- The other cells and the other characters are as before.
    rw [Function.update_of_ne hlast, hshows.chars k hk]
    have hne : k - start ≠ text.length := by omega
    grind

/-- The echo of an erasing key removes the last character. -/
theorem ShowsFrom.erase (hshows : t.ShowsFrom start text) (h : t.Sound) (hcol : 0 < t.col)
    (htext : text ≠ []) :
    ([0x08, 0x20, 0x08].foldl Terminal.putchar t).ShowsFrom start text.dropLast := by
  obtain ⟨hchar, hcursor⟩ := h.erase_eq hcol
  have hlen := hshows.cursor
  have hpos := List.length_pos_of_ne_nil htext
  refine ⟨by rw [hcursor, hlen, List.length_dropLast]; omega, fun k hk => ?_⟩
  rw [hchar]
  by_cases hlast : k = t.cursor - 1
  · -- The blank is behind the text that is left.
    rw [hlast, Function.update_self]
    grind
  · rw [Function.update_of_ne hlast, hshows.chars k hk]
    have hne : k - start ≠ text.length - 1 := by omega
    grind

/-- Characters that are printed leave what is behind them as it is. -/
theorem Sound.print_all (h : t.Sound) {out : List UInt8}
    (hout : ∀ c ∈ out, isPrintable c = true) :
    (out.foldl Terminal.putchar t).cursor = t.cursor + out.length ∧
      ∀ k, t.cursor + out.length ≤ k → (out.foldl Terminal.putchar t).charAt k = t.charAt k := by
  induction out generalizing t with
  | nil => exact ⟨rfl, fun _ _ => rfl⟩
  | cons c out ih =>
    obtain ⟨hchar, hcursor⟩ := h.print_eq (hout c List.mem_cons_self)
    obtain ⟨hend, hrest⟩ := ih (h.putchar c) fun c' hc' => hout c' (List.mem_cons_of_mem _ hc')
    rw [hcursor] at hend hrest
    rw [List.foldl_cons, List.length_cons]
    refine ⟨by omega, fun k hk => ?_⟩
    rw [hrest k (by omega), hchar, Function.update_of_ne (by omega)]

/-- The cells behind a prompt in a row that is blank there. -/
theorem Sound.showsFrom_prompt (h : t.Sound) (hcol : t.col = 0)
    (hblank : ∀ j, 15 ≤ j → j < 80 → t.charAt (t.row * 80 + j) = 0x20) :
    (prompt.foldl Terminal.putchar t).ShowsFrom (t.row * 80 + 15) [] := by
  have hstart : t.cursor = t.row * 80 := by rw [cursor, hcol, Nat.add_zero]
  obtain ⟨hcursor, hrest⟩ := h.print_all isPrintable_prompt
  rw [length_prompt, hstart] at hcursor hrest
  refine ⟨hcursor, fun k hk => ?_⟩
  rw [hrest k hk, List.getD_nil]
  by_cases hrow : k / 80 = t.row
  · have hk' : k = t.row * 80 + k % 80 := by omega
    rw [hk']
    exact hblank _ (by omega) (by omega)
  · exact h.blank _ _ (by omega)

end Terminal

/-! ## What the shell prints -/

section Session

variable {P : Type} [DecidableEq P]

/-- The shell prints its prompt and reads keys. -/
def session (env : User.Env) (s : Shell P) (keys : List UInt8) : Option (Shell P) := do
  let (_, k) ← printPrompt env s.kernel
  let (_, s) ← feed (readlineStep env) { s with kernel := k, pos := 0 } keys
  return s

/-- The characters echoed for a key, with `text` in the buffer. -/
def echoKey (text : List UInt8) (key : UInt8) : List UInt8 :=
  if isErase key then if text = [] then [] else [0x08, 0x20, 0x08] else [key]

/-- The characters echoed for a sequence of keys. -/
def echoed (keys : List UInt8) : List UInt8 :=
  (keys.foldl (fun r key => (editKey isErase r.1 key, r.2 ++ echoKey r.1 key)) ([], [])).2

/-- The echo of one more key. -/
theorem echoed_concat (keys : List UInt8) (key : UInt8) :
    echoed (keys ++ [key]) = echoed keys ++ echoKey (edited isErase keys) key := by
  have hfst : ∀ keys : List UInt8, (keys.foldl (fun r key =>
      (editKey isErase r.1 key, r.2 ++ echoKey r.1 key)) (([], []) : List UInt8 × List UInt8)).1 =
      edited isErase keys := by
    intro keys
    induction keys using List.reverseRecOn with
    | nil => rfl
    | append_singleton keys key ih =>
      rw [List.foldl_append, List.foldl_cons, List.foldl_nil, ih, edited_concat]
  rw [echoed, List.foldl_append, List.foldl_cons, List.foldl_nil, hfst, echoed]

/-- A key that is printed or erases, at a place where the buffer has room. -/
theorem readlineStep_key {s : Shell P} (env : User.Env) {key : UInt8} (hpos : s.pos < 255)
    (hkey : isEnter key = false) (hroom : (editKey isErase s.text key).length < 255) :
    ∃ s', readlineStep env s key = some (none, s') ∧ s'.pos < 255 ∧
      s'.text = editKey isErase s.text key ∧
      s'.kernel.files.console = s.kernel.files.console ++ echoKey s.text key := by
  have hlen : s.text.length = s.pos := length_bufText _ _
  -- The key erases nothing, erases, or is added. It neither ends the line nor fills the buffer.
  obtain ⟨henter, -⟩ | ⟨-, herase, hzero, hstep⟩ | ⟨-, herase, hzero, hstep⟩ |
    ⟨-, herase, -, hstep⟩ | ⟨-, herase, hfull, -⟩ := readlineStep_cases env hpos key
  · exact absurd henter (by simp [hkey])
  · have hnil : s.text = [] := List.length_eq_zero_iff.mp (hlen.trans hzero)
    refine ⟨s, hstep, hpos, ?_, ?_⟩
    · simp [editKey, herase, hnil]
    · simp [echoKey, herase, hnil]
  · have hne : s.text ≠ [] := List.ne_nil_of_length_pos (hlen ▸ hzero)
    refine ⟨_, hstep, Nat.lt_of_le_of_lt (Nat.sub_le _ _) hpos, ?_, ?_⟩
    · rw [editKey, if_pos herase]
      exact bufText_pred _ _
    · rw [echoKey, if_pos herase, if_neg hne]
      rfl
  · refine ⟨_, hstep, ?_, (editKey_text herase).symm, ?_⟩
    · rwa [editKey_text herase, length_bufText] at hroom
    · rw [echoKey, if_neg (by simp [herase])]
      rfl
  · rw [editKey_text herase, length_bufText] at hroom
    exact absurd hroom (by omega)

/-- Keys for which `readline` does not return. -/
theorem feed_keys (env : User.Env) {s : Shell P} (hpos : s.pos = 0) {keys : List UInt8}
    (hkeys : ∀ key ∈ keys, isEnter key = false)
    (hlen : ∀ p, p <+: keys → (edited isErase p).length < 255) :
    ∃ outs s', feed (readlineStep env) s keys = some (outs, s') ∧ s'.pos < 255 ∧
      s'.text = edited isErase keys ∧
      s'.kernel.files.console = s.kernel.files.console ++ echoed keys := by
  -- The induction adds keys at the end, since the text is what the keys before have left.
  induction keys using List.reverseRecOn with
  | nil => exact ⟨[], s, rfl, by omega, by rw [Shell.text, hpos]; rfl, by simp [echoed]⟩
  | append_singleton keys key ih =>
    obtain ⟨outs, s₁, hfeed, hpos₁, htext₁, hconsole₁⟩ :=
      ih (fun k hk => hkeys k (List.mem_append_left _ hk))
        fun p hp => hlen p (hp.trans (List.prefix_append _ _))
    have hroom := hlen _ List.prefix_rfl
    rw [edited_concat, ← htext₁] at hroom
    obtain ⟨s', hstep, hpos', htext', hconsole'⟩ :=
      readlineStep_key env hpos₁ (hkeys key (by simp)) hroom
    refine ⟨_, s', feed_concat_of_some hfeed hstep, hpos', ?_, ?_⟩
    · rw [htext', htext₁, edited_concat]
    · rw [hconsole', hconsole₁, htext₁, echoed_concat, List.append_assoc]

/-- The buffer then holds the edited line, and the screen was given the prompt and the echo. -/
theorem session_spec (env : User.Env) (s : Shell P) {keys : List UInt8}
    (hkeys : ∀ key ∈ keys, isEnter key = false)
    (hlen : ∀ p, p <+: keys → (edited isErase p).length < 255) :
    ∃ s', session env s keys = some s' ∧ s'.text = edited isErase keys ∧
      s'.kernel.files.console = s.kernel.files.console ++ (prompt ++ echoed keys) := by
  obtain ⟨outs, s', hfeed, -, htext, hconsole⟩ := feed_keys env
    (s := { s with kernel := User.printed s.kernel prompt, pos := 0 }) rfl hkeys hlen
  have hshown : (User.printed s.kernel prompt).files.console = s.kernel.files.console ++ prompt :=
    rfl
  refine ⟨s', ?_, htext, by rw [hconsole, hshown, List.append_assoc]⟩
  simp only [session, printPrompt_console, Option.bind_eq_bind, Option.bind_some, hfeed,
    Option.pure_def]

end Session

/-! ## The screen -/

/-- The screen `v` is a part of the terminal `t`. As far as they are on the screen, the cells from
`start` on show a text and then blanks, and the cursor is behind the text. -/
structure ShowsText (v : VgaState) (t : Terminal) (start : ℕ) (text : List UInt8) : Prop where
  /-- The cursor is behind the text. -/
  cursor : t.top * 80 + v.pos = start + text.length
  /-- The cells of the screen from `start` on show the text, and blanks behind it. -/
  chars : ∀ i < 2000, start ≤ t.top * 80 + i →
    (v.vgaBuf i).toUInt8 = text.getD (t.top * 80 + i - start) 0x20

namespace Shows

variable {v : VgaState} {t : Terminal}

theorem charAt (h : Shows v t) {i : ℕ} (hi : i < 2000) :
    (v.vgaBuf i).toUInt8 = t.charAt (t.top * 80 + i) := by
  have hcell := h.cells (i / 80) (i % 80) (by omega) (by omega)
  rw [show i / 80 * 80 + i % 80 = i by omega] at hcell
  rw [hcell, Terminal.charAt, show (t.top * 80 + i) / 80 = t.top + i / 80 by omega,
    show (t.top * 80 + i) % 80 = i % 80 by omega]

theorem cursor (h : Shows v t) : t.top * 80 + v.pos = t.cursor := by
  rw [VgaState.pos, vgaCols, Terminal.cursor, h.row, h.col]
  omega

/-- What the terminal shows is on the screen. -/
theorem showsText (h : Shows v t) {start : ℕ} {text : List UInt8} (ht : t.ShowsFrom start text) :
    ShowsText v t start text := by
  refine ⟨h.cursor.trans ht.cursor, fun i hi hstart => ?_⟩
  rw [h.charAt hi]
  exact ht.chars _ hstart

/-- Characters that are handed to `vga_putchar`. -/
theorem putchars (h : Shows v t) (out : List UInt8) :
    ∃ v', out.foldlM vgaPutchar v = some v' ∧ Shows v' (out.foldl Terminal.putchar t) := by
  obtain ⟨v', hv', h'⟩ := h.exec_all (out.map VgaOp.putchar)
  rw [List.foldlM_map] at hv'
  rw [List.foldl_map] at h'
  exact ⟨v', hv', h'⟩

end Shows

/-- If the screen shows blanks behind a prompt, they were there before. -/
theorem Terminal.Sound.blank_of_prompt {v : VgaState} {t : Terminal} (h : t.Sound)
    (hcol : t.col = 0) (hv : Shows v (prompt.foldl Terminal.putchar t))
    (hshows : ShowsText v (prompt.foldl Terminal.putchar t) (t.row * 80 + 15) []) {j : ℕ}
    (hj : 15 ≤ j) (hj' : j < 80) : t.charAt (t.row * 80 + j) = 0x20 := by
  have hsound := h.foldl_putchar prompt
  obtain ⟨hcursor, hrest⟩ := h.print_all isPrintable_prompt
  generalize prompt.foldl Terminal.putchar t = t' at hv hshows hsound hcursor hrest
  rw [length_prompt, Terminal.cursor, Terminal.cursor, hcol] at hcursor
  rw [length_prompt, Terminal.cursor, hcol] at hrest
  have hlt := hsound.col_lt
  have hrow := hv.row
  have hrow_lt := hv.row_lt
  -- The cursor is still in the same row.
  have hcell : t'.top * 80 + (v.vgaRow.toNat * 80 + j) = t.row * 80 + j := by omega
  rw [← hrest _ (by omega), ← hcell, ← hv.charAt (by omega),
    hshows.chars _ (by omega) (by omega), List.getD_nil]

/-- A printed key ends no line and erases nothing. -/
theorem isErase_of_isPrintable {key : UInt8} (hkey : isPrintable key = true) :
    isErase key = false := by
  by_contra herase
  simp only [isErase, Bool.not_eq_false, decide_eq_true_eq] at herase
  rcases herase with rfl | rfl <;> revert hkey <;> decide

/-- Keys that edit the line do not end it. -/
theorem isEnter_of_key {key : UInt8} (hkey : isPrintable key = true ∨ isErase key = true) :
    isEnter key = false := by
  by_contra henter
  simp only [isEnter, Bool.not_eq_false, decide_eq_true_eq] at henter
  rcases henter with rfl | rfl <;> revert hkey <;> decide

/-- A key that erases a character when the cursor is in the first column. -/
def EraseAtWrap (keys : List UInt8) : Prop :=
  ∃ p key, p ++ [key] <+: keys ∧ isErase key = true ∧ edited isErase p ≠ [] ∧
    (15 + (edited isErase p).length) % 80 = 0

/-- As long as nothing is erased at the start of a row, the terminal shows the edited line. -/
theorem showsFrom_echoed {t : Terminal} (h : t.Sound) (hcol : t.col = 0)
    (hblank : ∀ j, 15 ≤ j → j < 80 → t.charAt (t.row * 80 + j) = 0x20) {keys : List UInt8}
    (hkeys : ∀ key ∈ keys, isPrintable key = true ∨ isErase key = true)
    (hwrap : ¬EraseAtWrap keys) :
    ((prompt ++ echoed keys).foldl Terminal.putchar t).ShowsFrom (t.row * 80 + 15)
      (edited isErase keys) := by
  induction keys using List.reverseRecOn with
  | nil =>
    rw [show prompt ++ echoed [] = prompt from List.append_nil _]
    exact h.showsFrom_prompt hcol hblank
  | append_singleton keys key ih =>
    have hwrap' : ¬EraseAtWrap keys := by
      rintro ⟨p, k, hp, hrest⟩
      exact hwrap ⟨p, k, hp.trans (List.prefix_append _ _), hrest⟩
    have hshows := ih (fun k hk => hkeys k (List.mem_append_left _ hk)) hwrap'
    have hsound := h.foldl_putchar (prompt ++ echoed keys)
    rw [echoed_concat, ← List.append_assoc, List.foldl_append, edited_concat, echoKey, editKey]
    rcases hkeys key (by simp) with hkey | hkey
    · -- A printed key goes to the buffer and to the cell under the cursor.
      rw [if_neg (by simp [isErase_of_isPrintable hkey]),
        if_neg (by simp [isErase_of_isPrintable hkey]), List.foldl_cons, List.foldl_nil]
      exact hshows.print hsound hkey
    · rw [if_pos hkey, if_pos hkey]
      by_cases hnil : edited isErase keys = []
      · rw [hnil] at hshows
        rwa [if_pos hnil, hnil, List.foldl_nil]
      · -- The cursor is not in the first column, since nothing is erased at the start of a row.
        rw [if_neg hnil]
        refine hshows.erase hsound (Nat.pos_of_ne_zero fun hzero => hwrap ?_) hnil
        refine ⟨keys, key, List.prefix_rfl, hkey, hnil, ?_⟩
        have hcursor := hshows.cursor
        rw [hsound.col_eq, hcursor] at hzero
        omega

/-- At the start of a row the erase sequence does not move the cursor, while the text loses a
character. -/
theorem cursor_ne_of_eraseAtWrap {t : Terminal} (h : t.Sound) {p : List UInt8} {key : UInt8}
    (hkey : isErase key = true) (hne : edited isErase p ≠ [])
    (hmod : (15 + (edited isErase p).length) % 80 = 0)
    (hcursor : ((prompt ++ echoed p).foldl Terminal.putchar t).cursor =
      t.row * 80 + 15 + (edited isErase p).length) :
    ((prompt ++ echoed (p ++ [key])).foldl Terminal.putchar t).cursor ≠
      t.row * 80 + 15 + (edited isErase (p ++ [key])).length := by
  have hsound := h.foldl_putchar (prompt ++ echoed p)
  have hpos := List.length_pos_of_ne_nil hne
  have hfirst : ((prompt ++ echoed p).foldl Terminal.putchar t).col = 0 := by
    rw [hsound.col_eq, hcursor]
    omega
  rw [echoed_concat, ← List.append_assoc, List.foldl_append, echoKey, if_pos hkey, if_neg hne,
    hsound.cursor_erase_of_first hfirst, hcursor, edited_concat, editKey, if_pos hkey,
    List.length_dropLast]
  omega

section Screen

variable {P : Type} [DecidableEq P]

/-- What is on the screen is what will be run. The prompt is printed on the screen `v`, a part of
the terminal `t`, and the keys are read: then the cells behind the prompt show the contents of the
command buffer and then blanks, and the cursor is behind the contents. -/
def ScreenFollows (v : VgaState) (t : Terminal) (env : User.Env) (s : Shell P)
    (keys : List UInt8) : Prop :=
  ∃ s' out v', session env s keys = some s' ∧
    s'.kernel.files.console = s.kernel.files.console ++ out ∧
    out.foldlM vgaPutchar v = some v' ∧
    ShowsText v' (out.foldl Terminal.putchar t) (t.row * 80 + prompt.length) s'.text

/-- The shell hands the prompt and the echo to the screen. -/
theorem screenFollows_iff_showsText {v : VgaState} {t : Terminal} (h : Shows v t) (env : User.Env)
    (s : Shell P) {keys : List UInt8} (hkeys : ∀ key ∈ keys, isEnter key = false)
    (hlen : ∀ p, p <+: keys → (edited isErase p).length < 255) :
    ∃ v', Shows v' ((prompt ++ echoed keys).foldl Terminal.putchar t) ∧
      (ScreenFollows v t env s keys ↔
        ShowsText v' ((prompt ++ echoed keys).foldl Terminal.putchar t) (t.row * 80 + 15)
          (edited isErase keys)) := by
  obtain ⟨s', hsession, htext, hconsole⟩ := session_spec env s hkeys hlen
  obtain ⟨v', hv', h'⟩ := h.putchars (prompt ++ echoed keys)
  refine ⟨v', h', ?_, fun hshows => ?_⟩
  · -- What the shell prints and what the driver does with it are determined.
    rintro ⟨s'', out, v'', hsession', hconsole', hv'', hshows⟩
    obtain rfl := Option.some.inj (hsession.symm.trans hsession')
    obtain rfl := List.append_cancel_left (hconsole'.symm.trans hconsole)
    obtain rfl := Option.some.inj (hv'.symm.trans hv'')
    rwa [length_prompt, htext] at hshows
  · refine ⟨s', _, v', hsession, hconsole, hv', ?_⟩
    rwa [length_prompt, htext]

/-- A call sequence from `vga_init` on leaves the screen a part of the terminal. -/
theorem shows_of_exec {v₀ v : VgaState} {ops : List VgaOp}
    (hv : (vgaInit v₀).bind (ops.foldlM VgaOp.exec) = some v) :
    Shows v (ops.foldl Terminal.step Terminal.init) := by
  obtain ⟨v₁, hinit, h₁⟩ := shows_vgaInit v₀
  obtain ⟨v', hops, h⟩ := h₁.exec_all ops
  rw [hinit, Option.bind_some, hops] at hv
  exact Option.some.inj hv ▸ h

/-- The prompt is printed at the start of a row, and the keys are read. While they are, the screen
shows the command buffer exactly if the row was blank behind the place of the prompt, and no
character is erased when the text ends with a row: the backspace does not go back to the row
above. -/
theorem screenFollows_iff {v₀ v : VgaState} {ops : List VgaOp}
    (hv : (vgaInit v₀).bind (ops.foldlM VgaOp.exec) = some v) (hcol : v.vgaCol = 0)
    (env : User.Env) (s : Shell P) {keys : List UInt8}
    (hkeys : ∀ key ∈ keys, isPrintable key = true ∨ isErase key = true)
    (hlen : ∀ p, p <+: keys → (edited isErase p).length ≤ 254) :
    (∀ p, p <+: keys → ScreenFollows v (ops.foldl Terminal.step Terminal.init) env s p) ↔
      (∀ j, 15 ≤ j → j < 80 → (v.vgaBuf (v.vgaRow.toNat * 80 + j)).toUInt8 = 0x20) ∧
        ¬EraseAtWrap keys := by
  have h := shows_of_exec hv
  have hsound := Terminal.sound_init.foldl_step ops
  generalize ops.foldl Terminal.step Terminal.init = t at h hsound ⊢
  have htcol : t.col = 0 := by
    rw [h.col, hcol]
    rfl
  -- The row of the cursor, on the screen and on the terminal.
  have hrow : ∀ j < 80, (v.vgaBuf (v.vgaRow.toNat * 80 + j)).toUInt8 =
      t.charAt (t.row * 80 + j) := by
    intro j hj
    have := h.row_lt
    have hcell : t.top * 80 + (v.vgaRow.toNat * 80 + j) = t.row * 80 + j := by
      rw [h.row]
      omega
    rw [h.charAt (by omega), hcell]
  have hfollows : ∀ p, p <+: keys → ∃ v', Shows v' ((prompt ++ echoed p).foldl Terminal.putchar t) ∧
      (ScreenFollows v t env s p ↔ ShowsText v' ((prompt ++ echoed p).foldl Terminal.putchar t)
        (t.row * 80 + 15) (edited isErase p)) := fun p hp =>
    screenFollows_iff_showsText h env s
      (fun key hkey => isEnter_of_key (hkeys key (hp.subset hkey)))
      fun q hq => Nat.lt_succ_of_le (hlen q (hq.trans hp))
  constructor
  · intro hall
    constructor
    · intro j hj hj'
      -- Before the first key nothing but the prompt has been printed.
      obtain ⟨v', h', hiff⟩ := hfollows [] List.nil_prefix
      have hshows := hiff.mp (hall [] List.nil_prefix)
      rw [show prompt ++ echoed [] = prompt from List.append_nil _] at h' hshows
      rw [hrow j hj']
      exact hsound.blank_of_prompt htcol h' hshows hj hj'
    · rintro ⟨p, key, hp, hkey, hne, hmod⟩
      have hp' : p <+: keys := (List.prefix_append p [key]).trans hp
      obtain ⟨v₁, h₁, hiff₁⟩ := hfollows p hp'
      obtain ⟨v₂, h₂, hiff₂⟩ := hfollows _ hp
      have hcursor₁ := h₁.cursor.symm.trans (hiff₁.mp (hall p hp')).cursor
      have hcursor₂ := h₂.cursor.symm.trans (hiff₂.mp (hall _ hp)).cursor
      exact cursor_ne_of_eraseAtWrap hsound hkey hne hmod hcursor₁ hcursor₂
  · rintro ⟨hblank, hwrap⟩ p hp
    obtain ⟨v', h', hiff⟩ := hfollows p hp
    refine hiff.mpr (h'.showsText ?_)
    apply showsFrom_echoed hsound htcol
    · intro j hj hj'
      rw [← hrow j hj']
      exact hblank j hj hj'
    · intro key hkey
      exact hkeys key (hp.subset hkey)
    · rintro ⟨q, key, hq, hrest⟩
      exact hwrap ⟨q, key, hq.trans hp, hrest⟩

end Screen

/-- The screen before `vga_init`. -/
def vgaAtBoot : VgaState := ⟨fun _ => 0, 0, 0, 0, []⟩

/-- A cleared screen is blank, with the cursor in the first cell. -/
theorem exists_vgaInit :
    ∃ v, vgaInit vgaAtBoot = some v ∧ Shows v Terminal.init ∧ v.vgaCol = 0 := by
  obtain ⟨v, hinit, h⟩ := shows_vgaInit vgaAtBoot
  exact ⟨v, hinit, h, UInt8.toNat_inj.mp h.col.symm⟩

/-- On a cleared screen, `ls` and a backspace. -/
theorem screenFollows_iff_ls : ∃ v, (vgaInit vgaAtBoot).bind ([].foldlM VgaOp.exec) = some v ∧
    v.vgaCol = 0 ∧ ∀ p, p <+: [108, 115, 8] →
      ScreenFollows v ([].foldl Terminal.step Terminal.init) shellEnv shellStart p := by
  obtain ⟨v, hinit, h, hcol⟩ := exists_vgaInit
  have hv : (vgaInit vgaAtBoot).bind ([].foldlM VgaOp.exec) = some v := by
    rw [hinit]
    rfl
  have hkeys : ∀ key ∈ [108, 115, 8], isPrintable key = true ∨ isErase key = true := by
    simp [isPrintable, isErase]
  have hlen : ∀ p ∈ List.inits [108, 115, 8], (edited isErase p).length ≤ 2 := by decide
  refine ⟨v, hv, hcol, (screenFollows_iff hv hcol shellEnv shellStart hkeys fun p hp => ?_).mpr
    ⟨fun j _ hj => ?_, ?_⟩⟩
  · exact (hlen p ((List.mem_inits p _).mpr hp)).trans (by decide)
  · have := h.row_lt
    rw [h.charAt (by omega)]
    exact toUInt8_vgaEntry _ _
  · rintro ⟨p, key, hp, -, -, hmod⟩
    have := hlen p ((List.mem_inits p _).mpr ((List.prefix_append p [key]).trans hp))
    omega

/-- On a cleared screen, 65 letters fill the row of the prompt. A backspace then takes the last one
from the buffer, but it stays on the screen. -/
theorem not_screenFollows_fullRow : ∃ v, vgaInit vgaAtBoot = some v ∧ v.vgaCol = 0 ∧
    ¬ScreenFollows v Terminal.init shellEnv shellStart (List.replicate 65 97 ++ [8]) := by
  obtain ⟨v, hinit, h, hcol⟩ := exists_vgaInit
  refine ⟨v, hinit, hcol, fun hfollows => ?_⟩
  have hkeys : ∀ key ∈ List.replicate 65 97 ++ [8], isEnter key = false := by
    simp [isEnter]
  have hlen : ∀ p ∈ List.inits (List.replicate 65 97 ++ [8]), (edited isErase p).length < 255 := by
    decide +kernel
  obtain ⟨v', h', hiff⟩ := screenFollows_iff_showsText h shellEnv shellStart hkeys
    fun p hp => hlen p ((List.mem_inits p _).mpr hp)
  -- Before the backspace the screen is in step, and the cursor is at the start of the second row.
  have hletters : ¬EraseAtWrap (List.replicate 65 97) := by
    rintro ⟨p, key, hp, hkey, -⟩
    have hmem : key ∈ List.replicate 65 97 := hp.subset (List.mem_append_right p (by simp))
    rw [List.eq_of_mem_replicate hmem] at hkey
    exact absurd hkey (by decide)
  have hbefore := showsFrom_echoed Terminal.sound_init rfl (fun _ _ _ => toUInt8_vgaEntry _ _)
    (show ∀ key ∈ List.replicate 65 97, isPrintable key = true ∨ isErase key = true by
      simp [isPrintable]) hletters
  exact cursor_ne_of_eraseAtWrap Terminal.sound_init (by decide) (by decide +kernel)
    (by decide +kernel) hbefore.cursor (h'.cursor.symm.trans (hiff.mp hfollows).cursor)

end Lightstreak
