import Lightstreak.User.Typing

/-!
# Clearing the screen (`cmd_clear` of `userspace/shell/shell.c`)

`clear` has no way to tell the driver to clear the screen. It prints 2000 spaces and a carriage
return, from wherever the cursor is.

* `Terminal.Sound.charAt_print`: where printed characters go on the terminal;
* `clear_shows_prompt`: at any point of a session, after `clear` the screen shows the prompt in its
  last row and nothing else.
-/

namespace Lightstreak

open SysLib

namespace Terminal

variable {t : Terminal} {out : List UInt8}

/-- Printed characters fill the cells from the cursor on. -/
theorem Sound.charAt_print (h : t.Sound) (hout : ∀ c ∈ out, isPrintable c = true) (k : ℕ) :
    (out.foldl Terminal.putchar t).charAt k =
      if t.cursor ≤ k ∧ k < t.cursor + out.length then out.getD (k - t.cursor) 0x20
      else t.charAt k := by
  induction out generalizing t with
  | nil => exact (if_neg (by simp)).symm
  | cons c out ih =>
    obtain ⟨hchar, hcursor⟩ := h.print_eq (hout c List.mem_cons_self)
    rw [List.foldl_cons, ih (h.putchar c) fun c' hc' => hout c' (List.mem_cons_of_mem c hc'),
      hcursor, hchar, List.length_cons]
    rcases Nat.lt_trichotomy k t.cursor with hk | rfl | hk
    · rw [if_neg (by omega), if_neg (by omega), Function.update_of_ne (by omega)]
    · rw [if_neg (by omega), if_pos (by omega), Function.update_self, Nat.sub_self]
      rfl
    · -- Behind the first character, the others are one place further.
      obtain ⟨j, rfl⟩ : ∃ j, k = t.cursor + 1 + j := ⟨k - (t.cursor + 1), by omega⟩
      rw [Function.update_of_ne (by omega), show t.cursor + 1 + j - (t.cursor + 1) = j by omega,
        show t.cursor + 1 + j - t.cursor = j + 1 by omega, List.getD_cons_succ]
      exact if_congr (by omega) rfl rfl

theorem isPrintable_spaces : ∀ c ∈ List.replicate 2000 (0x20 : UInt8), isPrintable c = true := by
  intro c hc
  rw [List.eq_of_mem_replicate hc]
  decide

/-- A screenful of spaces leaves nothing behind the place where the cursor was. -/
theorem Sound.charAt_blanks (h : t.Sound) {k : ℕ} (hk : t.cursor ≤ k) :
    ((List.replicate 2000 0x20).foldl Terminal.putchar t).charAt k = 0x20 := by
  have hcol := h.col_lt
  rw [h.charAt_print isPrintable_spaces, List.length_replicate]
  split
  next hlt => rw [List.getD_replicate _ (by omega)]
  next hge =>
    -- The cells behind the spaces are in rows that were not reached before.
    have hrow : t.row < k / 80 := by
      rw [cursor] at hge hk
      omega
    exact h.blank _ _ hrow

/-- The cursor is then 25 rows further down. -/
theorem Sound.row_blanks (h : t.Sound) :
    ((List.replicate 2000 0x20).foldl Terminal.putchar t).row = t.row + 25 := by
  obtain ⟨hcursor, -⟩ := h.print_all isPrintable_spaces
  have hcol := (h.foldl_putchar (List.replicate 2000 0x20)).col_lt
  have hcol' := h.col_lt
  rw [List.length_replicate, cursor, cursor] at hcursor
  omega

/-- The terminal after the spaces and the carriage return of `clear`. -/
def cleared (t : Terminal) : Terminal :=
  { (List.replicate 2000 0x20).foldl Terminal.putchar t with col := 0 }

theorem putchar_return (t : Terminal) : t.putchar 0x0D = { t with col := 0 } := by
  rw [Terminal.putchar, if_neg (by decide), if_pos rfl]

theorem charAt_setCol (t : Terminal) (col : ℕ) : charAt { t with col := col } = t.charAt := rfl

theorem Sound.cleared (h : t.Sound) : t.cleared.Sound := (h.foldl_putchar _).setCol (by decide)

theorem cursor_first (t : Terminal) : cursor { t with col := 0 } = t.row * 80 := rfl

/-- After clearing the cursor is 25 rows below. -/
theorem Sound.cursor_cleared (h : t.Sound) : t.cleared.cursor = (t.row + 25) * 80 := by
  rw [Terminal.cleared, cursor_first, h.row_blanks]

theorem foldl_return (t : Terminal) (out out' : List UInt8) :
    (out ++ ascii "\r" ++ out').foldl Terminal.putchar t =
      out'.foldl Terminal.putchar { out.foldl Terminal.putchar t with col := 0 } := by
  have hreturn : ascii "\r" = [0x0D] := by decide
  rw [hreturn, List.foldl_append, List.foldl_append, List.foldl_cons, List.foldl_nil,
    putchar_return]

theorem foldl_clearOutput (t : Terminal) :
    (User.clearOutput ++ prompt).foldl Terminal.putchar t =
      prompt.foldl Terminal.putchar t.cleared := foldl_return t _ prompt

/-- The prompt behind a cleared screen, with the cells counted from the row after the one in which
the cursor was. -/
theorem Sound.charAt_cleared (h : t.Sound) (i : ℕ) :
    (prompt.foldl Terminal.putchar t.cleared).charAt ((t.row + 1) * 80 + i) =
      if 24 * 80 ≤ i then prompt.getD (i - 24 * 80) 0x20 else 0x20 := by
  have hcol := h.col_lt
  have hblank : t.cleared.charAt ((t.row + 1) * 80 + i) = 0x20 := by
    rw [Terminal.cleared, charAt_setCol]
    exact h.charAt_blanks (by rw [cursor]; omega)
  rw [h.cleared.charAt_print isPrintable_prompt, h.cursor_cleared, hblank, length_prompt]
  by_cases hi : 24 * 80 ≤ i
  · rw [if_pos hi]
    split
    next => rw [show (t.row + 1) * 80 + i - (t.row + 25) * 80 = i - 24 * 80 by omega]
    next => rw [List.getD_eq_default _ _ (by rw [length_prompt]; omega)]
  · rw [if_neg hi, if_neg (by omega)]

end Terminal

/-- What `clear` and the next prompt leave on the screen. -/
theorem Shows.clear {v : VgaState} {t : Terminal} (h : Shows v t) (ht : t.Sound) :
    ∃ v', (User.clearOutput ++ prompt).foldlM vgaPutchar v = some v' ∧ v'.pos = 24 * 80 + 15 ∧
      ∀ i < 2000, (v'.vgaBuf i).toUInt8 =
        if 24 * 80 ≤ i then prompt.getD (i - 24 * 80) 0x20 else 0x20 := by
  obtain ⟨v', hv', h'⟩ := h.putchars (User.clearOutput ++ prompt)
  rw [Terminal.foldl_clearOutput] at h'
  obtain ⟨hcursor, -⟩ := ht.cleared.print_all isPrintable_prompt
  have hchar := ht.charAt_cleared
  have hcol := (ht.cleared.foldl_putchar prompt).col_lt
  generalize prompt.foldl Terminal.putchar t.cleared = t' at h' hcursor hchar hcol
  rw [length_prompt, ht.cursor_cleared, Terminal.cursor] at hcursor
  -- The screen begins one row below the one in which the cursor was.
  have htop : t'.top = t.row + 1 := by
    rw [Terminal.top, Terminal.bottom, h'.greatest, vgaRows]
    omega
  refine ⟨v', hv', ?_, fun i hi => ?_⟩
  · have := h'.cursor
    rw [Terminal.cursor, hcursor, htop] at this
    omega
  · rw [h'.charAt hi, htop, hchar]

namespace User

variable {P : Type} [DecidableEq P] (env : Env) {k : KernelState P} {q : List P} {c : P}

/-- The answer to the line `clear`. -/
theorem answer_clear (v : View) : answer v (ascii "clear") = clearOutput ++ prompt := by
  have hcommand : commandOf (ascii "clear") = .clear := by decide
  have hcstr : cstr (ascii "clear") = ascii "clear" := by decide
  rw [answer, if_neg (by decide), isExit, hcstr, output, hcommand]
  rfl

/-- `clear` at any point of a session, when the line is empty: the screen then shows the prompt in
its last row and nothing else, whatever was on it and wherever the cursor was, with the cursor
behind the prompt. -/
theorem clear_shows_prompt {v₀ v : VgaState} {ops : List VgaOp}
    (hv : (vgaInit v₀).bind (ops.foldlM VgaOp.exec) = some v) (hr : Ready env k q c)
    (hlive : k.halted = false) (cmd : ℕ → UInt8) {events : List ShellEvent} {w : View}
    (hline : UserState.after (some (view k q c, [])) events = some (w, [])) :
    ∃ s s' out v', start env k cmd = some s ∧
      (events ++ (ascii "clear" ++ [0x0A]).map .key).foldlM (Session.step env) s = some s' ∧
      s'.kernel.files.console = k.files.console ++ out ∧ out.foldlM vgaPutchar v = some v' ∧
      v'.pos = 24 * 80 + 15 ∧ ∀ i < 2000, (v'.vgaBuf i).toUInt8 =
        if 24 * 80 ≤ i then prompt.getD (i - 24 * 80) 0x20 else 0x20 := by
  obtain ⟨s, hstart, htracks, hwrote⟩ := start_spec env hr hlive cmd
  obtain ⟨s', hrun, -, hwrote'⟩ :=
    htracks.run env (events ++ (ascii "clear" ++ [0x0A]).map .key)
  -- What is printed ends with the spaces and the prompt.
  have hlast : transcript (some (w, [])) ((ascii "clear" ++ [0x0A]).map .key) =
      ascii "clear" ++ 0x0A :: (clearOutput ++ prompt) := by
    have hlines : ∀ l ∈ [ascii "clear"], Typeable l :=
      List.forall_mem_singleton.mpr (by decide)
    have h := (after_lines w hlines).2
    rwa [List.flatMap_singleton, List.flatMap_singleton, answer_clear] at h
  rw [transcript_append, hline, hlast] at hwrote'
  have hout := (hwrote.trans hwrote').console
  generalize transcript (some (view k q c, [])) events = shown at hout
  have hsplit : banner.flatten ++ prompt ++ (shown ++ (ascii "clear" ++
      0x0A :: (clearOutput ++ prompt))) = (banner.flatten ++ prompt ++ (shown ++ (ascii "clear" ++
        [0x0A]))) ++ (clearOutput ++ prompt) := by
    simp only [List.append_assoc, List.singleton_append]
  have h := shows_of_exec hv
  have hsound := Terminal.sound_init.foldl_step ops
  obtain ⟨v₁, hv₁, h₁⟩ := h.putchars (banner.flatten ++ prompt ++ (shown ++ (ascii "clear" ++
    [0x0A])))
  obtain ⟨v', hv', hpos, hchars⟩ := h₁.clear (hsound.foldl_putchar _)
  refine ⟨s, s', _, v', hstart, hrun, hout, ?_, hpos, hchars⟩
  rw [hsplit, List.foldlM_append, hv₁]
  exact hv'

/-- `clear` as the first command. -/
theorem clear_shows_prompt_first :
    ∃ v s s' out v', (vgaInit vgaAtBoot).bind ([].foldlM VgaOp.exec) = some v ∧
      start shellEnv readyKernel (fun _ => 0) = some s ∧
      ([] ++ (ascii "clear" ++ [0x0A]).map .key).foldlM (Session.step shellEnv) s = some s' ∧
      s'.kernel.files.console = readyKernel.files.console ++ out ∧
      out.foldlM vgaPutchar v = some v' ∧ v'.pos = 24 * 80 + 15 ∧
      ∀ i < 2000, (v'.vgaBuf i).toUInt8 =
        if 24 * 80 ≤ i then prompt.getD (i - 24 * 80) 0x20 else 0x20 := by
  obtain ⟨v, hinit, -, -⟩ := exists_vgaInit
  have hv : (vgaInit vgaAtBoot).bind ([].foldlM VgaOp.exec) = some v := by
    rw [hinit]
    rfl
  obtain ⟨s, s', out, v', hstart, hrun, hout, hv', hpos, hchars⟩ :=
    clear_shows_prompt shellEnv hv ready_readyKernel rfl (fun _ => 0)
      (show UserState.after _ [] = _ from rfl)
  exact ⟨v, s, s', out, v', hv, hstart, hrun, hout, hv', hpos, hchars⟩

end User

end Lightstreak
