import Mathlib.Data.List.ReduceOption
import Lightstreak.Lib.LineEdit
import Lightstreak.User.Syscalls

/-!
# Reading a command (`userspace/shell/shell.c`)

`readline` takes characters from descriptor 0, keeps them in the command buffer and echoes them to
descriptor 1. It makes its system calls through the same wrappers as the commands do
(`Lightstreak.User.Syscalls`), with one pass of its loop for each character that is typed.

* `readlineStep_cases`: what one character can do;
* `feed_readline`: successive calls are a reader of lines with a limit of 255 characters, which
  writes nothing but the command buffer;
* `oneCommandPerEnter_iff`: they return the lines of the stream exactly if no line reaches the
  limit.
-/

namespace Lightstreak

open SysLib

variable {P : Type}

/-! ## The code -/

/-- `CMD_BUF_SIZE` -/
def cmdBufSize : ℕ := 256

/-- The shell while it waits in `readline(cmd, CMD_BUF_SIZE)`. -/
structure Shell (P : Type) where
  /-- The kernel behind its system calls. -/
  kernel : KernelState P
  /-- The command buffer `cmd`. -/
  cmd : ℕ → UInt8
  /-- The local variable `pos` of `readline`. -/
  pos : ℕ

/-- The test of the loop in `readline(buf, max)`, with what follows the loop: the value returned, or
`none` for another pass. -/
def readlineTest (max : ℕ) (s : Shell P) : Option (Option ℕ × Shell P) :=
  if s.pos < max - 1 then some (none, s)
  else do
    let cmd ← setByte max s.cmd s.pos 0
    return (some s.pos, { s with cmd := cmd })

/-- The text of the prompt. -/
def prompt : List UInt8 := ascii "anubhav-os:/ $ "

/-- The first `len` bytes of a buffer. -/
def bufText (len : ℕ) (buf : ℕ → UInt8) : List UInt8 := (List.range len).map buf

/-- The characters in the command buffer. -/
def Shell.text (s : Shell P) : List UInt8 := bufText s.pos s.cmd

/-- Nothing but `cmd[0..255]` differs. -/
def SameBeyond (buf buf' : ℕ → UInt8) : Prop := ∀ x, cmdBufSize ≤ x → buf' x = buf x

/-- The state after `out` was written to descriptor 1. -/
def Shell.echo (s : Shell P) (out : List UInt8) : Shell P :=
  { s with kernel := User.printed s.kernel out }

variable {s : Shell P} {buf : ℕ → UInt8}

/-- The loop goes on while there is room. -/
theorem readlineTest_of_lt (h : s.pos < 255) : readlineTest cmdBufSize s = some (none, s) :=
  if_pos h

/-- The loop ends when the buffer is full. -/
theorem readlineTest_of_full (h : s.pos = 255) : readlineTest cmdBufSize s =
    some (some s.pos, { s with cmd := Function.update s.cmd s.pos 0 }) := by
  have hset : setByte cmdBufSize s.cmd s.pos 0 = some (Function.update s.cmd s.pos 0) :=
    if_pos (by rw [h]; decide)
  rw [readlineTest, if_neg (by rw [h]; decide), hset]
  rfl

theorem length_bufText (len : ℕ) (buf : ℕ → UInt8) : (bufText len buf).length = len := by
  simp [bufText]

/-- Writing behind the text. -/
theorem bufText_update (len : ℕ) (buf : ℕ → UInt8) (c : UInt8) :
    bufText len (Function.update buf len c) = bufText len buf := by
  refine List.map_congr_left fun i hi => ?_
  exact Function.update_of_ne (List.mem_range.mp hi).ne c buf

/-- Adding a character. -/
theorem bufText_succ (len : ℕ) (buf : ℕ → UInt8) (c : UInt8) :
    bufText (len + 1) (Function.update buf len c) = bufText len buf ++ [c] := by
  rw [← bufText_update len buf c, bufText, List.range_succ, List.map_append, List.map_singleton,
    Function.update_self, bufText]

/-- Taking the last character away. -/
theorem bufText_pred (len : ℕ) (buf : ℕ → UInt8) :
    bufText (len - 1) buf = (bufText len buf).dropLast := by
  cases len with
  | zero => rfl
  | succ len => rw [bufText, bufText, List.range_succ, List.map_append, List.map_singleton,
      List.dropLast_concat, Nat.add_sub_cancel]

/-- A write inside the command buffer leaves what is beyond it as it is. -/
theorem SameBeyond.update {buf₀ : ℕ → UInt8} (h : SameBeyond buf₀ buf) {i : ℕ} (hi : i < 256)
    (c : UInt8) : SameBeyond buf₀ (Function.update buf i c) := by
  intro x hx
  rw [Function.update_of_ne (Nat.ne_of_gt (Nat.lt_of_lt_of_le hi hx))]
  exact h x hx

variable [DecidableEq P] (env : User.Env)

/-- `print_prompt()` -/
def printPrompt : User.ShellM P Unit := User.print env (prompt ++ [0])

/-- A pass through the loop of `readline(buf, max)` in which `sys_read` waits for the character `c`,
and the test after it. -/
def readlinePass (max : ℕ) (s : Shell P) (c : UInt8) : Option (Option ℕ × Shell P) := do
  let ((n, bytes), k) ← User.sysRead env 0 1 (User.typed s.kernel c)
  if n ≤ 0 then readlineTest max { s with kernel := k }
  else
    let c ← bytes.head?
    if c = 0x0A ∨ c = 0x0D then
      let cmd ← setByte max s.cmd s.pos 0
      let (_, k) ← User.print env [0x0A, 0] k
      return (some s.pos, { s with kernel := k, cmd := cmd })
    else if c = 0x08 ∨ c = 127 then
      if 0 < s.pos then
        -- Erase the character on the screen: back, space, back.
        let (_, k) ← User.sysWrite env 1 [0x08, 0x20, 0x08] k
        readlineTest max { s with kernel := k, pos := s.pos - 1 }
      else readlineTest max { s with kernel := k }
    else
      let cmd ← setByte max s.cmd s.pos c
      let (_, k) ← User.sysWrite env 1 [c] k
      readlineTest max { s with kernel := k, cmd := cmd, pos := s.pos + 1 }

/-- Successive calls `readline(cmd, CMD_BUF_SIZE)`: the next one starts when one has returned. What
a call returns is the length of the command, given here with the buffer it is in. -/
def readlineStep (s : Shell P) (c : UInt8) :
    Option (Option (ℕ × (ℕ → UInt8)) × Shell P) := do
  match ← readlinePass env cmdBufSize s c with
  | (some len, s) => return (some (len, s.cmd), { s with pos := 0 })
  | (none, s) => return (none, s)

/-! ## One character -/

/-- `'\n'` and `'\r'` end a command. -/
def isEnter (c : UInt8) : Bool := c = 0x0A ∨ c = 0x0D

/-- `'\b'` and 127 erase a character. -/
def isErase (c : UInt8) : Bool := c = 0x08 ∨ c = 127

variable {c : UInt8}

/-- The prompt is printed on the console. -/
theorem printPrompt_console (k : KernelState P) :
    printPrompt env k = some ((), User.printed k prompt) :=
  User.print_console env k (by decide +kernel) (by decide +kernel)

/-- What one pass does, by the kind of the character. -/
theorem readlinePass_eq (hpos : s.pos < 255) :
    readlinePass env cmdBufSize s c =
      if isEnter c then
        some (some s.pos, { s.echo [0x0A] with cmd := Function.update s.cmd s.pos 0 })
      else if isErase c then
        if 0 < s.pos then some (none, { s.echo [0x08, 0x20, 0x08] with pos := s.pos - 1 })
        else some (none, s)
      else readlineTest cmdBufSize
        { s.echo [c] with cmd := Function.update s.cmd s.pos c, pos := s.pos + 1 } := by
  have hset : ∀ b, setByte cmdBufSize s.cmd s.pos b = some (Function.update s.cmd s.pos b) :=
    fun b => if_pos (Nat.lt_succ_of_lt hpos)
  have hnewline : User.print env ([0x0A] ++ 0 :: []) s.kernel = _ :=
    User.print_console env s.kernel (by decide) (by decide)
  rw [List.singleton_append] at hnewline
  have herase : User.sysWrite env 1 [0x08, 0x20, 0x08] s.kernel = _ :=
    User.sysWrite_console env s.kernel (by decide)
  have hecho : User.sysWrite env 1 [c] s.kernel = _ :=
    User.sysWrite_console env s.kernel (show 1 < 2 ^ 32 by decide)
  unfold readlinePass
  rw [User.sysRead_typed]
  -- The read returns 1, so the branch `n <= 0` is not taken.
  simp only [Option.bind_eq_bind, Option.bind_some, List.head?_cons, hset, hnewline, herase, hecho,
    isEnter, isErase, decide_eq_true_eq]
  rw [if_neg (by decide)]
  split_ifs
  · rfl
  · exact readlineTest_of_lt (show s.pos - 1 < 255 by omega)
  · exact readlineTest_of_lt hpos
  · rfl

/-- The five things that a character can do: end the command, find nothing to erase, erase, be
added, and be added as the last one that the buffer has room for. -/
theorem readlineStep_cases (hpos : s.pos < 255) (c : UInt8) :
    (isEnter c = true ∧ readlineStep env s c = some (some (s.pos, Function.update s.cmd s.pos 0),
      { s.echo [0x0A] with cmd := Function.update s.cmd s.pos 0, pos := 0 })) ∨
    (isEnter c = false ∧ isErase c = true ∧ s.pos = 0 ∧ readlineStep env s c = some (none, s)) ∨
    (isEnter c = false ∧ isErase c = true ∧ 0 < s.pos ∧ readlineStep env s c =
      some (none, { s.echo [0x08, 0x20, 0x08] with pos := s.pos - 1 })) ∨
    (isEnter c = false ∧ isErase c = false ∧ s.pos + 1 < 255 ∧ readlineStep env s c =
      some (none, { s.echo [c] with cmd := Function.update s.cmd s.pos c, pos := s.pos + 1 })) ∨
    (isEnter c = false ∧ isErase c = false ∧ s.pos + 1 = 255 ∧ readlineStep env s c =
      some (some (s.pos + 1, Function.update (Function.update s.cmd s.pos c) (s.pos + 1) 0),
        { s.echo [c] with
          cmd := Function.update (Function.update s.cmd s.pos c) (s.pos + 1) 0, pos := 0 })) := by
  have hstep : readlineStep env s c = (readlinePass env cmdBufSize s c).bind _ := rfl
  rw [readlinePass_eq env hpos] at hstep
  cases henter : isEnter c
  · cases herase : isErase c
    · simp only [henter, herase, Bool.false_eq_true, if_false] at hstep
      by_cases hfull : s.pos + 1 < 255
      · refine .inr (.inr (.inr (.inl ⟨rfl, rfl, hfull, ?_⟩)))
        rw [hstep, readlineTest_of_lt hfull]
        rfl
      · -- The loop test fails, and the call returns without an Enter.
        have hlast : s.pos + 1 = 255 := by omega
        refine .inr (.inr (.inr (.inr ⟨rfl, rfl, hlast, ?_⟩)))
        rw [hstep, readlineTest_of_full hlast]
        rfl
    · simp only [henter, herase, Bool.false_eq_true, if_false, if_true] at hstep
      by_cases hzero : 0 < s.pos
      · rw [if_pos hzero] at hstep
        exact .inr (.inr (.inl ⟨rfl, rfl, hzero, hstep⟩))
      · rw [if_neg hzero] at hstep
        exact .inr (.inl ⟨rfl, rfl, by omega, hstep⟩)
  · simp only [henter, if_true] at hstep
    exact .inl ⟨rfl, hstep⟩

omit [DecidableEq P] in
theorem editKey_text (herase : isErase c = false) : editKey isErase s.text c =
    bufText (s.pos + 1) (Function.update s.cmd s.pos c) := by
  rw [editKey, if_neg (by simp [herase]), bufText_succ, Shell.text]

/-- A step is one of the reader with a limit of 255 characters. It writes only to the command
buffer, and a command that is returned is terminated. -/
theorem readlineStep_spec (hpos : s.pos < 255) (c : UInt8) :
    ∃ out s', readlineStep env s c = some (out, s') ∧ s'.pos < 255 ∧
      (∀ done, lineStep isEnter isErase 255 (done, s.text) c =
        (done ++ (out.map fun r => bufText r.1 r.2).toList, s'.text)) ∧
      (∀ r ∈ out, r.2 r.1 = 0 ∧ SameBeyond s.cmd r.2) ∧ SameBeyond s.cmd s'.cmd := by
  have hsame : SameBeyond s.cmd s.cmd := fun _ _ => rfl
  obtain ⟨henter, hstep⟩ | ⟨henter, herase, hzero, hstep⟩ | ⟨henter, herase, hzero, hstep⟩ |
    ⟨henter, herase, hroom, hstep⟩ | ⟨henter, herase, hfull, hstep⟩ :=
    readlineStep_cases env hpos c
  · -- Enter: the terminator goes behind the text, which is returned.
    have hset := hsame.update (Nat.lt_succ_of_lt hpos) 0
    refine ⟨_, _, hstep, Nat.zero_lt_succ _, fun done => ?_, ?_, hset⟩
    · rw [lineStep, if_pos henter, Shell.text, ← bufText_update s.pos s.cmd 0]
      rfl
    · rintro r ⟨⟩
      exact ⟨Function.update_self .., hset⟩
  · -- There is nothing to erase.
    refine ⟨_, _, hstep, hpos, fun done => ?_, by simp, hsame⟩
    have hnil : s.text = [] := by rw [Shell.text, hzero]; rfl
    simp [lineStep, editKey, henter, herase, hnil]
  · -- The erased character stays in the buffer, behind the text.
    refine ⟨_, _, hstep, Nat.lt_of_le_of_lt (Nat.sub_le _ _) hpos, fun done => ?_, by simp, hsame⟩
    have hedit : editKey isErase s.text c = bufText (s.pos - 1) s.cmd := by
      rw [editKey, if_pos herase, bufText_pred, Shell.text]
    rw [lineStep, if_neg (by simp [henter]), hedit, length_bufText, if_pos (by omega)]
    simp [Shell.text, Shell.echo]
  · refine ⟨_, _, hstep, hroom, fun done => ?_, by simp,
      hsame.update (Nat.lt_succ_of_lt hpos) c⟩
    rw [lineStep, if_neg (by simp [henter]), editKey_text herase, length_bufText, if_pos hroom]
    simp [Shell.text]
  · -- The last free place: the terminator is the last byte of the buffer.
    have hset := (hsame.update (Nat.lt_succ_of_lt hpos) c).update (Nat.succ_lt_succ hpos) 0
    refine ⟨_, _, hstep, Nat.zero_lt_succ _, fun done => ?_, ?_, hset⟩
    · rw [lineStep, if_neg (by simp [henter]), editKey_text herase, length_bufText,
        if_neg (by omega), ← bufText_update (s.pos + 1) _ 0]
      rfl
    · rintro r ⟨⟩
      exact ⟨Function.update_self .., hset⟩

/-! ## Successive calls -/

/-- After the characters `cs`, in which the calls from `s₀` on have returned `outs`: the calls are a
reader of lines with a limit of 255 characters, they have written nothing but the command buffer,
and every command was terminated. -/
structure ReadlineInv (s₀ : Shell P) (cs : List UInt8) (outs : List (Option (ℕ × (ℕ → UInt8))))
    (s : Shell P) : Prop where
  /-- There is room for one more character. -/
  pos_lt : s.pos < 255
  /-- The lines, and the text of the last one, are those of the line editor. -/
  lines : lineRun isEnter isErase 255 cs =
    (outs.reduceOption.map fun r => bufText r.1 r.2, s.text)
  /-- Every line that was returned is terminated, and nothing behind the buffer is written. -/
  terminated : ∀ r ∈ outs.reduceOption, r.2 r.1 = 0 ∧ SameBeyond s₀.cmd r.2
  /-- Nothing behind the buffer is written. -/
  beyond : SameBeyond s₀.cmd s.cmd

/-- Feeding `readline` any characters keeps the invariant. -/
theorem feed_readline (hpos : s.pos = 0) (cs : List UInt8) :
    ∃ outs s', feed (readlineStep env) s cs = some (outs, s') ∧ ReadlineInv s cs outs s' := by
  refine exists_feed_concat (ReadlineInv s) ⟨by omega, ?_, by simp, fun _ _ => rfl⟩ ?_ cs
  · rw [Shell.text, hpos]
    rfl
  · intro cs outs s₁ c h
    obtain ⟨out, s', hstep, hpos', hline, hout, hsame⟩ := readlineStep_spec env h.pos_lt c
    have houts : (outs ++ [out]).reduceOption = outs.reduceOption ++ out.toList := by
      rw [← List.concat_eq_append, List.reduceOption_concat]
    refine ⟨out, s', hstep, hpos', ?_, ?_, fun x hx => (hsame x hx).trans (h.beyond x hx)⟩
    · -- The reader takes the same step from the same line.
      rw [lineRun_concat, h.lines, hline, houts, List.map_append]
      cases out <;> rfl
    · rw [houts]
      intro r hr
      rcases List.mem_append.mp hr with hr | hr
      · exact h.terminated r hr
      · obtain ⟨hzero, hbeyond⟩ := hout r (Option.mem_toList.mp hr)
        exact ⟨hzero, fun x hx => (hbeyond x hx).trans (h.beyond x hx)⟩

/-- One Enter, one command: the calls return, what they return are the lines of the characters
typed, with their edits applied and cut to 255 characters, every command is terminated in the
buffer, and nothing beyond the buffer is written. -/
def OneCommandPerEnter (s : Shell P) (cs : List UInt8) : Prop :=
  ∃ outs s', feed (readlineStep env) s cs = some (outs, s') ∧
    (outs.reduceOption.map fun r => bufText r.1 r.2) =
      (finishedLines isEnter isErase cs).map (List.take 255) ∧
    (∀ r ∈ outs.reduceOption, r.2 r.1 = 0 ∧ SameBeyond s.cmd r.2) ∧ SameBeyond s.cmd s'.cmd

/-- Each call returns one line of what is typed exactly if no line ever reaches 255 characters. A
line that does is returned at once, before its Enter, and what follows it goes to the next call. -/
theorem oneCommandPerEnter_iff (hpos : s.pos = 0) (cs : List UInt8) :
    OneCommandPerEnter env s cs ↔
      ∀ p, p <+: cs → (pendingLine isEnter isErase p).length < 255 := by
  obtain ⟨outs, s', hfeed, h⟩ := feed_readline env hpos cs
  -- The calls are the reader of the library, which says when it follows the stream.
  have hiff := @lineRun_eq_iff _ isEnter isErase 255 (by decide) cs
  rw [h.lines] at hiff
  constructor
  · rintro ⟨outs', s'', hfeed', hlines, -⟩
    obtain ⟨rfl, rfl⟩ := Prod.mk.inj (Option.some.inj (hfeed.symm.trans hfeed'))
    exact hiff.mp hlines
  · intro hshort
    exact ⟨outs, s', hfeed, hiff.mpr hshort, h.terminated, h.beyond⟩

/-- The shell at its first prompt, with no files and no process but itself. -/
def shellStart : Shell Unit where
  kernel :=
    { files := ⟨none, noFiles, fun _ _ => ⟨-1, 0, false⟩, fun _ => 0, []⟩
      sched := ⟨none, none, fun _ => ⟨0, 0, .ready, 0, none⟩, 1, 0, 0⟩
      pmm := ⟨fun _ => 0, 0, 0⟩
      pit := ⟨100, [], []⟩
      halted := false }
  cmd := fun _ => 0
  pos := 0

/-- What the shell runs with: its loops may take 65 turns. -/
def shellEnv : User.Env := ⟨65, 4, by decide, fun _ => 0⟩

/-- `lx`, a backspace, `s` and Enter. -/
theorem oneCommandPerEnter_ls : OneCommandPerEnter shellEnv shellStart [108, 120, 8, 115, 10] := by
  refine (oneCommandPerEnter_iff shellEnv rfl _).mpr fun p hp => ?_
  have hall : ∀ p ∈ List.inits [108, 120, 8, 115, 10],
      (pendingLine isEnter isErase p).length < 255 := by decide
  exact hall p ((List.mem_inits p _).mpr hp)

/-- After 255 letters, `ls` and Enter the first call has returned the letters, and the end of the
same line has become the command `ls`. -/
theorem not_oneCommandPerEnter_longLine :
    ¬OneCommandPerEnter shellEnv shellStart (List.replicate 255 97 ++ [108, 115, 10]) := by
  have hrun : lineRun isEnter isErase 255 (List.replicate 255 97 ++ [108, 115, 10]) =
      ([List.replicate 255 97, [108, 115]], []) := by decide +kernel
  have hlines : (finishedLines isEnter isErase (List.replicate 255 97 ++ [108, 115, 10])).length =
      1 := by decide +kernel
  obtain ⟨outs, s', hfeed, h⟩ := feed_readline shellEnv (s := shellStart) rfl
    (List.replicate 255 97 ++ [108, 115, 10])
  rintro ⟨outs', s'', hfeed', heq, -⟩
  obtain ⟨rfl, rfl⟩ := Prod.mk.inj (Option.some.inj (hfeed.symm.trans hfeed'))
  have hreturned := congrArg Prod.fst (h.lines.symm.trans hrun)
  have hlen := congrArg List.length (heq.symm.trans hreturned)
  rw [List.length_map, hlines] at hlen
  exact absurd hlen (by decide)

end Lightstreak
