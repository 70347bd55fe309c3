import Mathlib.Data.List.Induction
import Mathlib.Data.List.Infix

/-!
# Line editing

The lines of a stream of keys, of which some end the line and some erase its last character, and a
reader of lines that gives a line up when it is as long as the reader's limit.

* `finishedLines_concat`, `pendingLine_concat`: what one more key does to the lines of the stream;
* `lineRun_eq_iff`: the reader returns the lines of the stream exactly if none of them reaches the
  limit on the way.
-/

namespace SysLib

variable {α : Type*} (enter erase : α → Bool)

/-! ## The lines of a stream -/

/-- A key that erases takes the last character away, if there is one. Every other key is added. -/
def editKey (line : List α) (key : α) : List α :=
  if erase key then line.dropLast else line ++ [key]

/-- The line that is left by its keys. -/
def edited (keys : List α) : List α := keys.foldl (editKey erase) []

/-- The lines that a key has ended, each with its edits applied. -/
def finishedLines (keys : List α) : List (List α) :=
  (keys.splitOnP enter).dropLast.map (edited erase)

/-- The line that no key has ended yet, with its edits applied. -/
def pendingLine (keys : List α) : List α := edited erase ((keys.splitOnP enter).getLastD [])

/-- One more key is applied to the edited text. -/
theorem edited_concat (keys : List α) (key : α) :
    edited erase (keys ++ [key]) = editKey erase (edited erase keys) key := by
  rw [edited, List.foldl_append]
  rfl

/-- An element that does not split goes to the last part. -/
theorem splitOnP_concat {p : α → Bool} {x : α} (hx : p x = false) (xs : List α) :
    (xs ++ [x]).splitOnP p =
      (xs.splitOnP p).dropLast ++ [(xs.splitOnP p).getLastD [] ++ [x]] := by
  induction xs with
  | nil => simp [List.splitOnP_cons_eq_if_modifyHead, hx]
  | cons y ys ih =>
    have hne := List.splitOnP_ne_nil p ys
    rw [List.cons_append, List.splitOnP_cons_eq_if_modifyHead, List.splitOnP_cons_eq_if_modifyHead,
      ih]
    obtain ⟨l, ls, hls⟩ := List.exists_cons_of_ne_nil hne
    rw [hls]
    by_cases hy : p y = true
    · simp [hy]
    · -- The first part is also the last one if there is no other.
      cases ls <;> simp [hy]

/-- A key finishes the line that was pending, or none. -/
theorem finishedLines_concat (keys : List α) (key : α) :
    finishedLines enter erase (keys ++ [key]) =
      if enter key then finishedLines enter erase keys ++ [pendingLine enter erase keys]
      else finishedLines enter erase keys := by
  have hne := List.splitOnP_ne_nil enter keys
  split_ifs with hkey
  · have hsplit : (keys ++ [key]).splitOnP enter = keys.splitOnP enter ++ [[]] := by
      rw [List.splitOnP_append_cons keys [] hkey, List.splitOnP_nil]
    have hlast : keys.splitOnP enter =
        (keys.splitOnP enter).dropLast ++ [(keys.splitOnP enter).getLastD []] := by
      rw [List.getLastD_eq_getLast?, List.getLast?_eq_some_getLast hne, Option.getD_some,
        List.dropLast_concat_getLast hne]
    rw [finishedLines, hsplit, List.dropLast_concat, hlast, List.map_append]
    rfl
  · rw [finishedLines, splitOnP_concat (by simpa using hkey), List.dropLast_concat, finishedLines]

/-- A key starts a new line or edits the pending one. -/
theorem pendingLine_concat (keys : List α) (key : α) :
    pendingLine enter erase (keys ++ [key]) =
      if enter key then [] else editKey erase (pendingLine enter erase keys) key := by
  split_ifs with hkey
  · rw [pendingLine, List.splitOnP_append_cons keys [] hkey, List.splitOnP_nil]
    simp [edited]
  · rw [pendingLine, splitOnP_concat (by simpa using hkey)]
    simp [edited_concat, pendingLine]

/-! ## A reader with a limit -/

variable (limit : ℕ)

/-- The lines a reader has returned and the line it is reading, after one more key. A line that has
reached the limit is returned at once. -/
def lineStep (s : List (List α) × List α) (key : α) : List (List α) × List α :=
  if enter key then (s.1 ++ [s.2], [])
  else if (editKey erase s.2 key).length < limit then (s.1, editKey erase s.2 key)
  else (s.1 ++ [editKey erase s.2 key], [])

/-- The lines returned and the line being read after a stream of keys. -/
def lineRun (keys : List α) : List (List α) × List α :=
  keys.foldl (lineStep enter erase limit) ([], [])

/-- No line of the stream reaches the limit, not even before it is ended or shortened. -/
def LinesShort (keys : List α) : Prop :=
  ∀ p, p <+: keys → (pendingLine enter erase p).length < limit

variable {enter erase limit}

/-- One more key is one more step of the reader. -/
theorem lineRun_concat (keys : List α) (key : α) :
    lineRun enter erase limit (keys ++ [key]) =
      lineStep enter erase limit (lineRun enter erase limit keys) key := by
  rw [lineRun, List.foldl_append]
  rfl

/-- Lines stay short if they were and the pending one still is. -/
theorem linesShort_concat {keys : List α} {key : α} :
    LinesShort enter erase limit (keys ++ [key]) ↔ LinesShort enter erase limit keys ∧
      (pendingLine enter erase (keys ++ [key])).length < limit := by
  constructor
  · intro h
    exact ⟨fun p hp => h p (hp.trans (List.prefix_append _ _)), h _ List.prefix_rfl⟩
  · rintro ⟨h, hlast⟩ p hp
    rcases List.prefix_concat_iff.mp hp with rfl | hp
    · exact hlast
    · exact h p hp

/-- As long as no line reaches the limit the reader follows the stream. -/
theorem lineRun_of_linesShort {keys : List α} (h : LinesShort enter erase limit keys) :
    lineRun enter erase limit keys =
      ((finishedLines enter erase keys).map (List.take limit), pendingLine enter erase keys) := by
  -- On the last key, as the lines are read from the front.
  induction keys using List.reverseRecOn with
  | nil => rfl
  | append_singleton keys key ih =>
    obtain ⟨hkeys, hlast⟩ := linesShort_concat.mp h
    have hpending := hkeys keys List.prefix_rfl
    rw [lineRun_concat, ih hkeys, lineStep, finishedLines_concat]
    rw [pendingLine_concat] at hlast ⊢
    by_cases hkey : enter key = true
    · -- The line that is ended was not cut.
      simp only [if_pos hkey, List.map_append, List.map_cons, List.map_nil,
        List.take_of_length_le hpending.le]
    · rw [if_neg hkey] at hlast
      simp only [if_neg hkey, if_pos hlast]

/-- A key ends as many lines of the reader as of the stream, unless a line reaches the limit. -/
theorem length_lineStep (s : List (List α) × List α) (key : α) :
    (if enter key then s.1.length + 1 else s.1.length) ≤
      (lineStep enter erase limit s key).1.length := by
  unfold lineStep
  split_ifs <;> simp

/-- A line that has reached the limit gives the reader a line that the stream does not have. -/
theorem length_finishedLines_lt {keys : List α} (h : ¬LinesShort enter erase limit keys)
    (hlimit : 0 < limit) :
    (finishedLines enter erase keys).length < (lineRun enter erase limit keys).1.length := by
  induction keys using List.reverseRecOn with
  | nil =>
    refine absurd (fun p hp => ?_) h
    rw [List.prefix_nil.mp hp]
    exact hlimit
  | append_singleton keys key ih =>
    rw [lineRun_concat, finishedLines_concat]
    have hstep := @length_lineStep α enter erase limit (lineRun enter erase limit keys) key
    by_cases hkeys : LinesShort enter erase limit keys
    · -- This key makes the line too long, so the reader returns it.
      have hlong : ¬(pendingLine enter erase (keys ++ [key])).length < limit := fun hlt =>
        h (linesShort_concat.mpr ⟨hkeys, hlt⟩)
      rw [pendingLine_concat] at hlong
      have hkey : ¬enter key = true := fun hkey => hlong (by rw [if_pos hkey]; exact hlimit)
      rw [if_neg hkey] at hlong
      rw [if_neg hkey, lineRun_of_linesShort hkeys, lineStep, if_neg hkey, if_neg hlong]
      simp
    · -- The additional line stays: from here on both gain a line with every key that ends one.
      have := ih hkeys
      split_ifs at hstep ⊢
      · rw [List.length_append, List.length_singleton]
        omega
      · omega

/-- The reader returns the lines of the stream, cut to its limit, exactly if no line reaches it. -/
theorem lineRun_eq_iff (hlimit : 0 < limit) (keys : List α) :
    (lineRun enter erase limit keys).1 = (finishedLines enter erase keys).map (List.take limit) ↔
      LinesShort enter erase limit keys := by
  constructor
  · intro h
    by_contra hlong
    have hlt := length_finishedLines_lt hlong hlimit
    rw [h, List.length_map] at hlt
    exact absurd hlt (lt_irrefl _)
  · intro h
    rw [lineRun_of_linesShort h]

end SysLib
