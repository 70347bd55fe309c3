import Mathlib.Data.List.Nodup
import Mathlib.Data.List.Rotate
import Mathlib.Data.List.TakeWhile
import Lightstreak.Lib.Run

/-!
# Circular singly linked lists

A ring is given by a partial successor function `next`. `Links next a l e` says that following
`next` from `a` visits the elements of `l` in order and then reaches `e`; `IsRing next l` that the
elements of `l`, all different, form one cycle that starts at its head.

* `IsRing.insert`: linking a new element in after the head;
* `findPred`, `loop_findPred_of_mem`, `loop_findPred_of_not_mem`: the search for the predecessor of
  an element, which ends on every ring, whether or not the element is in it;
* `IsRing.erase_head`, `IsRing.erase_tail`: unlinking an element through its predecessor;
* `startAt`, `IsRing.startAt`: the same ring read from any of its elements.
-/

namespace SysLib.Ring

variable {α : Type*} {next next' : α → Option α} {a b e h p : α} {l u v t : List α}

/-- Following `next` from `a` visits `l` and then reaches `e`. -/
def Links (next : α → Option α) : α → List α → α → Prop
  | a, [], e => next a = some e
  | a, b :: l, e => next a = some b ∧ Links next b l e

/-- The elements of the list are different and form one cycle, in this order. -/
def IsRing (next : α → Option α) : List α → Prop
  | [] => True
  | h :: t => Links next h t h ∧ (h :: t).Nodup

theorem IsRing.nodup (hr : IsRing next l) : l.Nodup := by
  cases l with
  | nil => exact List.nodup_nil
  | cons h t => exact hr.2

/-- A chain can be cut at any of its elements. -/
theorem links_append : Links next a (u ++ b :: v) e ↔ Links next a u b ∧ Links next b v e := by
  induction u generalizing a with
  | nil => rfl
  | cons c u ih => simp only [List.cons_append, Links, ih, and_assoc]

/-- The path depends on the successors of the elements it leaves. -/
theorem Links.congr (hl : Links next a l e) (hn : ∀ x ∈ a :: l, next' x = next x) :
    Links next' a l e := by
  induction l generalizing a with
  | nil => exact (hn a (by simp)).trans hl
  | cons b l ih =>
    exact ⟨(hn a (by simp)).trans hl.1, ih hl.2 fun x hx => hn x (List.mem_cons_of_mem a hx)⟩

/-- Every element of a path leads to the next one or to the end. -/
theorem Links.next_mem (hl : Links next a l e) (hp : p ∈ a :: l) :
    ∃ x ∈ e :: l, next p = some x := by
  induction l generalizing a with
  | nil =>
    rw [List.mem_singleton.mp hp]
    exact ⟨e, by simp, hl⟩
  | cons b l ih =>
    rcases List.mem_cons.mp hp with rfl | hp
    · exact ⟨b, by simp, hl.1⟩
    · obtain ⟨x, hx, hnext⟩ := ih hl.2 hp
      exact ⟨x, List.mem_cons.mpr ((List.mem_cons.mp hx).imp_right (List.mem_cons_of_mem b)), hnext⟩

/-- A ring is closed under `next`. -/
theorem IsRing.next_mem (hr : IsRing next l) (hp : p ∈ l) : ∃ x ∈ l, next p = some x := by
  cases l with
  | nil => cases hp
  | cons h t => exact hr.1.next_mem hp

/-- A ring depends on the links of its own elements only. -/
theorem IsRing.congr (hr : IsRing next l) (hn : ∀ x ∈ l, next' x = next x) : IsRing next' l := by
  cases l with
  | nil => exact trivial
  | cons h t => exact ⟨hr.1.congr hn, hr.2⟩

/-- The ring read from its second element on. -/
theorem IsRing.rotate_one (hr : IsRing next l) : IsRing next (l.rotate 1) := by
  cases l with
  | nil => exact hr
  | cons h t =>
    obtain ⟨hl, hnd⟩ := hr
    cases t with
    | nil =>
      rw [List.rotate_singleton]
      exact ⟨hl, hnd⟩
    | cons b t =>
      -- The old head moves behind the last element, which leads back to it.
      have hnd' := List.nodup_rotate (n := 1) |>.mpr hnd
      rw [List.rotate_cons_succ, List.rotate_zero] at hnd' ⊢
      exact ⟨links_append.mpr ⟨hl.2, hl.1⟩, hnd'⟩

/-- A ring can be started anywhere. -/
theorem IsRing.rotate (hr : IsRing next l) (n : ℕ) : IsRing next (l.rotate n) := by
  induction n with
  | zero => rwa [List.rotate_zero]
  | succ n ih =>
    rw [← List.rotate_rotate]
    exact ih.rotate_one

section StartAt

variable [DecidableEq α]

/-- The ring `l` read from its element `a` on. -/
def startAt (a : α) (l : List α) : List α := l.rotate (l.idxOf a)

theorem startAt_perm (a : α) (l : List α) : (startAt a l).Perm l := l.rotate_perm _

theorem IsRing.startAt (hr : IsRing next l) (a : α) : IsRing next (startAt a l) := hr.rotate _

/-- An element of the ring stands first in it. -/
theorem exists_startAt_eq_cons (ha : a ∈ l) : ∃ t, startAt a l = a :: t := by
  have hlt := List.idxOf_lt_length_of_mem ha
  have hhead : (startAt a l).head? = some a := by
    rw [startAt, List.head?_rotate hlt, List.getElem?_eq_getElem hlt, List.getElem_idxOf hlt]
  exact ⟨_, List.eq_cons_of_mem_head? hhead⟩

end StartAt

/-- The last element of the path leads to its end. -/
theorem Links.next_getLastD (hl : Links next a l e) : next (l.getLastD a) = some e := by
  induction l generalizing a with
  | nil => exact hl
  | cons b l ih =>
    rw [List.getLastD_cons]
    exact ih hl.2

/-- The last element, or the first if there is no other. -/
theorem getLastD_mem_cons (a : α) (l : List α) : l.getLastD a ∈ a :: l := by
  induction l generalizing a with
  | nil => simp
  | cons b l ih =>
    rw [List.getLastD_cons]
    exact List.mem_cons_of_mem a (ih b)

/-- Redirecting the last element of a path moves its end. -/
theorem Links.redirect [DecidableEq α] (hl : Links next a l e) (hnd : (a :: l).Nodup) (b : α) :
    Links (Function.update next (l.getLastD a) (some b)) a l b := by
  induction l generalizing a with
  | nil => exact Function.update_self a (some b) next
  | cons c l ih =>
    rw [List.getLastD_cons]
    obtain ⟨ha, hrest⟩ := List.nodup_cons.mp hnd
    have hne : a ≠ l.getLastD c := fun h => ha (h ▸ getLastD_mem_cons c l)
    exact ⟨(Function.update_of_ne hne _ _).trans hl.1, ih hl.2 hrest⟩

/-- The successor of the first element of a path. -/
theorem Links.next_eq (hl : Links next a l e) : next a = some (l.headD e) := by
  cases l with
  | nil => exact hl
  | cons b l => exact hl.1

section Update

variable [DecidableEq α]

/-- Links elsewhere may change. -/
theorem Links.update_of_not_mem (hl : Links next a l e) (hp : p ∉ a :: l) (x : Option α) :
    Links (Function.update next p x) a l e :=
  hl.congr fun y hy => Function.update_of_ne (fun h : y = p => hp (h ▸ hy)) _ _

/-- Link a new element in after the head. -/
theorem IsRing.insert (hr : IsRing next (h :: t)) (hp : p ∉ h :: t) :
    IsRing (Function.update (Function.update next p (next h)) h (some p)) (h :: p :: t) := by
  obtain ⟨hl, hnd⟩ := hr
  obtain ⟨hph, hpt⟩ := not_or.mp (mt List.mem_cons.mpr hp)
  have hht := (List.nodup_cons.mp hnd).1
  refine ⟨⟨by simp, ?_⟩, ?_⟩
  · -- The new element takes over the successor of the head.
    have hp' : Function.update (Function.update next p (next h)) h (some p) p = next h := by
      rw [Function.update_of_ne hph, Function.update_self]
    cases t with
    | nil => exact hp'.trans hl
    | cons b t =>
      refine ⟨hp'.trans hl.1, ?_⟩
      exact (hl.2.update_of_not_mem hpt _).update_of_not_mem hht _
  · rw [List.nodup_cons, List.nodup_cons, List.mem_cons]
    exact ⟨not_or.mpr ⟨Ne.symm hph, hht⟩, hpt, (List.nodup_cons.mp hnd).2⟩

/-! ## The search for a predecessor -/

/-- One turn of the search: stop at an element whose successor is `p` or the head. `none` is the
end of a list that is not circular. -/
def findPred (next : α → Option α) (p h : α) (prev : α) : α ⊕ Option α :=
  match next prev with
  | none => .inr none
  | some q => if q ≠ p ∧ q ≠ h then .inl q else .inr (some prev)

/-- The search along a path back to the head stops before `p`, or before the head if `p` is not on
the path. -/
theorem loop_findPred (hl : Links next a l h) (hh : h ∉ l) {n : ℕ} (hn : l.length < n) :
    loop (findPred next p h) n a = some (some ((l.takeWhile (· ≠ p)).getLastD a)) := by
  induction l generalizing a n with
  | nil =>
    obtain ⟨n, rfl⟩ : ∃ m, n = m + 1 := ⟨n - 1, by simp at hn; omega⟩
    have hlast : next a = some h := hl
    rw [loop_of_inr (by simp [findPred, hlast]; rfl)]
    rfl
  | cons b l ih =>
    obtain ⟨n, rfl⟩ : ∃ m, n = m + 1 := ⟨n - 1, by simp at hn; omega⟩
    obtain ⟨hbh, hhl⟩ := not_or.mp (mt List.mem_cons.mpr hh)
    -- The successor is what is searched for, or the search moves on to it.
    by_cases hbp : b = p
    · rw [loop_of_inr (by simp [findPred, hl.1, hbp]; rfl)]
      simp [hbp]
    · rw [loop_of_inl (by simp [findPred, hl.1, hbp, Ne.symm hbh]; rfl),
        ih hl.2 hhl (by simp at hn; omega),
        List.takeWhile_cons_of_pos (by simpa using hbp), List.getLastD_cons]

/-- The search for an element of the path stops in front of it. -/
theorem loop_findPred_of_mem (hl : Links next a (u ++ p :: v) h) (hh : h ∉ u ++ p :: v) {n : ℕ}
    (hn : (u ++ p :: v).length < n) (hp : p ∉ u) :
    loop (findPred next p h) n a = some (some (u.getLastD a)) := by
  have hu : ∀ x ∈ u, decide (x ≠ p) = true := fun x hx =>
    decide_eq_true fun heq : x = p => hp (heq ▸ hx)
  rw [loop_findPred hl hh hn, List.takeWhile_append_of_pos hu,
    List.takeWhile_cons_of_neg (by simp), List.append_nil]

/-- The search for anything else goes once around. -/
theorem loop_findPred_of_not_mem (hl : Links next a l h) (hh : h ∉ l) {n : ℕ}
    (hn : l.length < n) (hp : p ∉ l) :
    loop (findPred next p h) n a = some (some (l.getLastD a)) := by
  have hself : l.takeWhile (· ≠ p) = l := List.takeWhile_eq_self_iff.mpr fun x hx =>
    decide_eq_true fun heq : x = p => hp (heq ▸ hx)
  rw [loop_findPred hl hh hn, hself]

/-! ## Unlinking -/

/-- Unlink an element other than the head through its predecessor. -/
theorem IsRing.erase_tail (hr : IsRing next (h :: (u ++ p :: v))) :
    next (u.getLastD h) = some p ∧ next p = some (v.headD h) ∧ v.headD h ≠ p ∧
      IsRing (Function.update (Function.update next (u.getLastD h) (next p)) p none)
        (h :: (u ++ v)) := by
  obtain ⟨hl, hnd⟩ := hr
  obtain ⟨hlu, hlv⟩ := links_append.mp hl
  have hnd' : ((h :: u) ++ p :: v).Nodup := hnd
  obtain ⟨hndu, hndv, hdis⟩ := List.nodup_append.mp hnd'
  have hpu : p ∉ h :: u := fun hx => hdis p hx p (by simp) rfl
  have hpv := (List.nodup_cons.mp hndv).1
  have hne : v.headD h ≠ p := by
    cases v with
    | nil => exact fun heq => hpu (by simp [← heq])
    | cons b v => exact fun heq => hpv (by simp [← heq])
  refine ⟨hlu.next_getLastD, hlv.next_eq, hne, ?_, ?_⟩
  · -- The path up to the predecessor now leads to what followed the removed element.
    rw [hlv.next_eq]
    have hred := (hlu.redirect hndu (v.headD h)).update_of_not_mem hpu none
    cases v with
    | nil =>
      rw [List.append_nil]
      exact hred
    | cons b v =>
      -- The rest of the path leaves neither the predecessor nor the removed element.
      have hlast : u.getLastD h ∉ b :: v := fun hx =>
        hdis _ (getLastD_mem_cons h u) _ (List.mem_cons_of_mem p hx) rfl
      exact links_append.mpr ⟨hred, (hlv.2.update_of_not_mem hlast _).update_of_not_mem hpv _⟩
  · exact hnd'.sublist (((List.sublist_cons_self p v).append_left u).cons_cons h)

/-- Unlink the head of a ring with at least two elements: its successor becomes the head. -/
theorem IsRing.erase_head (hr : IsRing next (h :: b :: t)) :
    next (t.getLastD b) = some h ∧ next h = some b ∧ b ≠ h ∧
      IsRing (Function.update (Function.update next (t.getLastD b) (next h)) h none) (b :: t) := by
  obtain ⟨⟨hhb, hl⟩, hnd⟩ := hr
  obtain ⟨hh, hnd'⟩ := List.nodup_cons.mp hnd
  refine ⟨hl.next_getLastD, hhb, fun heq => hh (by simp [heq]), ?_, hnd'⟩
  rw [hhb]
  exact (hl.redirect hnd' b).update_of_not_mem hh none

end Update

end SysLib.Ring
