import Mathlib.Data.Nat.Notation
import Mathlib.Logic.Function.Basic

/-!
# Ring buffers

An array of `cap` cells with a write index `head` and a read index `tail`, which wrap. One cell is
always left free, so that equal indices mean an empty buffer. `Holds cap r q` says that the cells
from `tail` on are the queue `q`; the cells outside may hold anything.

* `Holds.tail_eq_head_iff`, `Holds.next_head_eq_tail_iff`: when the buffer is empty, and when it
  is full;
* `Holds.push`, `Holds.read_tail`, `Holds.advance`: writing at `head` appends, the cell at `tail`
  is the front, and moving `tail` on removes it.
-/

namespace SysLib

variable {α : Type*} {cap : ℕ}

/-- The cells and the two indices of a ring buffer. -/
structure RingBuffer (α : Type*) where
  /-- The cells. -/
  buf : ℕ → α
  /-- Where the next element is written. -/
  head : ℕ
  /-- Where the next element is read. -/
  tail : ℕ

namespace RingBuffer

/-- The queue `q` in a buffer of `cap` cells. -/
structure Holds (cap : ℕ) (r : RingBuffer α) (q : List α) : Prop where
  /-- The read index is inside the buffer. -/
  tail_lt : r.tail < cap
  /-- One cell always stays free. -/
  length_lt : q.length < cap
  /-- The write index is as far behind the read index as there are elements. -/
  head_eq : r.head = (r.tail + q.length) % cap
  /-- The elements are in the cells from the read index on. -/
  cell : ∀ (i : ℕ) (x : α), q[i]? = some x → r.buf ((r.tail + i) % cap) = x

/-- Write `c` at `head` and move `head` on. -/
def write (cap : ℕ) (r : RingBuffer α) (c : α) : RingBuffer α :=
  { r with buf := Function.update r.buf r.head c, head := (r.head + 1) % cap }

/-- Move `tail` on. -/
def advance (cap : ℕ) (r : RingBuffer α) : RingBuffer α := { r with tail := (r.tail + 1) % cap }

/-- The sum of two indices wraps at most once. -/
theorem add_mod_cases {a b : ℕ} (ha : a < cap) (hb : b ≤ cap) :
    (a + b < cap ∧ (a + b) % cap = a + b) ∨ (cap ≤ a + b ∧ (a + b) % cap = a + b - cap) := by
  rcases Nat.lt_or_ge (a + b) cap with hlt | hge
  · exact .inl ⟨hlt, Nat.mod_eq_of_lt hlt⟩
  · rw [Nat.mod_eq_sub_mod hge]
    exact .inr ⟨hge, Nat.mod_eq_of_lt (by omega)⟩

variable {r : RingBuffer α} {q : List α} {c : α}

/-- A buffer with equal indices is empty. -/
theorem holds_nil (hlt : r.tail < cap) (hhead : r.head = r.tail) : Holds cap r [] where
  tail_lt := hlt
  length_lt := Nat.zero_lt_of_lt hlt
  head_eq := by rw [hhead, List.length_nil, Nat.add_zero, Nat.mod_eq_of_lt hlt]
  cell := by simp

theorem Holds.head_lt (h : Holds cap r q) : r.head < cap := by
  rw [h.head_eq]
  exact Nat.mod_lt _ (Nat.zero_lt_of_lt h.tail_lt)

/-- Equal indices tell an empty buffer. -/
theorem Holds.tail_eq_head_iff (h : Holds cap r q) : r.tail = r.head ↔ q = [] := by
  have hlt := h.tail_lt
  have hlen := h.length_lt
  rw [h.head_eq, ← List.length_eq_zero_iff]
  rcases add_mod_cases hlt (Nat.le_of_lt hlen) with ⟨hwrap, hmod⟩ | ⟨hwrap, hmod⟩ <;> omega

/-- The write index would run into the read index exactly if the buffer is full. -/
theorem Holds.next_head_eq_tail_iff (h : Holds cap r q) :
    (r.head + 1) % cap = r.tail ↔ q.length + 1 = cap := by
  have hlt := h.tail_lt
  have hlen := h.length_lt
  rw [h.head_eq, Nat.mod_add_mod, Nat.add_assoc]
  rcases add_mod_cases (b := q.length + 1) hlt hlen with ⟨hwrap, hmod⟩ | ⟨hwrap, hmod⟩ <;> omega

/-- The cell at `head` is not one of the queue. -/
theorem Holds.cell_ne_head (h : Holds cap r q) {i : ℕ} (hi : i < q.length) :
    (r.tail + i) % cap ≠ r.head := by
  have hlt := h.tail_lt
  have hlen := h.length_lt
  rw [h.head_eq]
  rcases add_mod_cases (b := i) hlt (by omega) with ⟨hwi, hi'⟩ | ⟨hwi, hi'⟩ <;>
    rcases add_mod_cases hlt (Nat.le_of_lt hlen) with ⟨hwq, hq⟩ | ⟨hwq, hq⟩ <;> omega

/-- Writing adds an element at the end. -/
theorem Holds.push (h : Holds cap r q) (hroom : q.length + 1 < cap) :
    Holds cap (r.write cap c) (q ++ [c]) where
  tail_lt := h.tail_lt
  length_lt := by simpa using hroom
  head_eq := by
    rw [write, h.head_eq, Nat.mod_add_mod, List.length_append, List.length_singleton,
      Nat.add_assoc]
  cell i x hx := by
    dsimp only [write]
    by_cases hi : i < q.length
    · rw [Function.update_of_ne (h.cell_ne_head hi)]
      exact h.cell i x (by rwa [List.getElem?_append_left hi] at hx)
    · -- The new cell is the one behind the queue.
      have hlast : i = q.length := by
        have := (List.getElem?_eq_some_iff.mp hx).1
        rw [List.length_append, List.length_singleton] at this
        omega
      rw [hlast, List.getElem?_concat_length, Option.some.injEq] at hx
      rw [hlast, ← h.head_eq, Function.update_self, hx]

/-- The element at the read index is the first one. -/
theorem Holds.read_tail (h : Holds cap r (c :: q)) : r.buf r.tail = c := by
  have hcell := h.cell 0 c rfl
  rwa [Nat.add_zero, Nat.mod_eq_of_lt h.tail_lt] at hcell

/-- Advancing the read index removes the first element. -/
theorem Holds.advance (h : Holds cap r (c :: q)) : Holds cap (r.advance cap) q where
  tail_lt := Nat.mod_lt _ (Nat.zero_lt_of_lt h.tail_lt)
  length_lt := by
    have := h.length_lt
    rw [List.length_cons] at this
    omega
  head_eq := by
    rw [RingBuffer.advance, h.head_eq, Nat.mod_add_mod, List.length_cons, Nat.add_assoc,
      Nat.add_comm 1]
  cell i x hx := by
    have hcell := h.cell (i + 1) x (by simpa using hx)
    rwa [RingBuffer.advance, Nat.mod_add_mod, Nat.add_assoc, Nat.add_comm 1]

end RingBuffer

end SysLib
