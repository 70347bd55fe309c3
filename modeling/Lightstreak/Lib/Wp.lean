import Mathlib.Data.List.Basic

/-!
# Weakest preconditions

Programs that change a state and may fail, `StateT σ Option α`. `wp m Q s` says that `m`, started in
`s`, returns a value and a state that satisfy `Q`, so that a failing program satisfies nothing.

* `bind_of_eq_some`: how a program goes on when its first part is known;
* `wp_pure`, `wp_bind`, `wp_lift`, `wp.mono`: the rules for single steps;
* `wp_forM`: the rule for a loop over a list, with an invariant that mentions what is done;
* `wp_repeatWhile`: the rule for a `while` loop, with an invariant and a measure.
-/

namespace SysLib

variable {σ α β : Type} {s : σ}

/-- A program goes on with what its first part returns. -/
theorem bind_of_eq_some {m : StateT σ Option α} {f : α → StateT σ Option β} {a : α} {s' : σ}
    (hm : m s = some (a, s')) : (m >>= f) s = f a s' := by
  have hbind : (m >>= f) s = (m s).bind fun r => f r.1 r.2 := rfl
  rw [hbind, hm, Option.bind_some]

/-- From `s`, the program returns a value and a state that satisfy `Q`. -/
def wp (m : StateT σ Option α) (Q : α → σ → Prop) (s : σ) : Prop :=
  ∃ a s', m s = some (a, s') ∧ Q a s'

/-- Returning a value. -/
theorem wp_pure {a : α} {Q : α → σ → Prop} : wp (pure a) Q s ↔ Q a s := by
  constructor
  · rintro ⟨_, _, h, hQ⟩
    obtain ⟨rfl, rfl⟩ := Prod.mk.inj (Option.some.inj h)
    exact hQ
  · exact fun hQ => ⟨a, s, rfl, hQ⟩

/-- One program after the other. -/
theorem wp_bind {m : StateT σ Option α} {f : α → StateT σ Option β} {Q : β → σ → Prop} :
    wp (m >>= f) Q s ↔ wp m (fun a => wp (f a) Q) s := by
  constructor
  · rintro ⟨b, s', h, hQ⟩
    obtain ⟨⟨a, s₁⟩, hm, hf⟩ := Option.bind_eq_some_iff.mp h
    exact ⟨a, s₁, hm, b, s', hf, hQ⟩
  · rintro ⟨a, s₁, hm, b, s', hf, hQ⟩
    exact ⟨b, s', Option.bind_eq_some_iff.mpr ⟨(a, s₁), hm, hf⟩, hQ⟩

/-- A weaker postcondition. -/
theorem wp.mono {m : StateT σ Option α} {Q Q' : α → σ → Prop} (h : wp m Q s)
    (hQ : ∀ a s, Q a s → Q' a s) : wp m Q' s := by
  obtain ⟨a, s', hm, hq⟩ := h
  exact ⟨a, s', hm, hQ a s' hq⟩

/-- A computation without state. -/
theorem wp_lift {o : Option α} {a : α} {Q : α → σ → Prop} (ho : o = some a) (hQ : Q a s) :
    wp (liftM o) Q s :=
  ⟨a, s, by rw [ho]; rfl, hQ⟩

/-! ## Loops -/

/-- Carry out `f` for each element of the list. The invariant speaks of the elements done. -/
theorem wp_forM {γ : Type*} {f : γ → StateT σ Option PUnit} {l : List γ} (I : List γ → σ → Prop)
    (hs : I [] s)
    (hstep : ∀ done a t, done ++ [a] <+: l → I done t →
      wp (f a) (fun _ t' => I (done ++ [a]) t') t) :
    wp (l.forM f) (fun _ t => I l t) s := by
  suffices h : ∀ done rest t, done ++ rest = l → I done t →
      wp (rest.forM f) (fun _ t => I l t) t from h [] l s rfl hs
  intro done rest
  induction rest generalizing done with
  | nil =>
    intro t hl ht
    rw [List.append_nil] at hl
    exact wp_pure.mpr (hl ▸ ht)
  | cons a rest ih =>
    intro t hl ht
    have hl' : (done ++ [a]) ++ rest = l := by rw [← hl, List.append_assoc]; rfl
    exact wp_bind.mpr ((hstep done a t ⟨rest, hl'⟩ ht).mono fun _ t' ht' => ih _ t' hl' ht')

/-- Repeat a program as long as it returns `true`, at most `fuel` times. -/
def repeatWhile (body : StateT σ Option Bool) : ℕ → StateT σ Option PUnit
  | 0 => failure
  | fuel + 1 => do if ← body then repeatWhile body fuel

/-- Each turn either ends the loop or goes on with the invariant at a smaller measure. -/
theorem wp_repeatWhile {body : StateT σ Option Bool} {Q : σ → Prop} (I : ℕ → σ → Prop)
    (hbody : ∀ n t, I n t → wp body (fun more t' => if more then ∃ m < n, I m t' else Q t') t)
    {n fuel : ℕ} (hn : n < fuel) (hs : I n s) : wp (repeatWhile body fuel) (fun _ t => Q t) s := by
  induction fuel generalizing n s with
  | zero => cases hn
  | succ fuel ih =>
    refine wp_bind.mpr ((hbody n s hs).mono fun more t ht => ?_)
    cases more with
    | false => exact wp_pure.mpr ht
    | true =>
      obtain ⟨m, hm, hI⟩ := ht
      exact ih (by omega) hI

end SysLib
