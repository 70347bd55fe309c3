import Mathlib.Data.Fintype.Pigeonhole
import Mathlib.Data.List.Induction
import Mathlib.Logic.Function.Iterate

/-!
# Runs, loops and refinement

* `Run step s as t`: a finite run of a labelled step relation, with the rule
  `Run.invariant` for what every step preserves, `Run.since` for what a step brings about, and
  `Run.forall_prefix_iff` for properties that some steps break.
* `loop body fuel s`: a `while` loop. `none` means that `fuel` turns were not enough, so a
  result is a statement about termination as well: `exists_loop_iff` says when a loop ends, and
  `exists_not_iterate_iff` when an iteration leaves a finite set. `exists_foldlM_range'` is the rule
  for counted loops.
* `feed f s as`: a deterministic machine with outputs that may fail, with `exists_feed_concat`, the
  rule for what its inputs and outputs so far determine, `feed_refines`, the simulation rule that
  carries agreement of one step to agreement of whole runs, `feed_filter`, the same for a machine
  that gets only some of the inputs, and `alongRun_iff_feed_take` and
  `alongRun_iff_exists_feed`, which say when such a machine never fails, and when it never does
  damage that stays.
-/

namespace SysLib

variable {σ τ α β ρ : Type*}

/-! ## Labelled runs -/

/-- Finite runs of a labelled step relation, with the labels in the order they were taken. -/
inductive Run (step : σ → α → σ → Prop) : σ → List α → σ → Prop
  | nil (s : σ) : Run step s [] s
  | snoc {s t u : σ} {as : List α} {a : α} :
      Run step s as t → step t a u → Run step s (as ++ [a]) u

/-- What holds at the start and is preserved by every step holds after every run. The
invariant may mention the labels taken so far. -/
theorem Run.invariant {step : σ → α → σ → Prop} {s t : σ} {as : List α}
    (I : List α → σ → Prop) (hrun : Run step s as t) (hinit : I [] s)
    (hstep : ∀ as t a u, I as t → step t a u → I (as ++ [a]) u) : I as t := by
  induction hrun with
  | nil => exact hinit
  | snoc _ hs ih => exact hstep _ _ _ _ ih hs

/-- The last step of a run. -/
theorem Run.last {step : σ → α → σ → Prop} {s u : σ} {as : List α} {a : α}
    (hrun : Run step s (as ++ [a]) u) : ∃ t, Run step s as t ∧ step t a u := by
  generalize has : as ++ [a] = bs at hrun
  cases hrun with
  | nil => exact absurd has (List.append_ne_nil_of_right_ne_nil _ (List.cons_ne_nil a []))
  | snoc hrun hstep =>
    obtain ⟨rfl, ha⟩ := List.append_inj' has rfl
    obtain rfl := List.singleton_inj.mp ha
    exact ⟨_, hrun, hstep⟩

/-- What a step with the label `a` brings about and every later step preserves holds at the end. It
may mention the labels taken since. -/
theorem Run.since {step : σ → α → σ → Prop} {s t : σ} {pre post : List α} {a : α}
    (I : List α → σ → Prop) (hrun : Run step s (pre ++ a :: post) t)
    (hinit : ∀ t u, step t a u → I [] u)
    (hstep : ∀ as t b u, I as t → step t b u → I (as ++ [b]) u) : I post t := by
  -- By induction on the labels since, from the last one.
  induction post using List.reverseRecOn generalizing t with
  | nil =>
    obtain ⟨t', -, ha⟩ := hrun.last
    exact hinit t' t ha
  | append_singleton post b ih =>
    rw [← List.cons_append, ← List.append_assoc] at hrun
    obtain ⟨t', hrun', hb⟩ := hrun.last
    exact hstep post t' b t (ih hrun') hb

/-- The property `D` holds in every state of a run exactly when all its labels are `ok`, if labels
that are keep an invariant from which `D` follows, and every other label breaks `D` at once. -/
theorem Run.forall_prefix_iff {step : σ → α → σ → Prop} {s t : σ} {as : List α} {ok : α → Prop}
    {I D : σ → Prop} (hrun : Run step s as t) (hs : I s) (hD : ∀ t, I t → D t)
    (hok : ∀ t a u, I t → step t a u → ok a → I u)
    (hbad : ∀ t a u, I t → step t a u → ¬ok a → ¬D u) :
    (∀ as₁ t₁, as₁ <+: as → Run step s as₁ t₁ → D t₁) ↔ ∀ a ∈ as, ok a := by
  constructor
  · intro hall
    -- By induction on the run: each label is judged by the state it leads to.
    suffices h : I t ∧ ∀ a ∈ as, ok a from h.2
    induction hrun with
    | nil => exact ⟨hs, by simp⟩
    | @snoc t u as a hrun hstep ih =>
      obtain ⟨hI, hoks⟩ := ih fun as₁ t₁ hpre => hall as₁ t₁ (hpre.trans (List.prefix_append _ _))
      have hoka : ok a := by
        by_contra hn
        exact hbad t a u hI hstep hn (hall _ u (List.prefix_refl _) (hrun.snoc hstep))
      exact ⟨hok t a u hI hstep hoka, by simpa [or_imp, forall_and] using ⟨hoks, hoka⟩⟩
  · intro hoks as₁ t₁ hpre hrun₁
    refine hD t₁ (hrun₁.invariant (fun as t => (∀ a ∈ as, ok a) → I t) (fun _ => hs) ?_
      fun a ha => hoks a (hpre.subset ha))
    intro as t a u hI hstep h
    exact hok t a u (hI fun a' ha' => h a' (List.mem_append_left _ ha')) hstep (h a (by simp))

/-! ## Loops -/

/-- Run `body` until it returns a result. Each turn costs one unit of fuel. -/
def loop (body : σ → σ ⊕ ρ) : ℕ → σ → Option ρ
  | 0, _ => none
  | n + 1, s =>
    match body s with
    | .inl s' => loop body n s'
    | .inr r => some r

theorem loop_of_inl {body : σ → σ ⊕ ρ} {s s' : σ} (h : body s = .inl s') (n : ℕ) :
    loop body (n + 1) s = loop body n s' := by
  simp [loop, h]

theorem loop_of_inr {body : σ → σ ⊕ ρ} {s : σ} {r : ρ} (h : body s = .inr r) (n : ℕ) :
    loop body (n + 1) s = some r := by
  simp [loop, h]

/-- More fuel does not change the result. -/
theorem loop_mono {body : σ → σ ⊕ ρ} {n m : ℕ} {s : σ} {r : ρ} (h : loop body n s = some r)
    (hnm : n ≤ m) : loop body m s = some r := by
  induction n generalizing m s with
  | zero => cases h
  | succ n ih =>
    obtain ⟨m, rfl⟩ := Nat.exists_eq_add_of_le' (Nat.le_trans (Nat.le_add_left 1 n) hnm)
    cases hbody : body s with
    | inl s' =>
      rw [loop_of_inl hbody] at h ⊢
      exact ih h (Nat.le_of_succ_le_succ hnm)
    | inr r' => rwa [loop_of_inr hbody] at h ⊢

/-- Whatever every turn guarantees of the results it returns holds of the result of the loop. -/
theorem loop_result {body : σ → σ ⊕ ρ} {Q : ρ → Prop} (hQ : ∀ s r, body s = .inr r → Q r)
    {n : ℕ} {s : σ} {r : ρ} (h : loop body n s = some r) : Q r := by
  induction n generalizing s with
  | zero => cases h
  | succ n ih =>
    cases hbody : body s with
    | inl s' => exact ih (by rwa [loop_of_inl hbody] at h)
    | inr r' =>
      rw [loop_of_inr hbody, Option.some.injEq] at h
      exact h ▸ hQ s r' hbody

/-- A loop whose turns go on in `next` unless `P` holds ends, in `k + 1` turns, when `k` turns
lead to `P`. -/
theorem exists_loop_of_iterate {body : σ → σ ⊕ ρ} {next : σ → σ} {P : σ → Prop}
    (hnext : ∀ s, ¬P s → body s = .inl (next s)) (hstop : ∀ s, P s → ∃ r, body s = .inr r)
    {k : ℕ} {s : σ} (h : P (next^[k] s)) : ∃ r, loop body (k + 1) s = some r := by
  induction k generalizing s with
  | zero =>
    obtain ⟨r, hr⟩ := hstop s h
    exact ⟨r, loop_of_inr hr 0⟩
  | succ k ih =>
    by_cases hs : P s
    · obtain ⟨r, hr⟩ := hstop s hs
      exact ⟨r, loop_of_inr hr _⟩
    · rw [Function.iterate_succ_apply] at h
      obtain ⟨r, hr⟩ := ih h
      exact ⟨r, (loop_of_inl (hnext s hs) _).trans hr⟩

/-- Such a loop ends exactly when its turns lead to `P`. -/
theorem exists_loop_iff {body : σ → σ ⊕ ρ} {next : σ → σ} {P : σ → Prop}
    (hnext : ∀ s, ¬P s → body s = .inl (next s)) (hstop : ∀ s, P s → ∃ r, body s = .inr r)
    (s : σ) : (∃ n r, loop body n s = some r) ↔ ∃ k, P (next^[k] s) := by
  constructor
  · rintro ⟨n, r, h⟩
    induction n generalizing s with
    | zero => cases h
    | succ n ih =>
      by_cases hs : P s
      · exact ⟨0, hs⟩
      · rw [loop_of_inl (hnext s hs)] at h
        obtain ⟨k, hk⟩ := ih (next s) h
        exact ⟨k + 1, hk⟩
  · rintro ⟨k, hk⟩
    exact ⟨k + 1, exists_loop_of_iterate hnext hstop hk⟩

/-- An iteration leaves a finite set exactly when it repeats no value before it does. -/
theorem exists_not_iterate_iff {f : σ → σ} {P : σ → Prop} (hfin : Finite {x // P x}) (a : σ) :
    (∃ k, ¬P (f^[k] a)) ↔ ¬∃ i j, i < j ∧ f^[i] a = f^[j] a ∧ ∀ k < j, P (f^[k] a) := by
  constructor
  · rintro ⟨n, hn⟩ ⟨i, j, hij, heq, hP⟩
    -- From the repetition on, every value is one of the first `j`.
    have hback : ∀ n, ∃ m < j, f^[n] a = f^[m] a := by
      intro n
      induction n with
      | zero => exact ⟨0, by omega, rfl⟩
      | succ n ih =>
        obtain ⟨m, hm, hnm⟩ := ih
        rw [Function.iterate_succ_apply', hnm, ← Function.iterate_succ_apply' f m a]
        rcases Nat.lt_or_ge (m + 1) j with h | h
        · exact ⟨m + 1, h, rfl⟩
        · exact ⟨i, hij, by rw [heq, show m.succ = j by omega]⟩
    obtain ⟨m, hm, hnm⟩ := hback n
    exact hn (hnm ▸ hP m hm)
  · intro hnot
    by_contra hstay
    push Not at hstay
    obtain ⟨i, j, hne, heq⟩ :=
      Finite.exists_ne_map_eq_of_infinite fun k : ℕ => (⟨f^[k] a, hstay k⟩ : {x // P x})
    have hval : f^[i] a = f^[j] a := congrArg Subtype.val heq
    rcases Nat.lt_or_gt_of_ne hne with h | h
    · exact hnot ⟨i, j, h, hval, fun k _ => hstay k⟩
    · exact hnot ⟨j, i, h, hval.symm, fun k _ => hstay k⟩

/-- A counted `for` loop whose body may fail: what each turn carries from one index to the next is
reached after the last turn, and no turn fails. -/
theorem exists_foldlM_range' {f : σ → ℕ → Option σ} {I : ℕ → σ → Prop} {a n : ℕ} {s : σ}
    (hs : I a s) (hstep : ∀ i s, a ≤ i → i < a + n → I i s → ∃ s', f s i = some s' ∧ I (i + 1) s') :
    ∃ t, (List.range' a n).foldlM f s = some t ∧ I (a + n) t := by
  induction n generalizing a s with
  | zero => exact ⟨s, rfl, hs⟩
  | succ n ih =>
    obtain ⟨s', hf, hs'⟩ := hstep a s (Nat.le_refl a) (by omega) hs
    obtain ⟨t, ht, hI⟩ := ih hs' fun i s h₁ h₂ => hstep i s (by omega) (by omega)
    refine ⟨t, ?_, by rwa [Nat.add_right_comm] at hI⟩
    rw [List.range'_succ, List.foldlM_cons, hf]
    exact ht

/-! ## Machines with outputs -/

/-- Feed a list of inputs to a deterministic machine and collect its outputs. A machine that
fails on an input (`none`) fails on the whole list. -/
def feed (f : σ → α → Option (β × σ)) : σ → List α → Option (List β × σ)
  | s, [] => some ([], s)
  | s, a :: as =>
    (f s a).bind fun r => (feed f r.2 as).map fun q => (r.1 :: q.1, q.2)

/-- Every input of the list satisfies `ok` in the state in which it is consumed. -/
def AlongRun (f : σ → α → Option (β × σ)) (ok : σ → α → Prop) : σ → List α → Prop
  | _, [] => True
  | s, a :: as => ok s a ∧ ∀ r, f s a = some r → AlongRun f ok r.2 as

/-- Whether the inputs of a list satisfy `ok` can be found out by running the machine. -/
instance AlongRun.decidable (f : σ → α → Option (β × σ)) (ok : σ → α → Prop)
    [∀ s a, Decidable (ok s a)] : ∀ s as, Decidable (AlongRun f ok s as)
  | _, [] => isTrue trivial
  | s, a :: as =>
    have : DecidablePred fun r : β × σ => AlongRun f ok r.2 as := fun r =>
      AlongRun.decidable f ok r.2 as
    inferInstanceAs (Decidable (ok s a ∧ ∀ r ∈ f s a, AlongRun f ok r.2 as))

theorem feed_cons_of_some {f : σ → α → Option (β × σ)} {s s' : σ} {a : α} {b : β}
    (h : f s a = some (b, s')) (as : List α) :
    feed f s (a :: as) = (feed f s' as).map fun q => (b :: q.1, q.2) := by
  rw [feed, h, Option.bind_some]

/-- A machine that takes a list of inputs takes the first one, and then the others. -/
theorem exists_of_feed_cons {f : σ → α → Option (β × σ)} {s t : σ} {a : α} {as : List α}
    {bs : List β} (h : feed f s (a :: as) = some (bs, t)) :
    ∃ b s' bs', f s a = some (b, s') ∧ feed f s' as = some (bs', t) ∧ bs = b :: bs' := by
  obtain ⟨⟨b, s'⟩, hf, h⟩ := Option.bind_eq_some_iff.mp h
  obtain ⟨⟨bs', t'⟩, hfeed, heq⟩ := Option.map_eq_some_iff.mp h
  obtain ⟨rfl, rfl⟩ := Prod.mk.inj heq
  exact ⟨b, s', bs', hf, hfeed, rfl⟩

/-- A condition along a run holds for its first input and along the rest. -/
theorem alongRun_cons {f : σ → α → Option (β × σ)} {ok : σ → α → Prop} {s s' : σ} {a : α} {b : β}
    {as : List α} (hok : ok s a) (h : f s a = some (b, s')) (hrest : AlongRun f ok s' as) :
    AlongRun f ok s (a :: as) := by
  refine ⟨hok, fun r hr => ?_⟩
  obtain rfl := Option.some.inj (h.symm.trans hr)
  exact hrest

/-- Two sequences of inputs one after the other. -/
theorem feed_append (f : σ → α → Option (β × σ)) (s : σ) (as as' : List α) :
    feed f s (as ++ as') = (feed f s as).bind fun q =>
      (feed f q.2 as').map fun r => (q.1 ++ r.1, r.2) := by
  induction as generalizing s with
  | nil => simp [feed]
  | cons a as ih =>
    rw [List.cons_append, feed, feed]
    cases f s a with
    | none => rfl
    | some r =>
      simp only [Option.bind_some, ih]
      cases feed f r.2 as with
      | none => rfl
      | some q => simp [Function.comp_def]

/-- One more input at the end. -/
theorem feed_concat_of_some {f : σ → α → Option (β × σ)} {s s' s'' : σ} {as : List α} {bs : List β}
    {a : α} {b : β} (h : feed f s as = some (bs, s')) (hf : f s' a = some (b, s'')) :
    feed f s (as ++ [a]) = some (bs ++ [b], s'') := by
  rw [feed_append, h, Option.bind_some, feed_cons_of_some hf]
  rfl

/-- A machine that takes a list of inputs takes all but the last one, and then that one. -/
theorem exists_of_feed_concat {f : σ → α → Option (β × σ)} {s t : σ} {a : α} {as : List α}
    {bs : List β} (h : feed f s (as ++ [a]) = some (bs, t)) :
    ∃ bs' s' b, feed f s as = some (bs', s') ∧ f s' a = some (b, t) ∧ bs = bs' ++ [b] := by
  rw [feed_append] at h
  obtain ⟨⟨bs', s'⟩, hfeed, h⟩ := Option.bind_eq_some_iff.mp h
  obtain ⟨⟨bs₁, t'⟩, hlast, heq⟩ := Option.map_eq_some_iff.mp h
  obtain ⟨rfl, rfl⟩ := Prod.mk.inj heq
  obtain ⟨b, s₁, bs₂, hf, hnil, rfl⟩ := exists_of_feed_cons hlast
  obtain ⟨rfl, rfl⟩ := Prod.mk.inj (Option.some.inj hnil)
  exact ⟨bs', s', b, hfeed, hf, rfl⟩

/-- A machine that survives a list of inputs survives its prefixes. -/
theorem exists_feed_take {f : σ → α → Option (β × σ)} {s : σ} {as : List α} {q : List β × σ}
    (h : feed f s as = some q) (n : ℕ) : ∃ bs s', feed f s (as.take n) = some (bs, s') := by
  rw [← List.take_append_drop n as, feed_append] at h
  obtain ⟨q', hq', -⟩ := Option.bind_eq_some_iff.mp h
  exact ⟨q'.1, q'.2, hq'⟩

/-- What every successful step preserves, a successful list of inputs preserves. -/
theorem feed_invariant {f : σ → α → Option (β × σ)} (I : σ → Prop)
    (hstep : ∀ s a r, I s → f s a = some r → I r.2) {as : List α} {s : σ} {q : List β × σ}
    (hs : I s) (h : feed f s as = some q) : I q.2 := by
  induction as generalizing s q with
  | nil => exact Option.some.inj h ▸ hs
  | cons a as ih =>
    obtain ⟨bs, t⟩ := q
    obtain ⟨b, s', bs', hf, hfeed, -⟩ := exists_of_feed_cons h
    have hI := ih (hstep s a _ hs hf) hfeed
    exact hI

/-- A machine that takes every input, and keeps an invariant, takes every list of inputs. -/
theorem exists_feed {f : σ → α → Option (β × σ)} (I : σ → Prop)
    (hstep : ∀ s a, I s → ∃ b s', f s a = some (b, s') ∧ I s') (as : List α) (s : σ) (hs : I s) :
    ∃ bs t, feed f s as = some (bs, t) ∧ I t := by
  induction as generalizing s with
  | nil => exact ⟨[], s, rfl, hs⟩
  | cons a as ih =>
    obtain ⟨b, s', hf, hs'⟩ := hstep s a hs
    obtain ⟨bs, t, hfeed, ht⟩ := ih s' hs'
    exact ⟨b :: bs, t, by rw [feed_cons_of_some hf, hfeed]; rfl, ht⟩

/-- The same with an invariant that mentions the inputs and the outputs so far. -/
theorem exists_feed_concat {f : σ → α → Option (β × σ)} (I : List α → List β → σ → Prop) {s : σ}
    (hs : I [] [] s)
    (hstep : ∀ as bs s a, I as bs s → ∃ b s', f s a = some (b, s') ∧ I (as ++ [a]) (bs ++ [b]) s')
    (as : List α) : ∃ bs t, feed f s as = some (bs, t) ∧ I as bs t := by
  induction as using List.reverseRecOn with
  | nil => exact ⟨[], s, rfl, hs⟩
  | append_singleton as a ih =>
    obtain ⟨bs, t, hfeed, ht⟩ := ih
    obtain ⟨b, t', hf, ht'⟩ := hstep as bs t a ht
    exact ⟨bs ++ [b], t', feed_concat_of_some hfeed hf, ht'⟩

/-- What every admissible step preserves holds after an admissible list of inputs. The invariant
may mention the outputs so far. -/
theorem AlongRun.invariant {f : σ → α → Option (β × σ)} {ok : σ → α → Prop}
    (I : List β → σ → Prop)
    (hstep : ∀ bs s a r, I bs s → ok s a → f s a = some r → I (bs ++ [r.1]) r.2)
    {as : List α} {s : σ} (hok : AlongRun f ok s as) {bs : List β} (hs : I bs s)
    {q : List β × σ} (h : feed f s as = some q) : I (bs ++ q.1) q.2 := by
  induction as generalizing s bs q with
  | nil =>
    obtain rfl := Option.some.inj h
    simpa using hs
  | cons a as ih =>
    obtain ⟨outs, t⟩ := q
    obtain ⟨b, s', bs', hf, hfeed, rfl⟩ := exists_of_feed_cons h
    have hI := ih (hok.2 _ hf) (hstep bs s a _ hs hok.1 hf) hfeed
    simpa using hI

/-- Simulation: if related states answer every admissible input alike and stay related, then
they answer every admissible list of inputs alike. -/
theorem feed_refines {f : σ → α → Option (β × σ)} {g : τ → α → Option (β × τ)}
    {ok : σ → α → Prop} (R : σ → τ → Prop)
    (hstep : ∀ s t a, R s t → ok s a →
      ∃ b s' t', f s a = some (b, s') ∧ g t a = some (b, t') ∧ R s' t') :
    ∀ (as : List α) (s : σ) (t : τ), R s t → AlongRun f ok s as →
      ∃ bs s' t', feed f s as = some (bs, s') ∧ feed g t as = some (bs, t') ∧ R s' t' := by
  intro as
  induction as with
  | nil => intro s t hR _; exact ⟨[], s, t, rfl, rfl, hR⟩
  | cons a as ih =>
    intro s t hR hok
    obtain ⟨b, s₁, t₁, hf, hg, hR₁⟩ := hstep s t a hR hok.1
    obtain ⟨bs, s', t', hfs, hgs, hR'⟩ := ih s₁ t₁ hR₁ (hok.2 _ hf)
    refine ⟨b :: bs, s', t', ?_, ?_, hR'⟩
    · rw [feed_cons_of_some hf, hfs, Option.map_some]
    · rw [feed_cons_of_some hg, hgs, Option.map_some]

/-- Hiding: a machine that is given the visible ones of a list of inputs answers them as a machine
that is given all of them, if related states answer a visible input alike and a hidden one only
moves the machine that gets it. -/
theorem feed_filter {f : σ → α → Option (β × σ)} {g : τ → α → Option (β × τ)}
    {ok : σ → α → Prop} (vis : α → Bool) (R : σ → τ → Prop)
    (hvis : ∀ s t a, R s t → ok s a → vis a = true →
      ∃ b s' t', f s a = some (b, s') ∧ g t a = some (b, t') ∧ R s' t')
    (hhid : ∀ s t a, R s t → ok s a → vis a = false → ∃ b s', f s a = some (b, s') ∧ R s' t) :
    ∀ (as : List α) (s : σ) (t : τ), R s t → AlongRun f ok s as →
      ∃ bs s' cs t', feed f s as = some (bs, s') ∧ feed g t (as.filter vis) = some (cs, t') ∧
        ((as.zip bs).filter fun x => vis x.1).map Prod.snd = cs ∧ R s' t' := by
  intro as
  induction as with
  | nil => intro s t hR _; exact ⟨[], s, [], t, rfl, rfl, rfl, hR⟩
  | cons a as ih =>
    intro s t hR hok
    -- A visible input is taken by both systems, a hidden one by the first only.
    cases ha : vis a with
    | true =>
      obtain ⟨b, s₁, t₁, hf, hg, hR₁⟩ := hvis s t a hR hok.1 ha
      obtain ⟨bs, s', cs, t', hfs, hgs, houts, hR'⟩ := ih s₁ t₁ hR₁ (hok.2 _ hf)
      refine ⟨b :: bs, s', b :: cs, t', ?_, ?_, ?_, hR'⟩
      · rw [feed_cons_of_some hf, hfs, Option.map_some]
      · rw [List.filter_cons_of_pos ha, feed_cons_of_some hg, hgs, Option.map_some]
      · simp [ha, houts]
    | false =>
      obtain ⟨b, s₁, hf, hR₁⟩ := hhid s t a hR hok.1 ha
      obtain ⟨bs, s', cs, t', hfs, hgs, houts, hR'⟩ := ih s₁ t hR₁ (hok.2 _ hf)
      refine ⟨b :: bs, s', cs, t', ?_, ?_, ?_, hR'⟩
      · rw [feed_cons_of_some hf, hfs, Option.map_some]
      · rw [List.filter_cons_of_neg (by simp [ha]), hgs]
      · simp [ha, houts]

/-- A machine that fails exactly on the inputs that violate `ok`, and keeps `I` otherwise,
survives every prefix of a list of inputs exactly when `ok` holds along it. Whatever follows from
`I` then holds in every state reached. -/
theorem alongRun_iff_feed_take {f : σ → α → Option (β × σ)} {ok : σ → α → Prop}
    (I Q : σ → Prop) (hQ : ∀ s, I s → Q s)
    (hok : ∀ s a, I s → ok s a → ∃ b s', f s a = some (b, s') ∧ I s')
    (hfail : ∀ s a, I s → ¬ok s a → f s a = none) :
    ∀ (as : List α) (s : σ), I s → (AlongRun f ok s as ↔
      ∀ n, ∃ bs t, feed f s (as.take n) = some (bs, t) ∧ Q t) := by
  intro as
  induction as with
  | nil => intro s hs; simpa [AlongRun, feed] using hQ s hs
  | cons a as ih =>
    intro s hs
    constructor
    · rintro ⟨hoka, hrest⟩ n
      obtain ⟨b, s', hf, hs'⟩ := hok s a hs hoka
      cases n with
      | zero => exact ⟨[], s, rfl, hQ s hs⟩
      | succ n =>
        obtain ⟨bs, t, hfeed, ht⟩ := (ih s' hs').mp (hrest _ hf) n
        exact ⟨b :: bs, t, by rw [List.take_succ_cons, feed_cons_of_some hf, hfeed]; rfl, ht⟩
    · intro hall
      -- An input that violates `ok` would already stop the prefix of length one.
      have hoka : ok s a := by
        by_contra hn
        obtain ⟨bs, t, hfeed, -⟩ := hall 1
        simp [feed, hfail s a hs hn] at hfeed
      refine ⟨hoka, fun r hr => ?_⟩
      obtain ⟨b, s', hf, hs'⟩ := hok s a hs hoka
      obtain rfl : r = (b, s') := Option.some.inj (hr.symm.trans hf)
      -- The prefixes of the rest are those of the whole list, without the first input.
      refine (ih s' hs').mpr fun n => ?_
      obtain ⟨bs, t, hfeed, ht⟩ := hall (n + 1)
      rw [List.take_succ_cons, feed_cons_of_some hf] at hfeed
      obtain ⟨q, hq, heq⟩ := Option.map_eq_some_iff.mp hfeed
      exact ⟨q.1, q.2, hq, (congrArg Prod.snd heq) ▸ ht⟩

/-- A machine on which the inputs that violate `ok` fail or do damage that no later input repairs
ends a list of inputs in `A` without damage exactly when `ok` holds along it. -/
theorem alongRun_iff_exists_feed {f : σ → α → Option (β × σ)} {ok : σ → α → Prop}
    (A : α → Prop) (I D : σ → Prop) (hI : ∀ s a r, I s → f s a = some r → I r.2)
    (hok : ∀ s a, A a → I s → D s → ok s a → ∃ b s', f s a = some (b, s') ∧ D s')
    (hfail : ∀ s a r, A a → I s → D s → ¬ok s a → f s a = some r → ¬D r.2)
    (hbad : ∀ s a r, I s → ¬D s → f s a = some r → ¬D r.2) :
    ∀ (as : List α) (s : σ), (∀ a ∈ as, A a) → I s → D s → (AlongRun f ok s as ↔
      ∃ bs t, feed f s as = some (bs, t) ∧ D t) := by
  -- Damage stays to the end.
  have hstay : ∀ (as : List α) (s : σ) (q : List β × σ), I s → ¬D s → feed f s as = some q →
      ¬D q.2 := fun as s q hs hd h =>
    (feed_invariant (fun s => I s ∧ ¬D s)
      (fun s a r hs hr => ⟨hI s a r hs.1 hr, hbad s a r hs.1 hs.2 hr⟩) ⟨hs, hd⟩ h).2
  intro as
  induction as with
  | nil => intro s _ _ hd; simpa [AlongRun, feed] using hd
  | cons a as ih =>
    intro s hA hs hd
    obtain ⟨ha, has⟩ := List.forall_mem_cons.mp hA
    constructor
    · rintro ⟨hoka, hrest⟩
      obtain ⟨b, s', hf, hd'⟩ := hok s a ha hs hd hoka
      obtain ⟨bs, t, hfeed, ht⟩ := (ih s' has (hI s a _ hs hf) hd').mp (hrest _ hf)
      exact ⟨b :: bs, t, by rw [feed_cons_of_some hf, hfeed]; rfl, ht⟩
    · rintro ⟨bs, t, hfeed, ht⟩
      obtain ⟨b, s', bs', hf, hfeed, -⟩ := exists_of_feed_cons hfeed
      have hI' : I s' := hI s a _ hs hf
      have hd' : D s' := by
        by_contra hn
        exact hstay as s' _ hI' hn hfeed ht
      have hoka : ok s a := by
        by_contra hn
        exact hfail s a _ ha hs hd hn hf hd'
      refine ⟨hoka, fun r hr => ?_⟩
      obtain rfl := Option.some.inj (hf.symm.trans hr)
      exact (ih s' has hI' hd').mpr ⟨bs', t, hfeed, ht⟩

end SysLib
