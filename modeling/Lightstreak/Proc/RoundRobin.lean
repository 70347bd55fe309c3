import Mathlib.Data.Finset.Card
import Lightstreak.Proc.SchedulerRuns

/-!
# Which process a tick chooses

The ring of the run queue is read from the current process on (`Ring.startAt`), so that the
processes behind its head stand in the order in which `scheduler_tick` meets them.

* `schedulerTick_eq`: a tick switches to the first READY process among the next 65, and does
  nothing but count if there is none.
* `schedulerTick_firstReady_iff`: when this is the first READY process of the whole ring.
* `InTurn.tick`: while all processes but the running one are READY, a tick turns the ring by one;
  `InTurn.ticks` and `InTurn.round` carry this to any number of ticks and to one full turn.
* `roundRobin_of_run`: the full turn from every state that `scheduler_init` leads to.
-/

namespace Lightstreak

open SysLib

variable {P : Type} [DecidableEq P] {s : SchedState P} {a p c n : P} {q l : List P}

/-! ## The search -/

/-- The search along a path to `c` stops at the first READY process that it meets. -/
theorem tickSearch_of_find_eq_some (hl : Ring.Links s.next a l c) (hc : c ∉ l) {steps : ℕ}
    (hfind : (l.take (steps + 1)).find? (s.state · = .ready) = some n) :
    tickSearch s c steps (s.next a) = some n := by
  induction l generalizing a steps with
  | nil => simp at hfind
  | cons b l ih =>
    obtain ⟨hcb, hcl⟩ := not_or.mp (mt List.mem_cons.mpr hc)
    rw [hl.1]
    rw [List.take_succ_cons, List.find?_cons] at hfind
    by_cases hb : s.state b = .ready
    · obtain rfl : b = n := by simpa [hb] using hfind
      cases steps <;> simp [tickSearch, hb]
    · -- The search goes on behind `b`, with one step less.
      simp only [hb, decide_false] at hfind
      cases steps with
      | zero => simp at hfind
      | succ steps =>
        rw [tickSearch, if_pos ⟨hb, Ne.symm hcb⟩]
        exact ih hl.2 hcl hfind

/-- If it meets none, it ends at `c` or gives up at a process that is not READY. -/
theorem tickSearch_of_find_eq_none (hl : Ring.Links s.next a l c) (hc : c ∉ l) {steps : ℕ}
    (hfind : (l.take (steps + 1)).find? (s.state · = .ready) = none) :
    ∃ x, tickSearch s c steps (s.next a) = some x ∧ (x = c ∨ s.state x ≠ .ready) := by
  -- The search passes one process after the other that is not ready, until it is back or out of
  -- steps.
  induction l generalizing a steps with
  | nil =>
    have hnext : s.next a = some c := hl
    rw [hnext]
    exact ⟨c, by cases steps <;> simp [tickSearch], .inl rfl⟩
  | cons b l ih =>
    obtain ⟨hcb, hcl⟩ := not_or.mp (mt List.mem_cons.mpr hc)
    rw [hl.1]
    rw [List.take_succ_cons, List.find?_cons] at hfind
    by_cases hb : s.state b = .ready
    · simp [hb] at hfind
    · simp only [hb, decide_false] at hfind
      cases steps with
      | zero => exact ⟨b, rfl, .inr hb⟩
      | succ steps =>
        rw [tickSearch, if_pos ⟨hb, Ne.symm hcb⟩]
        exact ih hl.2 hcl hfind

/-- A tick on the ring of `c` and the processes `l` behind it. -/
theorem schedulerTick_eq {h : P} (hring : Ring.IsRing s.next (c :: l))
    (hrq : s.runQueue = some h) (hcur : s.current = some c) :
    schedulerTick s = some
      (match (l.take 65).find? (s.state · = .ready) with
      | some n => (tickSwitch (timerTick s) c n, some (c, n))
      | none => (timerTick s, none)) := by
  obtain ⟨hl, hnd⟩ := hring
  have hc := (List.nodup_cons.mp hnd).1
  cases hfind : (l.take 65).find? (s.state · = .ready) with
  | some n =>
    have hn : n ≠ c := fun h => hc (h ▸ List.mem_of_mem_take (List.mem_of_find?_eq_some hfind))
    have hready : s.state n = .ready := by simpa using List.find?_some hfind
    have hsearch : tickSearch (timerTick s) c 64 (s.next c) = some n :=
      tickSearch_of_find_eq_some (s := timerTick s) hl hc hfind
    rw [schedulerTick_of_search hrq hcur hsearch, if_neg (by simp [hn, hready])]
  | none =>
    -- The search has come back to the current process, or has stopped at one that is not ready.
    obtain ⟨x, hsearch, hx⟩ := tickSearch_of_find_eq_none (s := timerTick s) hl hc hfind
    have hx' : x = c ∨ s.state x ≠ .ready := hx
    rw [schedulerTick_of_search hrq hcur hsearch, if_pos hx']

/-! ## The first READY process -/

/-- What a tick is for: of the processes `others` behind the current one, the first that is READY
takes over, and if none is, the current process and all states stay. -/
def ChoosesFirstReady (s : SchedState P) (others : List P) (s' : SchedState P) : Prop :=
  match others.find? (s.state · = .ready) with
  | some n => s'.current = some n
  | none => s'.current = s.current ∧ s'.state = s.state

omit [DecidableEq P] in
theorem find?_eq_some_of_take {f : P → Bool} {k : ℕ} (h : (l.take k).find? f = some n) :
    l.find? f = some n := by
  rw [← List.take_append_drop k l, List.find?_append, h, Option.some_or]

/-- A tick chooses the first READY process of the ring exactly when that process, if there is one,
is among the 65 processes behind the current one: the search takes 64 steps. -/
theorem schedulerTick_firstReady_iff (hq : s.IsQueue q) (hcur : s.current = some c)
    (hc : c ∈ q) :
    (∃ s' switch, schedulerTick s = some (s', switch) ∧
      ChoosesFirstReady s (Ring.startAt c q).tail s') ↔
    ∀ n, (Ring.startAt c q).tail.find? (s.state · = .ready) = some n →
      n ∈ (Ring.startAt c q).tail.take 65 := by
  obtain ⟨l, hl⟩ := Ring.exists_startAt_eq_cons hc
  obtain ⟨h, hrq⟩ : ∃ h, s.runQueue = some h := by
    obtain ⟨h, t, rfl⟩ := List.exists_cons_of_ne_nil (List.ne_nil_of_mem hc)
    exact ⟨h, hq.head⟩
  have hring : Ring.IsRing s.next (c :: l) := hl ▸ hq.ring.startAt c
  rw [hl, List.tail_cons, schedulerTick_eq hring hrq hcur]
  cases hnear : (l.take 65).find? (s.state · = .ready) with
  | some n =>
    have hfind := find?_eq_some_of_take hnear
    have hmem := List.mem_of_find?_eq_some hnear
    refine iff_of_true ⟨_, _, rfl, ?_⟩ fun n' hn' => ?_
    · rw [ChoosesFirstReady, hfind]
      rfl
    · rwa [Option.some.inj (hn'.symm.trans hfind)]
  | none =>
    cases hfind : l.find? (s.state · = .ready) with
    | none =>
      refine iff_of_true ⟨_, _, rfl, ?_⟩ fun n hn => by cases hn
      rw [ChoosesFirstReady, hfind]
      exact ⟨rfl, rfl⟩
    | some n =>
      -- The first READY process lies out of reach, and the tick does nothing.
      have hready : s.state n = .ready := by simpa using List.find?_some hfind
      have hc : c ∉ l := (List.nodup_cons.mp hring.2).1
      refine iff_of_false ?_ fun hall => ?_
      · rintro ⟨s', switch, htick, hchoose⟩
        obtain ⟨rfl, -⟩ := Prod.mk.inj (Option.some.inj htick)
        rw [ChoosesFirstReady, hfind] at hchoose
        have hcn : some c = some n := hcur.symm.trans hchoose
        exact hc (Option.some.inj hcn ▸ List.mem_of_find?_eq_some hfind)
      · exact absurd (by simpa using hready)
          (List.find?_eq_none.mp hnear n (hall n rfl))

/-- A ring of the processes 0 to `k - 1` with 0 running, the last one READY, and zombies between
them. -/
def lastReady (k : ℕ) : SchedState ℕ where
  current := some 0
  runQueue := some 0
  procs p :=
    { pid := p
      kernelStackTop := 8192 * (p + 1)
      state := if p = 0 then .running else if p + 1 = k then .ready else .zombie
      exitCode := 0
      next := some ((p + 1) % k) }
  nextPid := k
  esp0 := 8192
  tickCount := 0

theorem links_lastReady {k a i : ℕ} (h : a + i + 1 = k) :
    Ring.Links (lastReady k).next a (List.range' (a + 1) i) 0 := by
  have hnext : (lastReady k).next a = some ((a + 1) % k) := rfl
  induction i generalizing a with
  | zero => rw [List.range'_zero, Ring.Links, hnext, ← h, Nat.mod_self]
  | succ i ih =>
    rw [List.range'_succ, Ring.Links, hnext, Nat.mod_eq_of_lt (by omega)]
    exact ⟨rfl, ih (by omega) rfl⟩

theorem isQueue_lastReady (k : ℕ) : (lastReady (k + 1)).IsQueue (List.range (k + 1)) := by
  have hrange : List.range (k + 1) = 0 :: List.range' 1 k := by
    rw [List.range_eq_range', List.range'_succ]
  refine ⟨by rw [hrange]; rfl, ?_⟩
  rw [hrange]
  exact ⟨links_lastReady (by omega), hrange ▸ List.nodup_range⟩

/-- In a ring of 66 processes the last one is just within reach. -/
theorem schedulerTick_firstReady_iff_lastReady :
    (lastReady 66).IsQueue (List.range 66) ∧
      ∃ s' switch, schedulerTick (lastReady 66) = some (s', switch) ∧
        ChoosesFirstReady (lastReady 66) (Ring.startAt 0 (List.range 66)).tail s' := by
  refine ⟨isQueue_lastReady 65,
    (schedulerTick_firstReady_iff (isQueue_lastReady 65) rfl (by simp)).mpr fun n hn => ?_⟩
  have hlen : (Ring.startAt 0 (List.range 66)).tail.length ≤ 65 := by
    rw [List.length_tail, (Ring.startAt_perm 0 (List.range 66)).length_eq, List.length_range]
  rw [List.take_of_length_le hlen]
  exact List.mem_of_find?_eq_some hn

/-- In a ring of 67 processes the only READY one is not found. -/
theorem not_choosesFirstReady_lastReady :
    (lastReady 67).IsQueue (List.range 67) ∧ (lastReady 67).current = some 0 ∧
      (Ring.startAt 0 (List.range 67)).tail.find? ((lastReady 67).state · = .ready) = some 66 ∧
      ¬ ∃ s' switch, schedulerTick (lastReady 67) = some (s', switch) ∧
        ChoosesFirstReady (lastReady 67) (Ring.startAt 0 (List.range 67)).tail s' := by
  have hfind : (Ring.startAt 0 (List.range 67)).tail.find?
      ((lastReady 67).state · = .ready) = some 66 := by decide
  refine ⟨isQueue_lastReady 66, rfl, hfind, ?_⟩
  rintro ⟨s', switch, htick, hchoose⟩
  -- All 65 processes that the search looks at are zombies.
  have hnone : ((List.range' 1 66).take 65).find? ((lastReady 67).state · = .ready) = none := by
    decide
  have hring : Ring.IsRing (lastReady 67).next (0 :: List.range' 1 66) :=
    (isQueue_lastReady 66).ring
  rw [schedulerTick_eq hring rfl rfl, hnone] at htick
  obtain ⟨rfl, -⟩ := Prod.mk.inj (Option.some.inj htick)
  rw [ChoosesFirstReady, hfind] at hchoose
  cases hchoose

/-! ## Turns -/

/-- `n` successive ticks, with the process that is current after each of them. -/
def ticks : ℕ → SchedState P → Option (List (Option P) × SchedState P)
  | 0, s => some ([], s)
  | n + 1, s => do
    let (s, _) ← schedulerTick s
    let (currents, s') ← ticks n s
    return (s.current :: currents, s')

/-- The ring, read from the current process on: this one is RUNNING and all others are READY. -/
structure InTurn (s : SchedState P) (l : List P) : Prop where
  /-- The queue is a ring. -/
  ring : Ring.IsRing s.next l
  /-- The head of the queue is in the ring. -/
  queue : ∃ h ∈ l, s.runQueue = some h
  /-- The list starts with the current process. -/
  current : s.current = l.head?
  /-- The current process is running, and the others are ready. -/
  state : ∀ p ∈ l, s.state p = if s.current = some p then .running else .ready

/-- The links, the queue's head and the states of all processes outside the ring `l` stay. -/
structure KeepsRing (l : List P) (s s' : SchedState P) : Prop where
  /-- No link has changed. -/
  next : s'.next = s.next
  /-- The head has not changed. -/
  runQueue : s'.runQueue = s.runQueue
  /-- Other processes have not changed. -/
  state : ∀ p ∉ l, s'.state p = s.state p

omit [DecidableEq P] in
theorem KeepsRing.trans {s' s'' : SchedState P} (h : KeepsRing l s s') (h' : KeepsRing l s' s'') :
    KeepsRing l s s'' :=
  ⟨h'.next.trans h.next, h'.runQueue.trans h.runQueue,
    fun p hp => (h'.state p hp).trans (h.state p hp)⟩

/-- A queue whose current process is running is in turn, from this process on. -/
theorem inTurn_startAt (hq : s.IsQueue q) (hcur : s.current = some c) (hc : c ∈ q)
    (hstate : ∀ p ∈ q, s.state p = if s.current = some p then .running else .ready) :
    InTurn s (Ring.startAt c q) := by
  have hmem : ∀ p, p ∈ Ring.startAt c q ↔ p ∈ q := fun p => (Ring.startAt_perm c q).mem_iff
  obtain ⟨h, t, rfl⟩ := List.exists_cons_of_ne_nil (List.ne_nil_of_mem hc)
  obtain ⟨l, hl⟩ := Ring.exists_startAt_eq_cons hc
  exact ⟨hq.ring.startAt c, ⟨h, (hmem h).mpr (by simp), hq.head⟩, by rw [hcur, hl]; rfl,
    fun p hp => hstate p ((hmem p).mp hp)⟩

/-- A tick hands the turn to the next process of the ring. -/
theorem InTurn.tick (ht : InTurn s l) :
    ∃ s' switch, schedulerTick s = some (s', switch) ∧ InTurn s' (l.rotate 1) ∧
      KeepsRing l s s' := by
  obtain ⟨h, hmem, hrq⟩ := ht.queue
  obtain ⟨c, t, rfl⟩ := List.exists_cons_of_ne_nil (List.ne_nil_of_mem hmem)
  have hcur : s.current = some c := ht.current
  have htick := schedulerTick_eq ht.ring hrq hcur
  cases t with
  | nil =>
    -- A process alone keeps its turn.
    rw [List.rotate_singleton]
    exact ⟨_, _, htick, ⟨ht.ring, ht.queue, ht.current, ht.state⟩, rfl, rfl, fun _ _ => rfl⟩
  | cons b t =>
    -- The next process is READY, so that the search stops at once.
    have hnd := ht.ring.nodup
    have hbc : b ≠ c := fun heq => (List.nodup_cons.mp hnd).1 (by simp [heq])
    have hb : s.state b = .ready := by
      rw [ht.state b (by simp), hcur, if_neg (by simpa using Ne.symm hbc)]
    have hc : s.state c = .running := by rw [ht.state c (by simp), if_pos hcur]
    have hfind : ((b :: t).take 65).find? (s.state · = .ready) = some b := by simp [hb]
    rw [hfind] at htick
    have hstate : (tickSwitch (timerTick s) c b).state =
        Function.update (Function.update s.state c .ready) b .running := by
      have hc' : (timerTick s).state c = .running := hc
      rw [state_tickSwitch, if_pos hc']
      rfl
    have hnext : (tickSwitch (timerTick s) c b).next = s.next :=
      (tickSwitch_fields (timerTick s) c b).1
    have hqueue : (tickSwitch (timerTick s) c b).runQueue = s.runQueue :=
      runQueue_tickSwitch (timerTick s) c b
    refine ⟨_, _, htick, ⟨?_, ⟨h, List.mem_rotate.mpr hmem, hqueue.trans hrq⟩, rfl, ?_⟩,
      hnext, hqueue, ?_⟩
    · rw [hnext]
      exact ht.ring.rotate_one
    · -- Process by process: `b` runs, `c` waits, and the others are as they were.
      intro p hp
      have hcur' : (tickSwitch (timerTick s) c b).current = some b := rfl
      rw [hstate, hcur']
      by_cases hpb : p = b
      · rw [hpb, Function.update_self, if_pos rfl]
      rw [Function.update_of_ne hpb, if_neg (by simpa using Ne.symm hpb)]
      by_cases hpc : p = c
      · rw [hpc, Function.update_self]
      · rw [Function.update_of_ne hpc, ht.state p (List.mem_rotate.mp hp), hcur,
          if_neg (by simpa using Ne.symm hpc)]
    · intro p hp
      obtain ⟨hpc, hpt⟩ := not_or.mp (mt List.mem_cons.mpr hp)
      obtain ⟨hpb, -⟩ := not_or.mp (mt List.mem_cons.mpr hpt)
      rw [hstate, Function.update_of_ne hpb, Function.update_of_ne hpc]

/-- Any number of ticks turns the ring by so many places. -/
theorem InTurn.ticks (ht : InTurn s l) (k : ℕ) :
    ∃ s', ticks k s = some ((List.range k).map fun i => (l.rotate (i + 1)).head?, s') ∧
      InTurn s' (l.rotate k) ∧ KeepsRing l s s' := by
  induction k generalizing s l with
  | zero => exact ⟨s, rfl, by rwa [List.rotate_zero], rfl, rfl, fun _ _ => rfl⟩
  | succ k ih =>
    -- One tick, and `k` more on the ring turned by one place.
    obtain ⟨s₁, switch, htick, ht₁, hkeep₁⟩ := ht.tick
    obtain ⟨s₂, hticks, ht₂, hkeep₂⟩ := ih ht₁
    rw [List.rotate_rotate, Nat.add_comm] at ht₂
    refine ⟨s₂, ?_, ht₂, hkeep₁.trans ⟨hkeep₂.next, hkeep₂.runQueue, fun p hp =>
      hkeep₂.state p (mt List.mem_rotate.mp hp)⟩⟩
    rw [Lightstreak.ticks, htick, List.range_succ_eq_map, List.map_cons, List.map_map]
    simp only [Option.bind_eq_bind, Option.bind_some, hticks, ht₁.current, List.rotate_rotate]
    refine congrArg (fun m => some (_ :: m, s₂)) (List.map_congr_left fun i _ => ?_)
    rw [Function.comp_apply, Nat.add_comm 1]

/-- As many ticks as there are processes: one full turn, after which everything is as before. -/
theorem InTurn.round (ht : InTurn s l) :
    ∃ s', Lightstreak.ticks l.length s = some ((l.rotate 1).map some, s') ∧
      s'.current = s.current ∧ s'.state = s.state ∧ s'.next = s.next ∧
      s'.runQueue = s.runQueue := by
  obtain ⟨s', hticks, ht', hkeep⟩ := ht.ticks l.length
  rw [List.rotate_length] at ht'
  have hcur : s'.current = s.current := ht'.current.trans ht.current.symm
  refine ⟨s', ?_, hcur, funext fun p => ?_, hkeep.next, hkeep.runQueue⟩
  · rw [hticks]
    refine congrArg (fun m => some (m, s')) (List.ext_getElem (by simp) fun i hi _ => ?_)
    have hi' : i < (l.rotate 1).length := by simpa using hi
    rw [List.getElem_map, List.getElem_range, List.getElem_map, Nat.add_comm,
      ← List.rotate_rotate, List.head?_rotate hi', List.getElem?_eq_getElem hi']
  · by_cases hp : p ∈ l
    · rw [ht'.state p hp, ht.state p hp, hcur]
    · exact hkeep.state p hp

/-- A new process waits for its turn like all others. -/
theorem InTurn.add (ht : InTurn s l) (hp : p ∉ l) (top : ℕ) :
    ∃ l', InTurn (schedulerAdd (initPcb s p top) (some p)) l' ∧ l'.Perm (p :: l) := by
  obtain ⟨h, hh, hrq⟩ := ht.queue
  have hperm := Ring.startAt_perm h l
  -- The queue as `scheduler_add` sees it starts at `run_queue`.
  have hq : (initPcb s p top).IsQueue (Ring.startAt h l) := by
    obtain ⟨t, hstart⟩ := Ring.exists_startAt_eq_cons hh
    refine ⟨by rw [hstart]; exact hrq, (ht.ring.startAt h).congr fun x hx => ?_⟩
    have hxp : x ≠ p := fun heq => hp (heq ▸ hperm.mem_iff.mp hx)
    rw [next_initPcb, Function.update_of_ne hxp]
  have hq' := schedulerAdd_isQueue hq (p := p) (mt hperm.mem_iff.mp hp)
  obtain ⟨hstate, -, -, hcur, -⟩ := schedulerAdd_fields (initPcb s p top) p
  obtain ⟨c, t, rfl⟩ := List.exists_cons_of_ne_nil (List.ne_nil_of_mem hh)
  have hcur' : (schedulerAdd (initPcb s p top) (some p)).current = some c :=
    hcur.trans ht.current
  have hmem : ∀ x, x ∈ insertAfterHead p (Ring.startAt h (c :: t)) ↔ x = p ∨ x ∈ c :: t :=
    fun x => by rw [mem_insertAfterHead, hperm.mem_iff]
  have hcp : c ≠ p := fun heq => hp (by simp [heq])
  refine ⟨_, inTurn_startAt hq' hcur' ((hmem c).mpr (by simp)) fun x hx => ?_, ?_⟩
  · rw [hstate, hcur', state_initPcb, Function.update_idem]
    rcases (hmem x).mp hx with rfl | hx
    · rw [Function.update_self, if_neg (by simpa using hcp)]
    · have hxp : x ≠ p := fun heq => hp (heq ▸ hx)
      rw [Function.update_of_ne hxp, ht.state x hx, ht.current]
      rfl
  · -- Both lists have the same members and no repetition.
    refine (Ring.startAt_perm c _).trans ((List.perm_ext_iff_of_nodup hq'.ring.nodup
      (List.nodup_cons.mpr ⟨hp, ht.ring.nodup⟩)).mpr fun x => ?_)
    rw [hmem]
    exact List.mem_cons.symm

/-- Every process of the ring is current once in the course of a full turn. -/
theorem InTurn.count_round (ht : InTurn s l) (hp : p ∈ l) :
    ((l.rotate 1).map some).count (some p) = 1 := by
  rw [List.count_map_of_injective _ _ (Option.some_injective P)]
  exact List.count_eq_one_of_mem (List.nodup_rotate.mpr ht.ring.nodup) (List.mem_rotate.mpr hp)

variable {m : SchedRun P} {ops : List (SchedOp P)}

/-- In every state that `scheduler_init` leads to with all created processes READY except the
RUNNING current one, as many ticks as there are processes make each of them current once, in the
order of the ring, and end where they began; and a process that is added after any number of ticks
is current once within the next full turn. -/
theorem roundRobin_of_run {s₀ : SchedState P} {idle : P} {top : ℕ} (hrq : s₀.runQueue = none)
    (hinit : schedulerInit s₀ (some (idle, top)) = some s)
    (hrun : Run SchedStep (SchedRun.boot s idle) ops m)
    (hturn : ∀ p ∈ m.created,
      m.sched.state p = if m.sched.current = some p then .running else .ready) :
    ∃ q c, m.sched.IsQueue q ∧ (∀ p, p ∈ q ↔ p ∈ m.created) ∧ q.length = m.created.card ∧
      m.sched.current = some c ∧ c ∈ q ∧
      (∃ currents s', ticks q.length m.sched = some (currents, s') ∧
        currents = ((Ring.startAt c q).rotate 1).map some ∧
        (∀ p ∈ m.created, currents.count (some p) = 1) ∧
        s'.current = some c ∧ s'.state = m.sched.state ∧ s'.next = m.sched.next ∧
        s'.runQueue = m.sched.runQueue) ∧
      ∀ k p top, p ∉ m.created → ∃ before s₁ currents s₂,
        ticks k m.sched = some (before, s₁) ∧
        ticks (q.length + 1) (schedulerAdd (initPcb s₁ p top) (some p)) = some (currents, s₂) ∧
        currents.count (some p) = 1 := by
  obtain ⟨q, c, hinv, -⟩ := (SchedRun.inv_boot hrq hinit).of_run hrun
  have hperm := Ring.startAt_perm c q
  have ht := inTurn_startAt hinv.queue hinv.current hinv.current_mem
    fun p hp => hturn p ((hinv.mem p).mp hp)
  have hcard : q.length = m.created.card := by
    rw [← List.toFinset_card_of_nodup hinv.queue.ring.nodup]
    exact congrArg Finset.card (Finset.ext fun p => List.mem_toFinset.trans (hinv.mem p))
  refine ⟨q, c, hinv.queue, hinv.mem, hcard, hinv.current, hinv.current_mem, ?_,
    fun k p top hp => ?_⟩
  · obtain ⟨s', hticks, hcur, hstate, hnext, hqueue⟩ := ht.round
    rw [hperm.length_eq] at hticks
    exact ⟨_, s', hticks, rfl,
      fun p hp => ht.count_round (hperm.mem_iff.mpr ((hinv.mem p).mpr hp)),
      hcur.trans hinv.current, hstate, hnext, hqueue⟩
  · -- After `k` ticks the processes still take turns, and the new one makes one more of them.
    obtain ⟨s₁, hticks, ht₁, -⟩ := ht.ticks k
    have hp₁ : p ∉ (Ring.startAt c q).rotate k := fun hx =>
      hp ((hinv.mem p).mp (hperm.mem_iff.mp (List.mem_rotate.mp hx)))
    obtain ⟨l', ht₂, hperm₂⟩ := ht₁.add hp₁ top
    obtain ⟨s₂, hticks₂, -⟩ := ht₂.round
    have hlen : l'.length = q.length + 1 := by
      rw [hperm₂.length_eq, List.length_cons, List.length_rotate, hperm.length_eq]
    exact ⟨_, s₁, _, s₂, hticks, hlen ▸ hticks₂, ht₂.count_round (hperm₂.mem_iff.mpr (by simp))⟩

/-- Two processes are added to the idle one; three ticks make one turn, and a third process added
after one more tick is current once within four. -/
theorem roundRobin_of_run_three :
    ∃ m, Run SchedStep (SchedRun.boot idleOnly 0)
        [.add (some (1, 8192)), .add (some (2, 16384))] m ∧
      (∃ currents s', ticks 3 m.sched = some (currents, s') ∧
        (∀ p ∈ [0, 1, 2], currents.count (some p) = 1) ∧ s'.state = m.sched.state) ∧
      ∃ before s₁ currents s₂, ticks 1 m.sched = some (before, s₁) ∧
        ticks 4 (schedulerAdd (initPcb s₁ 3 32768) (some 3)) = some (currents, s₂) ∧
        currents.count (some 3) = 1 := by
  have hadd₁ : SchedStep (SchedRun.boot idleOnly 0) (.add (some (1, 8192))) _ :=
    ⟨rfl, by simp [SchedRun.Fresh, SchedRun.boot], rfl⟩
  have hrun₁ := (Run.nil _).snoc hadd₁
  have hrun₂ := hrun₁.snoc (a := SchedOp.add (some (2, 16384)))
    ⟨rfl, by simp [SchedRun.Fresh, SchedRun.boot], rfl⟩
  refine ⟨_, hrun₂, ?_⟩
  obtain ⟨q, c, -, -, hlen, -, -, ⟨currents, s', hticks, -, hone, -, hstate, -⟩, hnew⟩ :=
    roundRobin_of_run (show emptyQueue.sched.runQueue = none from rfl) rfl hrun₂ (by decide)
  rw [show q.length = 3 from hlen] at hticks hnew
  have hall : ∀ p ∈ [0, 1, 2], p ∈ ({2, 1, 0} : Finset ℕ) := by decide
  exact ⟨⟨currents, s', hticks, fun p hp => hone p (hall p hp), hstate⟩,
    hnew 1 3 32768 (by decide)⟩

end Lightstreak
