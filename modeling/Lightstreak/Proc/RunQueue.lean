import Mathlib.Data.Finset.Basic
import Lightstreak.Proc.Scheduler

/-!
# The run queue is a circular list

`IsQueue s q` says that the processes of the list `q` form one cycle through their `next` fields
that starts at `run_queue`. The two queue operations are then operations on lists: `scheduler_add`
inserts after the head (`schedulerAdd_isQueue`) and `scheduler_remove` erases
(`schedulerRemove_isQueue`), whose search for the predecessor returns because the list is a cycle.

`runQueue_of_run` carries this over every history of the queue, with the set of the processes that
were added and not removed since kept next to the state.
-/

namespace Lightstreak

open SysLib

variable {P : Type} [DecidableEq P] {s : SchedState P} {p : P} {q : List P}

/-- Following `next` from `run_queue` is one cycle through the processes of `q`, in this order. -/
structure SchedState.IsQueue (s : SchedState P) (q : List P) : Prop where
  /-- `run_queue` points to the first process. -/
  head : s.runQueue = q.head?
  /-- The links are a ring through the processes in order. -/
  ring : Ring.IsRing s.next q

omit [DecidableEq P] in
/-- A queue depends on its head and the links of its members only. -/
theorem SchedState.IsQueue.congr {s' : SchedState P} (hq : s.IsQueue q)
    (hrq : s'.runQueue = s.runQueue) (hnext : ∀ x ∈ q, s'.next x = s.next x) : s'.IsQueue q :=
  ⟨hrq.trans hq.head, hq.ring.congr hnext⟩

/-- Where `scheduler_add` puts a process. -/
def insertAfterHead (p : P) : List P → List P
  | [] => [p]
  | h :: t => h :: p :: t

omit [DecidableEq P] in
/-- A process is put into the queue, and no other leaves or enters. -/
theorem mem_insertAfterHead {x : P} : x ∈ insertAfterHead p q ↔ x = p ∨ x ∈ q := by
  cases q with
  | nil => simp [insertAfterHead]
  | cons h t => simp [insertAfterHead, or_left_comm]

/-! ## The operations on a queue -/

/-- `scheduler_add` puts a process behind the head. -/
theorem schedulerAdd_isQueue (hq : s.IsQueue q) (hp : p ∉ q) :
    (schedulerAdd s (some p)).IsQueue (insertAfterHead p q) := by
  cases q with
  | nil =>
    have hrq : s.runQueue = none := hq.head
    constructor
    · simp [schedulerAdd, insertAfterHead, hrq]
    · refine ⟨?_, by simp⟩
      simp [schedulerAdd, hrq, Ring.Links]
  | cons h t =>
    have hrq : s.runQueue = some h := hq.head
    constructor
    · simp [schedulerAdd, insertAfterHead, hrq]
    · have hring := hq.ring.insert hp
      simpa [schedulerAdd, insertAfterHead, hrq] using hring

section Remove

variable {h b : P} {t u v : List P} {fuel : ℕ}

/-- What `scheduler_remove` does after its search. -/
theorem schedulerRemove_of_pred {prev : P} (hrq : s.runQueue = some h)
    (hpred : loop (Ring.findPred s.next p h) fuel h = some (some prev)) :
    schedulerRemove fuel s (some p) = some
      (if s.next prev ≠ some p then s
      else
        (if s.next p = some p then { s with runQueue := none }
        else if h = p then
          { s.setNext prev (s.next p) with runQueue := (s.setNext prev (s.next p)).next p }
        else s.setNext prev (s.next p)).setNext p none) := by
  simp only [schedulerRemove, hrq, hpred]
  rw [apply_ite some]
  rfl

/-- Removing a process that is not queued changes nothing. -/
theorem schedulerRemove_of_not_mem (hq : s.IsQueue q) (hfuel : q.length < fuel) (hp : p ∉ q) :
    schedulerRemove fuel s (some p) = some s := by
  cases q with
  | nil => simp [schedulerRemove, show s.runQueue = none from hq.head]
  | cons h t =>
    obtain ⟨hph, hpt⟩ := not_or.mp (mt List.mem_cons.mpr hp)
    -- The search goes once around and stops in front of the head.
    have hlast : s.next (t.getLastD h) = some h := hq.ring.1.next_getLastD
    have hpred := Ring.loop_findPred_of_not_mem hq.ring.1 (List.nodup_cons.mp hq.ring.2).1
      (Nat.lt_of_succ_lt hfuel) hpt
    rw [schedulerRemove_of_pred hq.head hpred, hlast, if_pos (by simpa using Ne.symm hph)]

/-- Removing the only process empties the queue. -/
theorem schedulerRemove_single (hq : s.IsQueue [p]) (hfuel : [p].length < fuel) :
    ∃ s', schedulerRemove fuel s (some p) = some s' ∧ s'.IsQueue [] := by
  have hnext : s.next p = some p := hq.ring.1
  refine ⟨{ s with runQueue := none }.setNext p none, ?_, ⟨rfl, trivial⟩⟩
  have hpred := Ring.loop_findPred_of_not_mem hq.ring.1 List.not_mem_nil
    (Nat.lt_of_succ_lt hfuel) (p := p) List.not_mem_nil
  rw [schedulerRemove_of_pred hq.head hpred]
  simp [hnext]

/-- Removing the head moves `run_queue` to its successor. -/
theorem schedulerRemove_head (hq : s.IsQueue (p :: b :: t))
    (hfuel : (p :: b :: t).length < fuel) :
    ∃ s', schedulerRemove fuel s (some p) = some s' ∧ s'.IsQueue (b :: t) := by
  obtain ⟨hlast, hnext, hbp, hring⟩ := hq.ring.erase_head
  have hpt : p ∉ b :: t := (List.nodup_cons.mp hq.ring.2).1
  have hne : p ≠ t.getLastD b := fun heq => hpt (heq ▸ Ring.getLastD_mem_cons b t)
  -- The head is found as the successor of the last process, after a full turn.
  have hpred := Ring.loop_findPred_of_not_mem hq.ring.1 hpt (Nat.lt_of_succ_lt hfuel) hpt
  rw [List.getLastD_cons] at hpred
  have hkeep : (s.setNext (t.getLastD b) (s.next p)).next p = some b := by
    rw [SchedState.next_setNext, Function.update_of_ne hne, hnext]
  rw [schedulerRemove_of_pred hq.head hpred, if_neg (not_not.mpr hlast),
    if_neg (by simpa [hnext] using hbp), if_pos rfl, hkeep]
  refine ⟨_, rfl, rfl, ?_⟩
  rw [SchedState.next_setNext]
  exact (s.next_setNext (t.getLastD b) (s.next p)) ▸ hring

/-- Removing a process behind the head links its neighbours. -/
theorem schedulerRemove_tail (hq : s.IsQueue (h :: (u ++ p :: v)))
    (hfuel : (h :: (u ++ p :: v)).length < fuel) (hpu : p ∉ u) :
    ∃ s', schedulerRemove fuel s (some p) = some s' ∧ s'.IsQueue (h :: (u ++ v)) := by
  obtain ⟨hlast, hnext, hvp, hring⟩ := hq.ring.erase_tail
  have hhp : h ≠ p := fun heq => (List.nodup_cons.mp hq.ring.2).1 (by simp [heq])
  have hpred := Ring.loop_findPred_of_mem hq.ring.1 (List.nodup_cons.mp hq.ring.2).1
    (Nat.lt_of_succ_lt hfuel) hpu
  rw [schedulerRemove_of_pred hq.head hpred, if_neg (not_not.mpr hlast),
    if_neg (by simpa [hnext] using hvp), if_neg hhp]
  refine ⟨_, rfl, hq.head, ?_⟩
  rw [SchedState.next_setNext, SchedState.next_setNext]
  exact hring

/-- `scheduler_remove` returns and erases the process from the queue. -/
theorem schedulerRemove_isQueue (hq : s.IsQueue q) (hfuel : q.length < fuel) (p : P) :
    ∃ s', schedulerRemove fuel s (some p) = some s' ∧ s'.IsQueue (q.erase p) := by
  by_cases hp : p ∈ q
  · cases q with
    | nil => cases hp
    | cons h t =>
      -- The source treats the head apart, and the only process apart from other heads.
      by_cases hhp : h = p
      · subst hhp
        rw [List.erase_cons_head]
        cases t with
        | nil => exact schedulerRemove_single hq hfuel
        | cons b t => exact schedulerRemove_head hq hfuel
      · have hpt : p ∈ t := (List.mem_cons.mp hp).resolve_left (Ne.symm hhp)
        obtain ⟨u, v, rfl, hpu⟩ := List.eq_append_cons_of_mem hpt
        rw [List.erase_cons_tail (by simpa using hhp), List.erase_append_right _ hpu,
          List.erase_cons_head]
        exact schedulerRemove_tail hq hfuel hpu
  · rw [List.erase_of_not_mem hp]
    exact ⟨s, schedulerRemove_of_not_mem hq hfuel hp, hq⟩

/-- The result of `scheduler_remove` does not depend on the fuel that was enough. -/
theorem schedulerRemove_mono {n m : ℕ} {x : Option P} {s' : SchedState P}
    (hrun : schedulerRemove n s x = some s') (hnm : n ≤ m) :
    schedulerRemove m s x = some s' := by
  cases x with
  | none => exact hrun
  | some p =>
    cases hrq : s.runQueue with
    | none =>
      simp only [schedulerRemove, hrq] at hrun ⊢
      exact hrun
    | some rq =>
      simp only [schedulerRemove, hrq] at hrun ⊢
      cases hloop : loop (Ring.findPred s.next p rq) n rq with
      | none => simp [hloop] at hrun
      | some r => rwa [hloop, ← loop_mono hloop hnm] at hrun

end Remove

/-! ## Histories of the queue -/

/-- A call to one of the two queue operations. -/
inductive QueueOp (P : Type)
  | add (p : Option P)
  | remove (p : Option P)

/-- The scheduler, and the processes that were added to its queue and not removed since. -/
structure QueueHistory (P : Type) where
  /-- The scheduler. -/
  sched : SchedState P
  /-- The processes that were added. -/
  queued : Finset P

/-- One call. Only a process that is not queued is added; anything may be removed. -/
inductive QueueStep : QueueHistory P → QueueOp P → QueueHistory P → Prop
  | addNull (m : QueueHistory P) :
      QueueStep m (.add none) ⟨schedulerAdd m.sched none, m.queued⟩
  | add (m : QueueHistory P) {p : P} (hp : p ∉ m.queued) :
      QueueStep m (.add (some p)) ⟨schedulerAdd m.sched (some p), insert p m.queued⟩
  | removeNull (m : QueueHistory P) {fuel : ℕ} {s' : SchedState P}
      (hremove : schedulerRemove fuel m.sched none = some s') :
      QueueStep m (.remove none) ⟨s', m.queued⟩
  | remove (m : QueueHistory P) {p : P} {fuel : ℕ} {s' : SchedState P}
      (hremove : schedulerRemove fuel m.sched (some p) = some s') :
      QueueStep m (.remove (some p)) ⟨s', m.queued.erase p⟩

/-- The queue holds exactly the processes that were added and not removed since. -/
def QueueHistory.Holds (m : QueueHistory P) (q : List P) : Prop :=
  m.sched.IsQueue q ∧ ∀ p, p ∈ q ↔ p ∈ m.queued

/-- Every call keeps the queue. -/
theorem QueueHistory.Holds.step {m m' : QueueHistory P} {op : QueueOp P} (hq : m.Holds q)
    (hstep : QueueStep m op m') : ∃ q', m'.Holds q' := by
  obtain ⟨hqueue, hmem⟩ := hq
  cases hstep with
  | addNull => exact ⟨q, hqueue, hmem⟩
  | add hp =>
    refine ⟨_, schedulerAdd_isQueue hqueue (mt (hmem _).mp hp), fun x => ?_⟩
    rw [mem_insertAfterHead, Finset.mem_insert, hmem]
  | removeNull hremove =>
    obtain rfl : m.sched = _ := by simpa [schedulerRemove] using hremove
    exact ⟨q, hqueue, hmem⟩
  | @remove p fuel s' hremove =>
    -- The call returned; so it does with fuel that exceeds the length of the queue.
    obtain ⟨s'', hs'', hqueue'⟩ := schedulerRemove_isQueue hqueue
      (Nat.lt_of_lt_of_le (Nat.lt_succ_self q.length) (Nat.le_max_right fuel _)) p
    rw [schedulerRemove_mono hremove (Nat.le_max_left fuel _), Option.some.injEq] at hs''
    refine ⟨q.erase p, hs'' ▸ hqueue', fun x => ?_⟩
    rw [hqueue.ring.nodup.mem_erase_iff, Finset.mem_erase, hmem]

/-- After any sequence of calls there is a queue of the processes that were added. -/
theorem QueueHistory.Holds.of_run {m₀ m : QueueHistory P} {ops : List (QueueOp P)}
    (hrun : Run QueueStep m₀ ops m) (hrq : m₀.sched.runQueue = none) (hqueued : m₀.queued = ∅) :
    ∃ q, m.Holds q :=
  hrun.invariant (fun _ m => ∃ q, m.Holds q) ⟨[], ⟨hrq, trivial⟩, by simp [hqueued]⟩
    fun _ _ _ _ ⟨_, hq⟩ hstep => hq.step hstep

/-- Where `run_queue` points after the head was removed. -/
theorem head?_erase_head (hq : s.IsQueue q) (hp : s.runQueue = some p) :
    (q.erase p).head? = if q = [p] then none else s.next p := by
  have hhead := hq.head
  rw [hp] at hhead
  match q, hhead with
  | h :: t, hhead =>
    obtain rfl : p = h := Option.some.inj hhead
    rw [List.erase_cons_head]
    cases t with
    | nil => simp
    | cons b t =>
      rw [if_neg (by simp)]
      exact hq.ring.1.1.symm

/-- From an empty queue on, every history of `scheduler_add` and `scheduler_remove` leaves one
cycle through exactly the queued processes; adding inserts after the head, and removing returns,
erases and moves the head if it must. -/
theorem runQueue_of_run {m₀ m : QueueHistory P} {ops : List (QueueOp P)}
    (hrun : Run QueueStep m₀ ops m) (hrq : m₀.sched.runQueue = none) (hqueued : m₀.queued = ∅) :
    ∃ q : List P, m.sched.IsQueue q ∧ (∀ p, p ∈ q ↔ p ∈ m.queued) ∧
      (∀ p, p ∉ m.queued →
        (schedulerAdd m.sched (some p)).IsQueue (insertAfterHead p q)) ∧
      (∀ p fuel, q.length < fuel → ∃ s', schedulerRemove fuel m.sched (some p) = some s' ∧
        s'.IsQueue (q.erase p) ∧ (p ∉ m.queued → s' = m.sched) ∧
        (m.sched.runQueue = some p →
          s'.runQueue = if q = [p] then none else m.sched.next p)) ∧
      ∀ fuel, schedulerRemove fuel m.sched none = some m.sched := by
  obtain ⟨q, hqueue, hmem⟩ := QueueHistory.Holds.of_run hrun hrq hqueued
  refine ⟨q, hqueue, hmem, fun p hp => schedulerAdd_isQueue hqueue (mt (hmem p).mp hp),
    fun p fuel hfuel => ?_, fun _ => rfl⟩
  obtain ⟨s', hs', hqueue'⟩ := schedulerRemove_isQueue hqueue hfuel p
  refine ⟨s', hs', hqueue', fun hp => ?_, fun hp => ?_⟩
  · -- Removing what is not in the queue is no write at all.
    have hsame := schedulerRemove_of_not_mem hqueue hfuel (mt (hmem p).mp hp)
    exact Option.some.inj (hs'.symm.trans hsame)
  · rw [hqueue'.head, head?_erase_head hqueue hp]

/-- A queue without processes, before any PCB was written. -/
def emptyQueue : QueueHistory ℕ where
  sched := ⟨none, none, fun _ => ⟨0, 0, .ready, 0, none⟩, 1, 0, 0⟩
  queued := ∅

/-- Two processes are added and the first one, which is the head, is removed. -/
theorem runQueue_of_run_addAddRemove :
    ∃ s, schedulerRemove 3 (schedulerAdd (schedulerAdd emptyQueue.sched (some 1)) (some 2))
      (some 1) = some s ∧ ∃ q, s.IsQueue q ∧ ∀ p, p ∈ q ↔ p = 2 := by
  refine ⟨_, rfl, ?_⟩
  have hadd₁ := QueueStep.add emptyQueue (p := 1) (Finset.notMem_empty 1)
  have hadd₂ := QueueStep.add ⟨schedulerAdd emptyQueue.sched (some 1), {1}⟩ (p := 2) (by decide)
  obtain ⟨q, hq, hmem, -⟩ := runQueue_of_run
    ((((Run.nil emptyQueue).snoc hadd₁).snoc hadd₂).snoc (@QueueStep.remove ℕ _ _ 1 3 _ rfl))
    rfl rfl
  refine ⟨q, hq, fun p => (hmem p).trans ?_⟩
  simp only [Finset.mem_erase, Finset.mem_insert, Finset.mem_singleton]
  omega

end Lightstreak
