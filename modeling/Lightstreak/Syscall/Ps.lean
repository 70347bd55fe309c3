import Lightstreak.Proc.SchedulerRuns

/-!
# Listing the processes (`sys_ps` and `sys_getpid` of `kernel/syscall/syscall.c`)

`sys_ps` walks the ring of the run queue from the current process on and stores the process id and
the state of each process that it meets. The walk is a `do … while` loop; `fuel` bounds its turns.

`sysPs_isQueue` says that on every ring the walk ends and lists the first `max` processes of the
ring, the current one first.
-/

namespace Lightstreak

open SysLib

/-- The value of a `proc_state_t` -/
def ProcState.value : ProcState → ℕ
  | .ready => 0
  | .running => 1
  | .blocked => 2
  | .zombie => 3

/-- `ps_entry_t` -/
structure PsEntry where
  /-- The pid. -/
  pid : ℕ
  /-- The state as a number. -/
  state : ℕ
deriving DecidableEq, Repr

variable {P : Type} [DecidableEq P]

/-- `sys_getpid` -/
def sysGetpid (s : SchedState P) : ℕ :=
  match s.current with
  | some cur => (s.procs cur).pid
  | none => 0

/-- What `sys_ps` stores for the process `p`. -/
def psEntry (s : SchedState P) (p : P) : PsEntry := ⟨(s.procs p).pid, (s.state p).value⟩

/-- One turn of the loop of `sys_ps`, with the entries stored so far; their number is `count`. -/
def psTurn (s : SchedState P) (cur : P) (max : ℤ) :
    P × List PsEntry → (P × List PsEntry) ⊕ List PsEntry
  | (p, entries) =>
    let entries := if entries.length < max then entries ++ [psEntry s p] else entries
    match s.next p with
    | none => .inr entries
    | some p => if p ≠ cur ∧ entries.length < max then .inl (p, entries) else .inr entries

/-- `sys_ps(entries, max)`: the return value and what is stored in `entries`, which is a null
pointer if `isNull`. -/
def sysPs (fuel : ℕ) (s : SchedState P) (isNull : Bool) (max : ℤ) :
    Option (ℤ × List PsEntry) :=
  if isNull ∨ max ≤ 0 then some (-1, [])
  else
    match s.current with
    | none => some (0, [])
    | some cur =>
      (loop (psTurn s cur max) fuel (cur, [])).map fun entries => (entries.length, entries)

variable {s : SchedState P} {a c : P} {l q : List P} {max : ℤ} {entries : List PsEntry}

/-- From a process with the rest `l` of the ring behind it, the loop stores as many entries as
there is room for. -/
theorem loop_psTurn (hl : Ring.Links s.next a l c) (hc : c ∉ l) (hroom : entries.length < max)
    {fuel : ℕ} (hfuel : l.length < fuel) :
    loop (psTurn s c max) fuel (a, entries) =
      some (entries ++ ((a :: l).take (max.toNat - entries.length)).map (psEntry s)) := by
  induction l generalizing a entries fuel with
  | nil =>
    obtain ⟨fuel, rfl⟩ : ∃ n, fuel = n + 1 := ⟨fuel - 1, by simp at hfuel; omega⟩
    have hnext : s.next a = some c := hl
    have hturn : psTurn s c max (a, entries) = .inr (entries ++ [psEntry s a]) := by
      simp [psTurn, hnext, hroom]
    have htake : [a].take (max.toNat - entries.length) = [a] :=
      List.take_of_length_le (by simp; omega)
    rw [loop_of_inr hturn, htake]
    rfl
  | cons b l ih =>
    obtain ⟨fuel, rfl⟩ : ∃ n, fuel = n + 1 := ⟨fuel - 1, by simp at hfuel; omega⟩
    obtain ⟨hcb, hcl⟩ := not_or.mp (mt List.mem_cons.mpr hc)
    obtain ⟨room, hlen⟩ : ∃ k, max.toNat - entries.length = k + 1 :=
      ⟨max.toNat - entries.length - 1, by omega⟩
    rw [hlen, List.take_succ_cons, List.map_cons]
    by_cases hmore : ((entries ++ [psEntry s a]).length : ℤ) < max
    · -- There is room for another entry, and the next process is not the first one.
      have hturn : psTurn s c max (a, entries) = .inl (b, entries ++ [psEntry s a]) := by
        simp only [psTurn, hl.1, hroom, if_true]
        rw [if_pos ⟨Ne.symm hcb, hmore⟩]
      rw [loop_of_inl hturn, ih hl.2 hcl hmore (by simp at hfuel; omega), List.append_assoc]
      have hroom' : max.toNat - (entries ++ [psEntry s a]).length = room := by simp; omega
      rw [hroom']
      rfl
    · have hturn : psTurn s c max (a, entries) = .inr (entries ++ [psEntry s a]) := by
        simp only [psTurn, hl.1, hroom, if_true]
        rw [if_neg fun h => hmore h.2]
      obtain rfl : room = 0 := by simp at hmore; omega
      rw [loop_of_inr hturn, List.take_zero, List.map_nil]

/-- On a ring of any number of processes with `current` in it, and for every positive `max`,
`sys_ps` returns, and what it stores are the entries of the current process and its successors in
the order of the ring: as many as there are processes, or `max`. -/
theorem sysPs_isQueue (hq : s.IsQueue q) (hcur : s.current = some c) (hc : c ∈ q) (hmax : 0 < max)
    {fuel : ℕ} (hfuel : q.length ≤ fuel) :
    ∃ listed : List P, listed <+: Ring.startAt c q ∧ listed.Nodup ∧
      (listed.length : ℤ) = min (q.length : ℤ) max ∧
      sysPs fuel s false max = some ((listed.length : ℤ), listed.map (psEntry s)) := by
  obtain ⟨l, hl⟩ := Ring.exists_startAt_eq_cons hc
  obtain ⟨hlinks, hnd⟩ : Ring.IsRing s.next (c :: l) := hl ▸ hq.ring.startAt c
  have hlen : q.length = l.length + 1 := by
    rw [← (Ring.startAt_perm c q).length_eq, hl, List.length_cons]
  -- The list starts with the current process and is cut at `max` entries.
  refine ⟨(c :: l).take max.toNat, hl ▸ List.take_prefix _ _, hnd.sublist (List.take_sublist _ _),
    ?_, ?_⟩
  · rw [List.length_take, List.length_cons, ← hlen]
    omega
  · have hloop : loop (psTurn s c max) fuel (c, []) = _ :=
      loop_psTurn hlinks (List.nodup_cons.mp hnd).1 hmax (by omega)
    have hpos : ¬(false = true ∨ max ≤ 0) := by simp; omega
    simp only [sysPs, if_neg hpos, hcur, hloop, List.nil_append, List.length_nil, Nat.sub_zero,
      Option.map_some, List.length_map]

/-- The idle process and one more, after `scheduler_init` and one `scheduler_add`. -/
theorem sysPs_isQueue_two :
    ∃ s : SchedState ℕ, s = schedulerAdd (initPcb idleOnly 1 8192) (some 1) ∧
      ∃ listed : List ℕ, listed <+: Ring.startAt 0 [0, 1] ∧ listed.Nodup ∧
        (listed.length : ℤ) = min (2 : ℤ) 10 ∧
        sysPs 2 s false 10 = some ((listed.length : ℤ), listed.map (psEntry s)) := by
  have hboot : (SchedRun.boot idleOnly 0).Inv [0] 0 :=
    SchedRun.inv_boot (show emptyQueue.sched.runQueue = none from rfl) rfl
  obtain ⟨hinv, -⟩ := hboot.add (p := 1) (by decide) 8192
  exact ⟨_, rfl, sysPs_isQueue hinv.queue rfl (by decide) (by decide) le_rfl⟩

end Lightstreak
