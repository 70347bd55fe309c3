import Lightstreak.Mm.HeapClients
import Lightstreak.Proc.Exec

/-!
# Processes and their memory (`kernel/proc/process.c`)

`process_create` and `process_create_user` allocate a PCB and a kernel stack, and give the PCB back
if there is no memory for the stack; `process_destroy` frees what the PCB points to. Here both run
with other clients of the heap around them, which may write wherever they want but to headers and
to the field `kernel_stack` of a live process.

* `processAlloc_spec`: a creation adds two blocks to those in use, or none;
* `processDestroy_spec`: a destruction removes two;
* `LifeInv.exec`: the blocks in use are those of the live processes and of the other clients;
* `processes_leakFree`: hence no process leaks memory, in any run.
-/

namespace Lightstreak

open SysLib SysLib.FirstFit

variable {k : KernelText} {h h' h'' : HeapState} {bs bs' : List Block} {b c : Block} {s : ProcHeap}

/-! ## Creating and destroying -/

/-- The same blocks are in use, so that the same number of bytes is. -/
theorem HeapInv.heapUsed_of_perm (hi : HeapInv h bs) (hi' : HeapInv h' bs')
    (hperm : (inUse bs').Perm (inUse bs)) : h'.heapUsed = h.heapUsed := by
  rw [hi.used, hi'.used]
  exact (hperm.map _).sum_eq

/-- A creation that has its PCB but gets no stack: freeing the PCB leaves the blocks in use that
were there before. -/
theorem HeapInv.kfree_pcb {bs₁ : List Block} (hi : HeapInv h' bs₁) (hkeep : KeepsPayloads h bs h')
    (hperm : (inUse bs₁).Perm (b :: inUse bs)) (hused : b.used = true)
    (hsize : processSize ≤ b.size) :
    ∃ bs', HeapInv (kfree { h' with mem := h'.mem.store32 (b.addr + hdrSize + 12) 0 }
        (b.addr + hdrSize)) bs' ∧
      KeepsPayloads h bs (kfree { h' with mem := h'.mem.store32 (b.addr + hdrSize + 12) 0 }
        (b.addr + hdrSize)) ∧ (inUse bs').Perm (inUse bs) := by
  have hb : b ∈ inUse bs₁ := hperm.mem_iff.mpr List.mem_cons_self
  obtain ⟨hi₂, hkeep₂⟩ := hi.write_new [b] (h'.mem.store32 (b.addr + hdrSize + 12) 0) hkeep
    hperm fun x hx => by
      have := hx b List.mem_cons_self
      simp only [hdrSize, processSize] at hsize ⊢
      exact Mem.store32_apply_of_outside _ _ (by omega)
  obtain ⟨bs', hi₃, hkeep₃, hperm₃⟩ := hi₂.kfree_inUse (mem_inUse.mp hb).1 hused
  refine ⟨bs', hi₃, hkeep₂.trans hkeep₃ fun c hc => ?_, ?_⟩
  · exact hperm.mem_iff.mpr (List.mem_cons_of_mem _ hc)
  · exact List.Perm.cons_inv (hperm₃.symm.trans hperm)

/-- `process_create` and `process_create_user` return `NULL` and leave the blocks in use, or take
two more into use, with the second at `kernel_stack` of the first. -/
theorem processAlloc_spec (hi : HeapInv s.heap bs) {build : Mem → ℕ → ℕ → ℕ → Mem}
    (hbuild : BuildsProcess build) (hpid : s.nextPid < 2 ^ 32) :
    ∃ p s' bs', processAlloc s build = some (p, s') ∧ HeapInv s'.heap bs' ∧
      KeepsPayloads s.heap bs s'.heap ∧
      ((p = 0 ∧ s'.nextPid = s.nextPid ∧ (inUse bs').Perm (inUse bs)) ∨
        ∃ b c, p = b.addr + hdrSize ∧ processSize ≤ b.size ∧
          (inUse bs').Perm ([b, c] ++ inUse bs) ∧
          s'.heap.mem.load32 (p + 12) = c.addr + hdrSize ∧ s'.heap.mem.load32 p = s.nextPid ∧
          s'.nextPid = add32 s.nextPid 1) := by
  have hpsize : align4 processSize = processSize := by decide
  have hssize : align4 kernelStackSize = kernelStackSize := by decide
  obtain ⟨p, h₁, bs₁, hk₁, hi₁, hkeep₁, ⟨rfl, rfl⟩ | ⟨b, rfl, hused, hsize, hperm₁, -⟩⟩ :=
    hi.kzalloc_inUse (n := processSize) (by decide)
  · -- No memory for the PCB.
    refine ⟨0, { s with heap := h₁ }, bs₁, ?_, hi₁, hkeep₁, .inl ⟨rfl, rfl, .refl _⟩⟩
    simp only [processAlloc, hk₁, Option.bind_eq_bind, Option.bind_some, if_true, Option.pure_def]
  rw [hpsize] at hsize
  have hp0 : b.addr + hdrSize ≠ 0 := by simp [hdrSize]
  have hsub : ∀ c ∈ inUse bs, c ∈ inUse bs₁ := fun c hc =>
    hperm₁.mem_iff.mpr (List.mem_cons_of_mem _ hc)
  obtain ⟨stack, h₂, bs₂, hk₂, hi₂, hkeep₂, ⟨rfl, rfl⟩ | ⟨c, rfl, -, hstack, hperm₂, -⟩⟩ :=
    hi₁.kzalloc_inUse (n := kernelStackSize) (by decide)
  · -- No memory for the stack, and the PCB is freed.
    obtain ⟨bs', hi₃, hkeep₃, hperm₃⟩ :=
      hi₂.kfree_pcb (hkeep₁.trans hkeep₂ hsub) hperm₁ hused hsize
    generalize hh₃ : kfree { h₂ with mem := h₂.mem.store32 (b.addr + hdrSize + 12) 0 }
      (b.addr + hdrSize) = h₃ at hi₃ hkeep₃
    refine ⟨0, { s with heap := h₃ }, bs', ?_, hi₃, hkeep₃, .inl ⟨rfl, rfl, hperm₃⟩⟩
    simp only [processAlloc, hk₁, hk₂, Option.bind_eq_bind, Option.bind_some, if_neg hp0,
      if_true, Option.pure_def, hh₃]
  · -- Both are there, and what is written goes to the two blocks.
    rw [hssize] at hstack
    have hs0 : c.addr + hdrSize ≠ 0 := by simp [hdrSize]
    have hperm : (inUse bs₂).Perm ([b, c] ++ inUse bs) :=
      (hperm₂.trans (hperm₁.cons c)).trans (List.Perm.swap _ _ _)
    have hb₂ : b ∈ bs₂ := (mem_inUse.mp (hperm.mem_iff.mpr (by simp))).1
    have hc₂ : c ∈ bs₂ := (mem_inUse.mp (hperm.mem_iff.mpr (by simp))).1
    have hbc : c.addr ≠ b.addr :=
      hi₂.addr_ne_of_perm (show (inUse bs₂).Perm ([c] ++ inUse bs₁) from hperm₂)
        List.mem_cons_self (hperm₁.mem_iff.mpr List.mem_cons_self)
    have hhdr : hdrSize = 16 := rfl
    have hproc : processSize = 416 := rfl
    obtain ⟨hdisj, hlt⟩ := hi₂.process_apart hb₂ hc₂ hbc hsize hstack
    let m₂ := h₂.mem.store32 (b.addr + hdrSize + 12) (c.addr + hdrSize)
    obtain ⟨hi₃, hkeep₃⟩ := hi₂.write_new [b, c]
      (build m₂ (b.addr + hdrSize) (c.addr + hdrSize) s.nextPid) (hkeep₁.trans hkeep₂ hsub) hperm
      fun x hx => by
        have hxb := hx b (by simp)
        have hxc := hx c (by simp)
        rw [hbuild.outside _ _ _ _ hdisj hlt x (by omega) (by omega)]
        exact Mem.store32_apply_of_outside _ _ (by omega)
    refine ⟨b.addr + hdrSize, ⟨{ h₂ with mem := build m₂ _ _ _ }, add32 s.nextPid 1⟩, bs₂, ?_,
      hi₃, hkeep₃, .inr ⟨b, c, rfl, hsize, hperm, hbuild.stack _ _ _ _ hdisj hlt,
        hbuild.pid _ _ _ _ hdisj hlt hpid, rfl⟩⟩
    simp only [processAlloc, hk₁, hk₂, Option.bind_eq_bind, Option.bind_some, if_neg hp0,
      if_neg hs0, Option.pure_def, m₂]

/-- `process_destroy` of a process whose `kernel_stack` is intact takes its two blocks out of
use. -/
theorem processDestroy_spec (hi : HeapInv h bs) {p stack : ℕ} {ptrs : List ℕ}
    (hl : Ledger hdrSize bs (p :: stack :: ptrs)) (hstack : h.mem.load32 (p + 12) = stack) :
    ∃ bs', HeapInv (processDestroy h p) bs' ∧ Ledger hdrSize bs' ptrs ∧
      (∀ b ∈ inUse bs', b ∈ inUse bs) ∧ KeepsPayloads h bs' (processDestroy h p) := by
  obtain ⟨b, hb, hbu, rfl⟩ := hl.mem_iff.mp List.mem_cons_self
  obtain ⟨c, hc, hcu, rfl⟩ := hl.mem_iff.mp (List.mem_cons_of_mem _ List.mem_cons_self)
  have hp0 : b.addr + hdrSize ≠ 0 := by simp [hdrSize]
  have hs0 : c.addr + hdrSize ≠ 0 := by simp [hdrSize]
  have hdestroy : processDestroy h (b.addr + hdrSize) =
      kfree (kfree h (c.addr + hdrSize)) (b.addr + hdrSize) := by
    simp only [processDestroy, if_neg hp0, hstack, if_pos hs0]
  rw [hdestroy]
  -- The stack goes first, and then the PCB, which is still in use.
  obtain ⟨bs₁, hi₁, hkeep₁, hperm₁⟩ := hi.kfree_inUse hc hcu
  have hl₁ := (hl.perm (List.Perm.swap _ _ _)).of_cons hperm₁
  obtain ⟨b', hb', hbu', heq⟩ := hl₁.mem_iff.mp List.mem_cons_self
  obtain ⟨bs₂, hi₂, hkeep₂, hperm₂⟩ := hi₁.kfree_inUse hb' hbu'
  rw [heq] at hi₂ hkeep₂
  have hsub₁ : ∀ d ∈ inUse bs₁, d ∈ inUse bs := fun d hd =>
    hperm₁.mem_iff.mpr (List.mem_cons_of_mem _ hd)
  have hsub₂ : ∀ d ∈ inUse bs₂, d ∈ inUse bs₁ := fun d hd =>
    hperm₂.mem_iff.mpr (List.mem_cons_of_mem _ hd)
  exact ⟨bs₂, hi₂, (heq ▸ hl₁).of_cons hperm₂, fun d hd => hsub₁ d (hsub₂ d hd),
    ((hkeep₁.mono hsub₁).trans hkeep₂ fun d hd => hd).mono hsub₂⟩

/-! ## Runs -/

/-- A process that was created and not destroyed: its PCB and its `kernel_stack`. -/
structure LiveProc where
  /-- The address of the PCB. -/
  pcb : ℕ
  /-- The address of the kernel stack. -/
  stack : ℕ
deriving DecidableEq, Repr

/-- The live processes, the pids of all processes created so far, in order, and the pointers that
other clients of the heap have not freed. -/
structure LifeState where
  /-- The heap and the next pid. -/
  proc : ProcHeap
  /-- The processes that were not destroyed. -/
  live : List LiveProc
  /-- The pids that were given out, in order. -/
  pids : List ℕ
  /-- The other pointers into the heap. -/
  others : List ℕ

/-- A call to `process.c`, a call of another client to the heap, or a write of one byte. -/
inductive LifeOp
  | create (c : CreateCall)
  | destroy (p : UInt32)
  | kmalloc (n : UInt32)
  | kzalloc (n : UInt32)
  | kfree (p : UInt32)
  | write (x : ℕ) (v : UInt8)
deriving DecidableEq, Repr

namespace LifeState

/-- The payload addresses of the blocks of processes. -/
def blocks (s : LifeState) : List ℕ := s.live.flatMap fun q => [q.pcb, q.stack]

/-- `process_create` has returned. The stack and the pid are read from the PCB. -/
def created (s : LifeState) (r : ℕ × ProcHeap) : LifeState :=
  if r.1 = 0 then { s with proc := r.2 }
  else { s with
    proc := r.2
    live := ⟨r.1, r.2.heap.mem.load32 (r.1 + 12)⟩ :: s.live
    pids := s.pids ++ [r.2.heap.mem.load32 r.1] }

/-- Another client has got a pointer. -/
def received (s : LifeState) (r : ℕ × HeapState) : LifeState :=
  { s with
    proc := { s.proc with heap := r.2 }
    others := if r.1 = 0 then s.others else r.1 :: s.others }

end LifeState

namespace LifeOp

/-- A process is destroyed while it is live, other clients free what they have got, and nobody
writes to a header or to `kernel_stack` of a live process. -/
def Legal (s : LifeState) : LifeOp → Prop
  | create _ => True
  | destroy p => ∃ q ∈ s.live, q.pcb = p.toNat
  | kmalloc _ => True
  | kzalloc n => n.toNat ≤ 0xFFFFFFFC
  | kfree p => p.toNat ∈ s.others
  | write x _ =>
    (∀ bs, Chain s.proc.heap.mem s.proc.heap.heapHead bs 0 → ∀ b ∈ bs,
      x < b.addr ∨ b.addr + hdrSize ≤ x) ∧
    ∀ q ∈ s.live, x < q.pcb + 12 ∨ q.pcb + 16 ≤ x

/-- The state afterwards; `none` if a call does not return. -/
def exec (k : KernelText) (s : LifeState) : LifeOp → Option LifeState
  | create c => (c.exec k s.proc).map s.created
  | destroy p => some { s with
      proc := { s.proc with heap := processDestroy s.proc.heap p.toNat }
      live := s.live.filter fun q => q.pcb ≠ p.toNat }
  | kmalloc n => (Lightstreak.kmalloc s.proc.heap n.toNat).map s.received
  | kzalloc n => (Lightstreak.kzalloc s.proc.heap n.toNat).map s.received
  | kfree p => some { s with
      proc := { s.proc with heap := Lightstreak.kfree s.proc.heap p.toNat }
      others := s.others.erase p.toNat }
  | write x v => some { s with
      proc := { s.proc with heap := { s.proc.heap with mem := s.proc.heap.mem.store8 x v } } }

end LifeOp

/-- One legal call or write. -/
def LifeStep (k : KernelText) (s : LifeState) (op : LifeOp) (s' : LifeState) : Prop :=
  op.Legal s ∧ op.exec k s = some s'

/-- The blocks in use are the two of each live process and those of the other clients, and pids are
counted up. -/
structure LifeInv (s : LifeState) (bs : List Block) : Prop where
  /-- The heap is sound. -/
  inv : HeapInv s.proc.heap bs
  /-- The blocks in use are those of the processes and the others. -/
  ledger : Ledger hdrSize bs (s.blocks ++ s.others)
  /-- A PCB has the size of the structure. -/
  room : ∀ q ∈ s.live, ∃ b ∈ inUse bs, q.pcb = b.addr + hdrSize ∧ processSize ≤ b.size
  /-- The PCB holds the pointer to its stack. -/
  stack : ∀ q ∈ s.live, s.proc.heap.mem.load32 (q.pcb + 12) = q.stack
  /-- Pids are counted up from one. -/
  pids : s.pids = (List.range s.pids.length).map fun i => (i + 1) % 2 ^ 32
  /-- The next pid follows. -/
  nextPid : s.proc.nextPid = (s.pids.length + 1) % 2 ^ 32

namespace LifeInv

variable {s : LifeState} {q : LiveProc} {others : List ℕ}

/-- What keeps the payloads keeps `kernel_stack`. -/
theorem stack_of_keeps (hl : LifeInv s bs) (hq : q ∈ s.live) (hb : b ∈ inUse bs')
    (hpcb : q.pcb = b.addr + hdrSize) (hsize : processSize ≤ b.size)
    (hkeep : KeepsPayloads s.proc.heap bs' h') : h'.mem.load32 (q.pcb + 12) = q.stack := by
  obtain ⟨hb', hused⟩ := mem_inUse.mp hb
  rw [← hl.stack q hq, hpcb]
  simp only [hdrSize, processSize] at hsize ⊢
  exact Mem.load32_congr fun x h₁ h₂ => hkeep b hb' hused x (by omega) (by omega)

/-- More blocks are in use, which are another client's. -/
theorem alloc (hl : LifeInv s bs) (hi : HeapInv h' bs') (hkeep : KeepsPayloads s.proc.heap bs h')
    (hsub : ∀ b ∈ inUse bs, b ∈ inUse bs') (hledger : Ledger hdrSize bs' (s.blocks ++ others)) :
    LifeInv { s with proc := { s.proc with heap := h' }, others := others } bs' where
  inv := hi
  ledger := hledger
  room q hq := by
    obtain ⟨b, hb, hpcb, hsize⟩ := hl.room q hq
    exact ⟨b, hsub b hb, hpcb, hsize⟩
  stack q hq := by
    obtain ⟨b, hb, hpcb, hsize⟩ := hl.room q hq
    exact hl.stack_of_keeps hq hb hpcb hsize hkeep
  pids := hl.pids
  nextPid := hl.nextPid

/-- Fewer blocks are in use, but still those of the processes that are live. -/
theorem free (hl : LifeInv s bs) (hi : HeapInv h' bs') {live : List LiveProc}
    (hkeep : KeepsPayloads s.proc.heap bs' h') (hsub : ∀ b ∈ inUse bs', b ∈ inUse bs)
    (hlive : ∀ q ∈ live, q ∈ s.live)
    (hledger : Ledger hdrSize bs' (live.flatMap (fun q => [q.pcb, q.stack]) ++ others)) :
    LifeInv { s with proc := { s.proc with heap := h' }, live := live, others := others } bs' := by
  -- The block of a live process is in use before and after, so that it is the same block.
  have hroom : ∀ q ∈ live, ∃ b ∈ inUse bs', q.pcb = b.addr + hdrSize ∧ processSize ≤ b.size := by
    intro q hq
    have hmem : q.pcb ∈ live.flatMap (fun q => [q.pcb, q.stack]) ++ others :=
      List.mem_append_left _ (List.mem_flatMap.mpr ⟨q, hq, by simp⟩)
    obtain ⟨c, hc, hcu, hpcb⟩ := hledger.mem_iff.mp hmem
    obtain ⟨b, hb, hpcb', hsize⟩ := hl.room q (hlive q hq)
    have hc' := hsub c (mem_inUse.mpr ⟨hc, hcu⟩)
    have heq : b = c := hl.inv.eq_of_addr (mem_inUse.mp hb).1 (mem_inUse.mp hc').1 (by omega)
    exact ⟨c, mem_inUse.mpr ⟨hc, hcu⟩, hpcb.symm, heq ▸ hsize⟩
  refine ⟨hi, hledger, hroom, fun q hq => ?_, hl.pids, hl.nextPid⟩
  obtain ⟨b, hb, hpcb, hsize⟩ := hroom q hq
  exact hl.stack_of_keeps (hlive q hq) hb hpcb hsize hkeep

/-- No two processes have the same PCB. -/
theorem nodup (hl : LifeInv s bs) : (s.live.map (·.pcb)).Nodup := by
  have hnodup : (s.blocks ++ s.others).Nodup :=
    hl.ledger.nodup_iff.mp (hl.inv.tiles.nodup_inUse (by decide))
  -- The PCBs are every other pointer of that list.
  refine (List.nodup_append.mp hnodup).1.sublist ?_
  rw [LifeState.blocks]
  generalize s.live = live
  induction live with
  | nil => exact .slnil
  | cons q live ih => exact (ih.cons q.stack).cons_cons q.pcb

/-- Another client has asked for memory. -/
theorem received (hl : LifeInv s bs) {r : ℕ} (hi : HeapInv h' bs')
    (hkeep : KeepsPayloads s.proc.heap bs h') (hcase : (r = 0 ∧ bs' = bs) ∨
      ∃ b, r = b.addr + hdrSize ∧ (inUse bs').Perm (b :: inUse bs)) :
    LifeInv (s.received (r, h')) bs' := by
  rcases hcase with ⟨rfl, rfl⟩ | ⟨b, rfl, hperm⟩
  · rw [LifeState.received, if_pos rfl]
    exact hl.alloc hi hkeep (fun b hb => hb) hl.ledger
  · rw [LifeState.received, if_neg (by simp [hdrSize])]
    exact hl.alloc hi hkeep (fun d hd => hperm.mem_iff.mpr (List.mem_cons_of_mem _ hd))
      ((hl.ledger.cons hperm).perm List.perm_middle.symm)

/-- A process has got its two blocks. -/
theorem create (hl : LifeInv s bs) (hi : HeapInv h' bs') (hkeep : KeepsPayloads s.proc.heap bs h')
    (hsize : processSize ≤ b.size) (hperm : (inUse bs').Perm ([b, c] ++ inUse bs))
    (hstack : h'.mem.load32 (b.addr + hdrSize + 12) = c.addr + hdrSize)
    (hpid : h'.mem.load32 (b.addr + hdrSize) = s.proc.nextPid) :
    LifeInv { s with
      proc := ⟨h', add32 s.proc.nextPid 1⟩
      live := ⟨b.addr + hdrSize, h'.mem.load32 (b.addr + hdrSize + 12)⟩ :: s.live
      pids := s.pids ++ [h'.mem.load32 (b.addr + hdrSize)] } bs' := by
  have hsub : ∀ d ∈ inUse bs, d ∈ inUse bs' := fun d hd =>
    hperm.mem_iff.mpr (List.mem_append_right _ hd)
  refine ⟨hi, ?_, fun q hq => ?_, fun q hq => ?_, ?_, ?_⟩
  · rw [hstack]
    exact (hperm.map _).trans (List.Perm.cons _ (List.Perm.cons _ hl.ledger))
  · rcases List.mem_cons.mp hq with rfl | hq
    · exact ⟨b, hperm.mem_iff.mpr (by simp), rfl, hsize⟩
    · obtain ⟨d, hd, hpcb, hle⟩ := hl.room q hq
      exact ⟨d, hsub d hd, hpcb, hle⟩
  · rcases List.mem_cons.mp hq with rfl | hq
    · rfl
    · obtain ⟨d, hd, hpcb, hle⟩ := hl.room q hq
      exact hl.stack_of_keeps hq hd hpcb hle hkeep
  · -- The pids so far count up from one, and `next_pid` is the number that follows.
    have hrange : (List.range (s.pids.length + 1)).map (fun i => (i + 1) % 2 ^ 32) =
        s.pids ++ [s.proc.nextPid] := by
      rw [List.range_succ, List.map_append, ← hl.pids, hl.nextPid]
      rfl
    rw [hpid, List.length_append, List.length_singleton, hrange]
  · show add32 s.proc.nextPid 1 = _
    rw [hl.nextPid, List.length_append, List.length_singleton, add32, Nat.mod_add_mod]

/-- A legal call or write returns and keeps the invariant. -/
theorem exec (hl : LifeInv s bs) {op : LifeOp} (hop : op.Legal s) :
    ∃ s' bs', op.exec k s = some s' ∧ LifeInv s' bs' := by
  cases op with
  | create call =>
    have hlt : s.proc.nextPid < 2 ^ 32 := hl.nextPid ▸ Nat.mod_lt _ (by decide)
    obtain ⟨p, ⟨h', n'⟩, bs', halloc, hi, hkeep, hcase⟩ :=
      processAlloc_spec hl.inv (call.buildsProcess (k := k)) hlt
    refine ⟨_, bs', by rw [LifeOp.exec, CreateCall.exec, halloc, Option.map_some], ?_⟩
    rcases hcase with ⟨rfl, hn, hperm⟩ | ⟨b, c, rfl, hsize, hperm, hstack, hpid, hn⟩
    · -- `NULL`: the same blocks are in use.
      rw [LifeState.created, if_pos rfl]
      obtain rfl : n' = s.proc.nextPid := hn
      exact hl.alloc hi hkeep (fun b hb => hperm.mem_iff.mpr hb) ((hperm.map _).trans hl.ledger)
    · rw [LifeState.created, if_neg (by simp [hdrSize])]
      obtain rfl : n' = add32 s.proc.nextPid 1 := hn
      exact hl.create hi hkeep hsize hperm hstack hpid
  | destroy p =>
    obtain ⟨q, hq, hp⟩ := hop
    have hlive := perm_cons_filter_ne hl.nodup hq
    obtain ⟨bs', hi, hledger, hsub, hkeep⟩ := processDestroy_spec hl.inv
      (hl.ledger.perm ((hlive.flatMap_right _).append_right _)) (hl.stack q hq)
    rw [hp] at hi hledger hkeep
    exact ⟨_, bs', rfl, hl.free hi hkeep hsub (fun r hr => (List.mem_filter.mp hr).1) hledger⟩
  | kmalloc n =>
    obtain ⟨q, h', bs', hk, hi, hkeep, hcase⟩ := hl.inv.kmalloc_inUse n.toNat
    refine ⟨_, bs', by rw [LifeOp.exec, hk, Option.map_some], ?_⟩
    refine hl.received hi hkeep (hcase.imp_right ?_)
    rintro ⟨b, hq, -, -, hperm⟩
    exact ⟨b, hq, hperm⟩
  | kzalloc n =>
    obtain ⟨q, h', bs', hk, hi, hkeep, hcase⟩ := hl.inv.kzalloc_inUse hop
    refine ⟨_, bs', by rw [LifeOp.exec, hk, Option.map_some], ?_⟩
    refine hl.received hi hkeep (hcase.imp_right ?_)
    rintro ⟨b, hq, -, -, hperm, -⟩
    exact ⟨b, hq, hperm⟩
  | kfree p =>
    -- A pointer of another client, whose block leaves the ledger.
    obtain ⟨b, hb, hused, hp⟩ := hl.ledger.mem_iff.mp (List.mem_append_right _ hop)
    obtain ⟨bs', hi, hkeep, hperm⟩ := hl.inv.kfree_inUse hb hused
    have hsub : ∀ d ∈ inUse bs', d ∈ inUse bs := fun d hd =>
      hperm.mem_iff.mpr (List.mem_cons_of_mem _ hd)
    have hothers := ((List.perm_cons_erase hop).append_left s.blocks).trans List.perm_middle
    rw [← hp] at hothers
    rw [hp] at hi hkeep
    exact ⟨_, bs', rfl, hl.free hi (hkeep.mono hsub) hsub (fun q hq => hq)
      (hp ▸ (hl.ledger.perm hothers).of_cons hperm)⟩
  | write x v =>
    -- The byte is in no header and in no `kernel_stack` field.
    obtain ⟨hhdr, hstack⟩ := hop
    refine ⟨_, bs, rfl, ?_, hl.ledger, hl.room, fun q hq => ?_, hl.pids, hl.nextPid⟩
    · refine hl.inv.congr_headers fun b hb y hlo hhi => Mem.store8_of_ne _ _ ?_
      have := hhdr bs hl.inv.chain b hb
      simp only [hdrSize] at this
      omega
    · rw [← hl.stack q hq]
      exact Mem.load32_store8_of_outside _ _ (by have := hstack q hq; omega)

end LifeInv

/-- The invariant along every run from an initialised heap. -/
theorem lifeInv_of_run (k : KernelText) (mem : Mem) {start size : ℕ} (hpos : 0 < start)
    (hstart : 4 ∣ start) (hsize : 4 ∣ size) (hmin : 16 ≤ size) (hend : start + size < 2 ^ 32)
    {ops : List LifeOp} {s : LifeState}
    (hrun : Run (LifeStep k) ⟨processInit (heapInit mem start size), [], [], []⟩ ops s) :
    ∃ bs, LifeInv s bs := by
  refine hrun.invariant (fun _ s => ∃ bs, LifeInv s bs) ?_ ?_
  · exact ⟨_, heapInv_heapInit mem hpos hstart hsize hmin hend, .nil, by simp, by simp, rfl, rfl⟩
  · rintro - s op s' ⟨bs, hl⟩ ⟨hop, hexec⟩
    obtain ⟨s₁, bs', hexec', hl'⟩ := hl.exec (k := k) hop
    obtain rfl : s₁ = s' := Option.some.inj (hexec'.symm.trans hexec)
    exact ⟨bs', hl'⟩

/-- `b` is a block in use on the chain from `heap_head`. -/
def AllocatedBlock (h : HeapState) (b : Block) : Prop :=
  ∃ bs, Chain h.mem h.heapHead bs 0 ∧ b ∈ inUse bs

/-- The allocated blocks are those in use. -/
theorem HeapInv.allocatedBlock_iff (hi : HeapInv h bs) : AllocatedBlock h b ↔ b ∈ inUse bs := by
  constructor
  · rintro ⟨cs, hchain, hb⟩
    rwa [hi.chain.unique hchain]
  · exact fun hb => ⟨bs, hi.chain, hb⟩

namespace LifeInv

variable {s : LifeState}

/-- Without live processes, all bytes in use are the other clients'. -/
theorem heapUsed_of_nil (hl : LifeInv s bs) (hnil : s.live = []) :
    s.proc.heap.heapUsed = usedBytes (bs.filter fun b => b.addr + hdrSize ∈ s.others) := by
  rw [hl.inv.used, usedBytes, usedBytes, List.filter_filter]
  congr 2
  refine List.filter_congr fun b hb => ?_
  have hothers : b.used = true → b.addr + hdrSize ∈ s.others := fun hused => by
    have hmem := hl.ledger.mem_iff.mpr ⟨b, hb, hused, rfl⟩
    simpa [LifeState.blocks, hnil] using hmem
  cases hused : b.used with
  | false => simp
  | true => simp [hothers hused]

/-- Pids go up from one until they wrap. -/
theorem pids_increasing (hl : LifeInv s bs) (hlt : s.pids.length < 2 ^ 32) :
    s.pids.Pairwise (· < ·) := by
  have hpids : s.pids = (List.range s.pids.length).map (· + 1) := by
    refine hl.pids.trans (List.map_congr_left fun i hi => Nat.mod_eq_of_lt ?_)
    have := List.mem_range.mp hi
    omega
  rw [hpids]
  exact List.Pairwise.map _ (fun i j hij => Nat.succ_lt_succ hij) List.pairwise_lt_range

/-- A creation that fails changes no block in use and not `next_pid`. -/
theorem create_null (hl : LifeInv s bs) {call : CreateCall} {s' : ProcHeap}
    (hnull : call.exec k s.proc = some (0, s')) :
    s'.nextPid = s.proc.nextPid ∧ s'.heap.heapUsed = s.proc.heap.heapUsed ∧
      ∀ b, AllocatedBlock s'.heap b ↔ AllocatedBlock s.proc.heap b := by
  have hlt : s.proc.nextPid < 2 ^ 32 := hl.nextPid ▸ Nat.mod_lt _ (by decide)
  obtain ⟨p, s₁, bs', halloc, hi, -, hcase⟩ :=
    processAlloc_spec hl.inv (call.buildsProcess (k := k)) hlt
  obtain ⟨rfl, rfl⟩ := Prod.mk.inj (Option.some.inj (halloc.symm.trans hnull))
  rcases hcase with ⟨-, hpid, hperm⟩ | ⟨b, c, hp, -⟩
  · refine ⟨hpid, hl.inv.heapUsed_of_perm hi hperm, fun b => ?_⟩
    rw [hi.allocatedBlock_iff, hl.inv.allocatedBlock_iff, hperm.mem_iff]
  · simp [hdrSize] at hp

end LifeInv

/-- No process leaks memory, whatever the order of creations, destructions and other clients' calls:
the blocks in use are the PCB and the stack of each live process and those of the other clients, so
that without live processes `heap_used` counts the latter only; a creation that returns `NULL`
leaves `next_pid`, `heap_used` and the blocks in use; pids go up; and every legal call returns. -/
theorem processes_leakFree (k : KernelText) (mem : Mem) {start size : ℕ} (hpos : 0 < start)
    (hstart : 4 ∣ start) (hsize : 4 ∣ size) (hmin : 16 ≤ size) (hend : start + size < 2 ^ 32)
    {ops : List LifeOp} {s : LifeState}
    (hrun : Run (LifeStep k) ⟨processInit (heapInit mem start size), [], [], []⟩ ops s) :
    (∃ bs, Chain s.proc.heap.mem s.proc.heap.heapHead bs 0 ∧
        Ledger hdrSize bs (s.live.flatMap (fun q => [q.pcb, q.stack]) ++ s.others) ∧
        (s.live = [] → s.proc.heap.heapUsed =
          usedBytes (bs.filter fun b => b.addr + hdrSize ∈ s.others))) ∧
      (∀ (call : CreateCall) s', call.exec k s.proc = some (0, s') →
        s'.nextPid = s.proc.nextPid ∧ s'.heap.heapUsed = s.proc.heap.heapUsed ∧
          ∀ b, AllocatedBlock s'.heap b ↔ AllocatedBlock s.proc.heap b) ∧
      (s.pids.length < 2 ^ 32 → s.pids.Pairwise (· < ·)) ∧
      ∀ op : LifeOp, op.Legal s → ∃ s', op.exec k s = some s' := by
  obtain ⟨bs, hl⟩ := lifeInv_of_run k mem hpos hstart hsize hmin hend hrun
  refine ⟨⟨bs, hl.inv.chain, hl.ledger, hl.heapUsed_of_nil⟩, fun call s' => hl.create_null,
    hl.pids_increasing, fun op hop => ?_⟩
  obtain ⟨s', -, hexec, -⟩ := hl.exec (k := k) hop
  exact ⟨s', hexec⟩

/-- The creation of a kernel thread from a heap of 16 KB, which succeeds. -/
theorem processes_leakFree_kthread :
    ∃ s, Run (LifeStep (KernelText.ofBase 0x100000 (by decide)))
        ⟨processInit (heapInit (fun _ => 0) 0x1000 0x4000), [], [], []⟩
        [.create (.create 0x2000 0x3000)] s ∧
      s.live.length = 1 ∧ ∃ bs, Chain s.proc.heap.mem s.proc.heap.heapHead bs 0 ∧
        (inUse bs).length = 2 := by
  have hi : HeapInv (heapInit (fun _ => 0) 0x1000 0x4000) [⟨0x1000, 0x3FF0, false⟩] :=
    heapInv_heapInit _ (by decide) (by decide) (by decide) (by decide) (by decide)
  have halloc₁ : alloc hdrSize 4 (align4 processSize) [⟨0x1000, 0x3FF0, false⟩] =
      some (0x1010, [⟨0x1000, 416, true⟩, ⟨0x11B0, 0x3E40, false⟩]) := by decide
  have halloc₂ : alloc hdrSize 4 (align4 kernelStackSize)
      [⟨0x1000, 416, true⟩, ⟨0x11B0, 0x3E40, false⟩] = some (0x11C0,
        [⟨0x1000, 416, true⟩, ⟨0x11B0, 8192, true⟩, ⟨0x31C0, 0x1E30, false⟩]) := by decide
  obtain ⟨p, h₁, hk₁, -, ⟨-, hnone, -⟩ | ⟨bs₁, hsome₁, hi₁⟩⟩ :=
    hi.kzalloc_outside (n := processSize) (by decide) (by decide)
  · exact absurd (halloc₁.symm.trans hnone) (by simp)
  obtain ⟨rfl, rfl⟩ := Prod.mk.inj (Option.some.inj (halloc₁.symm.trans hsome₁))
  obtain ⟨stack, h₂, hk₂, -, ⟨-, hnone, -⟩ | ⟨bs₂, hsome₂, -⟩⟩ :=
    hi₁.kzalloc_outside (n := kernelStackSize) (by decide) (by decide)
  · exact absurd (halloc₂.symm.trans hnone) (by simp)
  obtain ⟨rfl, -⟩ := Prod.mk.inj (Option.some.inj (halloc₂.symm.trans hsome₂))
  -- Both allocations are served, so that the process is created.
  have hcreate : ∃ s', CreateCall.exec (KernelText.ofBase 0x100000 (by decide))
      (processInit (heapInit (fun _ => 0) 0x1000 0x4000)) (.create 0x2000 0x3000) =
        some (0x1010, s') := by
    rw [CreateCall.exec, processAlloc, processInit, hk₁]
    simp only [Option.bind_eq_bind, Option.bind_some, hk₂, Option.pure_def]
    exact ⟨_, rfl⟩
  obtain ⟨s', hs'⟩ := hcreate
  have hrun : Run (LifeStep (KernelText.ofBase 0x100000 (by decide)))
      ⟨processInit (heapInit (fun _ => 0) 0x1000 0x4000), [], [], []⟩
      [.create (.create 0x2000 0x3000)] _ :=
    (Run.nil _).snoc ⟨trivial, by rw [LifeOp.exec, hs', Option.map_some]⟩
  obtain ⟨⟨bs, hchain, hledger, -⟩, -⟩ := processes_leakFree _ _ (by decide) (by decide)
    (by decide) (by decide) (by decide) hrun
  have hlive : ∀ s₀ : LifeState, (s₀.created (0x1010, s')).live.length = s₀.live.length + 1 :=
    fun s₀ => rfl
  refine ⟨_, hrun, hlive _, bs, hchain, ?_⟩
  have hlen := hledger.length_eq
  rwa [List.length_map] at hlen

end Lightstreak
