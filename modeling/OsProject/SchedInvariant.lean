import OsProject.ProcCases

/-!
# Who runs where

The scheduling invariant: which control points a processor can be at, who
holds a slot's lock between two sections, and that a process that executes on
a processor is `RUNNING`.

Between two sections the lock of a slot is held only across a switch. Either
the scheduler has picked the process and the process has not yet released its
lock (`Mode.locked`), or the process has given up the processor and the
scheduler has not yet released it (`Mode.back`). In all other states the lock
is free, and then nothing but the state of the slot tells whether it is being
executed. This is why the code that writes another process's state has to look
at that state first.
-/

namespace Xv6

open Proc

open Function (update update_apply update_of_ne update_self)

/-- The part a processor's control point plays in scheduling. -/
inductive Mode where
  /-- Code of `scheduler`, no process being current. -/
  | idle
  /-- `scheduler` after `swtch`, the lock of slot `j` held. -/
  | back (j : Slot)
  /-- Code of the current process, its lock not held. -/
  | code
  /-- Code of the current process after `swtch`, its lock held. -/
  | locked
  /-- No control point of a run. -/
  | bad
  deriving DecidableEq

namespace Pc

/-- The part of a control point. A point that returns to another one must
return to one of the right kind. -/
def mode : Pc → Mode
  | .scheduler _ _ => .idle
  | .schedulerBack j => .back j
  | .forkret | .zombieExit | .panicked .zombieExit => .locked
  | .yieldRet k | .sleepRet _ k => if k.mode = .code then .locked else .bad
  | .sleepAcquire k => if k.mode = .code then .code else .bad
  | .wakeup _ _ k =>
    match k.mode with
    | .idle => .idle
    | .code => .code
    | _ => .bad
  | _ => .code

/-- The function a thread executes, interrupts and waiting set aside. -/
def base : Pc → Pc
  | .yieldRet k | .sleepRet _ k | .sleepAcquire k | .wakeup _ _ k => k.base
  | .forkret => .user
  | k => k

/-- The slot that `fork` or `spawn` is filling at this point. -/
def newProc (k : Pc) : Option Slot :=
  match k.base with
  | .spawnLoad np | .spawnTrapframe np _ | .spawnFiles np _ | .spawnBad np
  | .setParent np _ _ | .setRunnable np _ _ => some np
  | _ => none

@[simp] theorem base_forkret : forkret.base = user := rfl
@[simp] theorem base_yieldRet (k : Pc) : (yieldRet k).base = k.base := rfl
@[simp] theorem base_sleepRet (lk : Lk) (k : Pc) : (sleepRet lk k).base = k.base := rfl
@[simp] theorem base_sleepAcquire (k : Pc) : (sleepAcquire k).base = k.base := rfl
@[simp] theorem base_wakeup (ch : Option Chan) (i : ℕ) (k : Pc) :
    (wakeup ch i k).base = k.base := rfl

@[simp] theorem base_base (k : Pc) : k.base.base = k.base := by
  induction k with
  | yieldRet k ih | sleepRet lk k ih | sleepAcquire k ih | wakeup ch i k ih => exact ih
  | _ => rfl

@[simp] theorem newProc_base (k : Pc) : k.base.newProc = k.newProc := by
  unfold newProc
  rw [base_base]

/-- A point where interrupts are enabled holds no slot's lock. -/
theorem mode_of_interruptible {k : Pc} (h : k.interruptible = true) :
    k.mode = .idle ∨ k.mode = .code ∨ k.mode = .bad := by
  cases k with
  | sleepAcquire =>
    rw [mode]
    split
    · exact .inr (.inl rfl)
    · exact .inr (.inr rfl)
  | _ => simp_all [interruptible, mode]

/-- The only point after a switch back to the scheduler is `schedulerBack`. -/
theorem eq_of_mode_back {k : Pc} {j : Slot} (h : k.mode = .back j) : k = .schedulerBack j := by
  cases k with
  | schedulerBack => rw [Mode.back.inj h]
  | yieldRet | sleepRet | sleepAcquire | wakeup =>
    rw [mode] at h
    split at h <;> cases h
  | panicked m => cases m <;> cases h
  | _ => cases h

theorem mode_of_canBlock {k : Pc} (h : k.canBlock = true) : k.mode = .code := by
  cases k <;> simp_all [canBlock, mode]

end Pc

namespace Kernel

variable {s s' : Kernel} {c : CpuId} {p j : Slot} {a : Act} {k' k : Pc} {P : Proc} {pid : ℤ}
  {A : List ProcState}

/-- A section that only moves keeps the part its control point plays. -/
theorem Move.mode_eq (h : Move s p k k') : k'.mode = k.mode := by
  cases h <;> rfl

theorem Touch.mode_eq (h : Touch s p k j P k') : k'.mode = k.mode := by
  cases h <;> rfl

theorem Touch.lock_eq (h : Touch s p k j P k') : P.lock = (s.proc j).lock := by
  cases h with
  | signal sig => cases sig <;> rfl
  | _ => rfl

theorem Touch.context_eq (h : Touch s p k j P k') : P.context = (s.proc j).context := by
  cases h with
  | signal sig => cases sig <;> rfl
  | _ => rfl

/-- **The scheduling invariant.** -/
structure SchedInv (T : Slot → Proc) (C : CpuId → Cpu) : Prop where
  /-- No process is current in the scheduler's own code. -/
  idle : ∀ c, (C c).pc.mode = .idle → (C c).proc = none
  /-- After a switch back, the process that was switched from is current. -/
  back : ∀ c j, (C c).pc.mode = .back j → (C c).proc = some j
  /-- Code of a process runs with that process current, and the scheduler
  waits for it to switch back. -/
  code : ∀ c, (C c).pc.mode = .code ∨ (C c).pc.mode = .locked →
    ∃ p, (C c).proc = some p ∧ (C c).context = .schedulerBack p
  /-- Nothing else is executed. -/
  good : ∀ c, (C c).pc.mode ≠ .bad
  /-- Between sections a slot's lock is held across a switch only. -/
  lock_iff : ∀ j c, (T j).lock = some c ↔
    (C c).proc = some j ∧ ((C c).pc.mode = .back j ∨ (C c).pc.mode = .locked)
  /-- A process that executes is `RUNNING`. -/
  running : ∀ c p, (C c).proc = some p → (C c).pc.mode ≠ .back p → (T p).state = .running
  /-- A `RUNNING` process executes. -/
  current : ∀ p, (T p).state = .running →
    ∃ c, (C c).proc = some p ∧ ((C c).pc.mode = .code ∨ (C c).pc.mode = .locked)
  /-- A slot is current on one processor at most. -/
  unique : ∀ c c' p, (C c).proc = some p → (C c').proc = some p → c = c'
  /-- A process that can be switched to continues by releasing its lock. -/
  context : ∀ j, (T j).state ≠ .unused → (T j).state ≠ .running →
    (T j).context.mode = .locked

namespace SchedInv

variable {T : Slot → Proc} {C : CpuId → Cpu}

variable (I : SchedInv T C)
include I

/-- A slot whose lock is free and that is not `RUNNING` is current nowhere. -/
theorem not_current (hl : (T j).lock = none) (hs : (T j).state ≠ .running) (c : CpuId) :
    (C c).proc ≠ some j := by
  intro hc
  have hmode : (C c).pc.mode = .back j := by
    by_contra hne
    exact hs (I.running c j hc hne)
  have hlock := (I.lock_iff j c).mpr ⟨hc, .inl hmode⟩
  rw [hl] at hlock
  cases hlock

/-- Where interrupts are enabled, the code is that of the current process. -/
theorem code_of_interruptible (hc : (C c).proc = some p)
    (hk : (C c).pc.interruptible = true) : (C c).pc.mode = .code := by
  rcases Pc.mode_of_interruptible hk with h | h | h
  · rw [I.idle c h] at hc
    cases hc
  · exact h
  · exact absurd h (I.good c)

/-- A move of one processor within its part. -/
theorem setPc (hm : k.mode = (C c).pc.mode) : SchedInv T (update C c { C c with pc := k }) := by
  have hproc := update_keeps Cpu.proc (T := C) (P := { C c with pc := k }) rfl
  have hmode := update_keeps (fun D : Cpu => D.pc.mode) (T := C) (P := { C c with pc := k }) hm
  have hctx := update_keeps Cpu.context (T := C) (P := { C c with pc := k }) rfl
  constructor
  · simpa only [hproc, hmode] using I.idle
  · simpa only [hproc, hmode] using I.back
  · simpa only [hproc, hmode, hctx] using I.code
  · simpa only [hmode] using I.good
  · simpa only [hproc, hmode] using I.lock_iff
  · simpa only [hproc, hmode] using I.running
  · simpa only [hproc, hmode] using I.current
  · simpa only [hproc] using I.unique
  · exact I.context

/-- A write to a slot that keeps what scheduling is about. -/
theorem setSame (hl : P.lock = (T j).lock) (hs : P.state = (T j).state)
    (hc : P.context = (T j).context) : SchedInv (update T j P) C := by
  have hlock := update_keeps lock hl
  have hstate := update_keeps state hs
  have hctx := update_keeps Proc.context hc
  refine { I with lock_iff := ?_, running := ?_, current := ?_, context := ?_ }
  · simpa only [hlock] using I.lock_iff
  · simpa only [hstate] using I.running
  · simpa only [hstate] using I.current
  · simpa only [hstate, hctx] using I.context

/-- **A write to the state of a slot under its lock**, where neither state is
`RUNNING`. The slot is current nowhere, so no processor's view of it
changes. -/
theorem setState (hfree : (T j).lock = none) (hl : P.lock = (T j).lock)
    (hs : (T j).state ≠ .running) (hs' : P.state ≠ .running)
    (hc : P.state ≠ .unused → P.context.mode = .locked) : SchedInv (update T j P) C := by
  have hlock := update_keeps lock hl
  refine { I with lock_iff := ?_, running := ?_, current := ?_, context := ?_ }
  · simpa only [hlock] using I.lock_iff
  · intro c q hcur hne
    have hqj : q ≠ j := by
      rintro rfl
      exact I.not_current hfree hs c hcur
    simpa [hqj] using I.running c q hcur hne
  · intro q hrun
    have hqj : q ≠ j := by
      rintro rfl
      rw [update_self] at hrun
      exact hs' hrun
    rw [update_of_ne hqj] at hrun
    exact I.current q hrun
  · intro i hu hr
    by_cases h : i = j
    · subst h
      simp only [update_self] at hu ⊢
      exact hc hu
    · simp only [update_of_ne h] at hu hr ⊢
      exact I.context i hu hr

/-- The scheduler picks a process and switches to it. -/
theorem dispatch (hm : (C c).pc.mode = .idle) (hl : (T j).lock = none)
    (hr : (T j).state = .runnable) :
    SchedInv (update T j { T j with state := .running, lock := some c })
      (update C c { proc := some j, pc := (T j).context, context := .schedulerBack j }) := by
  have hnot : ∀ c', (C c').proc ≠ some j := I.not_current hl (by simp [hr])
  obtain ⟨_, _, _, _, _, _, _, _, _⟩ := I
  constructor
  all_goals
    simp only [update_apply]
    grind

/-- The scheduler releases the lock of the process that switched back. -/
theorem release (hm : (C c).pc.mode = .back j) (hk : k.mode = .idle) :
    SchedInv (update T j { T j with lock := none })
      (update C c { C c with proc := none, pc := k }) := by
  obtain ⟨_, _, _, _, _, _, _, _, _⟩ := I
  constructor
  all_goals
    simp only [update_apply]
    grind

/-- A process takes its own lock and switches to the scheduler. -/
theorem switchOut (hcur : (C c).proc = some p)
    (hm : (C c).pc.mode = .code) (hP : P.state ≠ .running) (hk : k.mode = .locked) :
    SchedInv (update T p { P with lock := some c, context := k })
      (update C c { C c with pc := (C c).context }) := by
  have hctx : (C c).context = .schedulerBack p := by
    obtain ⟨_, hq, hctx⟩ := I.code c (.inl hm)
    rw [hcur, Option.some.injEq] at hq
    exact hq ▸ hctx
  obtain ⟨_, _, _, _, _, _, _, _, _⟩ := I
  constructor
  all_goals
    simp only [update_apply, hctx]
    grind [Pc.mode]

/-- A process that was switched to releases its lock. -/
theorem resume (hcur : (C c).proc = some p)
    (hm : (C c).pc.mode = .locked) (hk : k.mode = .code) (hs : P.state = (T p).state)
    (hl : P.lock = none) : SchedInv (update T p P) (update C c { C c with pc := k }) := by
  obtain ⟨_, _, _, _, _, _, _, _, _⟩ := I
  constructor
  all_goals
    simp only [update_apply]
    grind

end SchedInv

/-! ## The condition on `sigstop` -/

/-- The signal that is delivered in this step and the slot that receives it,
if the step is one that delivers a signal. -/
def signalTarget (s : Kernel) (l : Label) : Option (Signal × Slot) :=
  match (s.cpus l.1).pc, l.2 with
  | .signal sig pid i, .go =>
    if h : i < NPROC then if (s.proc ⟨i, h⟩).pid = pid then some (sig, ⟨i, h⟩) else none else none
  | _, _ => none

theorem signalTarget_eq {sig : Signal} (hpc : (s.cpus c).pc = .signal sig pid j)
    (hp : (s.proc j).pid = pid) : s.signalTarget (c, .go) = some (sig, j) := by
  unfold signalTarget
  simp [hpc, hp]

/-- A condition on the receiver of a signal is decided by looking at the
receiver, and not at every slot. -/
def decidableTarget (o : Option (Signal × Slot)) (sig : Signal) (P : Slot → Prop)
    [DecidablePred P] : Decidable (∀ j, o = some (sig, j) → P j) :=
  match o with
  | none => isTrue (fun _ h => nomatch h)
  | some (sig', i) =>
    if hs : sig' = sig then
      decidable_of_iff (P i)
        ⟨fun hP _ h => (Prod.mk.inj (Option.some.inj h)).2 ▸ hP, fun h => h i (by rw [hs])⟩
    else isTrue (fun _ h => absurd (Prod.mk.inj (Option.some.inj h)).1 hs)

/-- **The side condition of a run**: whenever `sigstop` writes a slot, it finds
the slot in one of the states `A`. -/
def StopsOnly (A : List ProcState) (s : Kernel) (l : Label) : Prop :=
  ∀ j, s.signalTarget l = some (.sigstop, j) → (s.proc j).state ∈ A

instance (A : List ProcState) (s : Kernel) (l : Label) : Decidable (StopsOnly A s l) :=
  decidableTarget _ _ (fun j => (s.proc j).state ∈ A)

theorem StopsOnly.state_mem (h : StopsOnly A s (c, .go))
    (hpc : (s.cpus c).pc = .signal .sigstop pid j) (hp : (s.proc j).pid = pid) :
    (s.proc j).state ∈ A :=
  h j (signalTarget_eq hpc hp)

/-- The slot that `sigstop` is about to write is in one of the states. -/
theorem Touch.state_mem (h : Touch s p k j P k') (hok : StopsOnly A s (c, a)) (ha : a = .go)
    (hpc : (s.cpus c).pc = k) (hk : k = .signal .sigstop pid j) : (s.proc j).state ∈ A := by
  subst ha
  cases h with
  | signal sig pid' j hl hp =>
    obtain ⟨rfl, -, -⟩ := Pc.signal.inj hk
    exact hok.state_mem hpc hp
  | _ => cases hk

/-! ## The scheduling invariant is kept -/

/-- The states in which `sigstop` does no harm to scheduling. -/
abbrev stoppable : List ProcState := [.sleeping, .runnable, .zombie]

/-- The new state of a slot that `kill`, `sigcont` or an admitted `sigstop`
writes is the old one, unless the slot was one that is not executed. -/
theorem SchedInv.signal {T : Slot → Proc} {C : CpuId → Cpu} (I : SchedInv T C) (sig : Signal)
    (hl : (T j).lock = none) (hstop : sig = .sigstop → (T j).state ∈ stoppable) :
    SchedInv (update T j (sig.body (T j))) C := by
  have hwake : ∀ P : Proc, P.lock = (T j).lock → P.context = (T j).context →
      P.state = (if (T j).state = .sleeping then .runnable else (T j).state) →
      SchedInv (update T j P) C := by
    intro P hlock hctx hstate
    by_cases hs : (T j).state = .sleeping
    · refine I.setState hl hlock (by simp [hs]) (by simp [hstate, hs]) fun _ => ?_
      rw [hctx]
      exact I.context j (by simp [hs]) (by simp [hs])
    · exact I.setSame hlock (by rw [hstate, if_neg hs]) hctx
  cases sig with
  | kill | sigcont => exact hwake _ rfl rfl rfl
  | sigstop =>
    have hmem := hstop rfl
    have hne : (T j).state ≠ .unused ∧ (T j).state ≠ .running := by
      revert hmem
      cases (T j).state <;> simp
    exact I.setState hl rfl hne.2 (by simp [Signal.body]) fun _ => I.context j hne.1 hne.2

variable (I : SchedInv s.proc s.cpus)
include I

/-- What a creator writes to the slot it creates. -/
theorem SchedInv.touch (h : Touch s p k j P k')
    (hstop : ∀ pid, k = .signal .sigstop pid j → (s.proc j).state ∈ stoppable)
    (hused : k.newProc = some j → (s.proc j).state = .used) :
    SchedInv (update s.proc j P) s.cpus := by
  have hl := h.lock_eq
  have hc := h.context_eq
  cases h with
  | signal sig pid j hfree =>
    refine I.signal sig hfree fun hsig => hstop pid ?_
    rw [hsig]
  | spawnBad np hfree =>
    exact I.setState hfree rfl (by simp [hused rfl]) (by simp [freeproc]) (by simp [freeproc])
  | setRunnable np pid src hfree =>
    have hu := hused rfl
    exact I.setState hfree rfl (by simp [hu]) (by simp)
      (fun _ => I.context j (by simp [hu]) (by simp [hu]))
  | _ => exact I.setSame hl rfl hc

/-- **The scheduling invariant is kept by the sections of a process**, if
`sigstop` finds its target stoppable and a slot under construction is
`USED`. -/
theorem SchedInv.work (hok : StopsOnly stoppable s (c, a))
    (hused : ∀ c p np, (s.cpus c).proc = some p → (s.cpus c).pc.newProc = some np →
      (s.proc np).state = .used) (h : Section s c a p k k' s') : SchedInv s'.proc s'.cpus := by
  obtain ⟨hcur, hpc, h⟩ := h
  cases h with
  | move k k' ha h => exact I.setPc (by rw [hpc]; exact h.mode_eq)
  | touch k j P k' ha h =>
    have hm : k'.mode = (s.cpus c).pc.mode := by rw [hpc]; exact h.mode_eq
    refine SchedInv.setPc (I.touch h (fun pid hk => h.state_mem hok ha hpc hk) (fun hk => ?_)) hm
    exact hused c p j hcur (by rw [hpc]; exact hk)
  | own =>
    refine SchedInv.setPc (C := s.cpus) ?_ (by rw [hpc])
    exact I.setSame rfl rfl rfl
  | load => exact I.setPc (by rw [hpc])
  | loaded | copyFail => exact I.setPc (by rw [hpc]; rfl)
  | allocFail j cr hl hu =>
    refine SchedInv.setPc (C := s.cpus) ?_ (by rw [hpc]; rfl)
    exact I.setState hl rfl (by simp [hu]) (by simp [freeproc]) (by simp [freeproc])
  | fork j hl hu | spawn j hl hu =>
    refine SchedInv.setPc (C := s.cpus) ?_ (by rw [hpc]; rfl)
    exact I.setState hl rfl (by simp [hu]) (by simp [forkFill, alloc]) fun _ => rfl
  | acquire k k' h =>
    refine I.setPc ?_
    cases h <;> simp_all [Pc.mode]
  | release k h =>
    refine I.setPc ?_
    cases h <;> rw [hpc] <;> rfl
  | reap sel addr j hl hz =>
    refine SchedInv.setPc (C := s.cpus) ?_ (by rw [hpc]; rfl)
    exact I.setState hl rfl (by simp [hz]) (by simp [freeproc]) (by simp [freeproc])
  | waitSleep | exitZombie =>
    exact I.switchOut hcur (by rw [hpc]; rfl) (by simp) rfl

/-- **The scheduling invariant is kept by every step**, if `sigstop` finds its
target stoppable and a slot under construction is `USED`. -/
theorem SchedInv.step (hok : StopsOnly stoppable s (c, a))
    (hused : ∀ c p np, (s.cpus c).proc = some p → (s.cpus c).pc.newProc = some np →
      (s.proc np).state = .used) (h : Step s c a s') : SchedInv s'.proc s'.cpus := by
  cases h with
  | schedule i i' f f' hpc | wakeNext ch j k hpc => exact I.setPc (by rw [hpc]; rfl)
  | dispatch j f hpc hl hr => exact I.dispatch (by rw [hpc]; rfl) hl hr
  | back j hpc => exact I.release (by rw [hpc]; rfl) rfl
  | intr x hk =>
    refine I.setPc ?_
    have hgood := I.good c
    rcases Pc.mode_of_interruptible hk with h | h | h <;> simp_all [Pc.mode]
  | wakeOne ch j k hpc hl hs =>
    refine SchedInv.setPc (C := s.cpus) ?_ (by rw [hpc]; rfl)
    exact I.setState hl rfl (by simp [hs]) (by simp)
      (fun _ => I.context j (by simp [hs]) (by simp [hs]))
  | wakeEnd ch i k hpc =>
    refine I.setPc ?_
    have hgood := I.good c
    rw [hpc] at hgood ⊢
    cases hk : k.mode <;> simp_all [Pc.mode]
  | yield p hcur hk =>
    have hmode := I.code_of_interruptible hcur hk
    exact I.switchOut hcur hmode (by simp) (by simp [Pc.mode, hmode])
  | block p x hcur hk =>
    have hmode := Pc.mode_of_canBlock hk
    exact I.switchOut hcur hmode (by simp) (by simp [Pc.mode, hmode])
  | resume p k₀ k hcur hpc hk =>
    have hgood := I.good c
    refine I.resume hcur ?_ ?_ rfl rfl <;>
      rcases hk with rfl | ⟨rfl, rfl⟩ <;> simp_all [Pc.mode]
  | sleepRet p lk k hcur =>
    have hgood := I.good c
    refine I.resume hcur ?_ ?_ rfl rfl
    · simp_all [Pc.mode]
    · cases lk <;> simp_all [Pc.mode]
  | reacquire =>
    refine I.setPc ?_
    have hgood := I.good c
    simp_all [Pc.mode]
  | work s' p k k' hcur hpc h => exact I.work hok hused ⟨hcur, hpc, h⟩

end Kernel

end Xv6
