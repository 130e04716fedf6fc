import OsProject.Creation

/-!
# The holder of `wait_lock`

`wait_lock` is held across sections: by `exit` from the moment it hands its
children over until it is a zombie, and by `wait` and `waitpid` during a scan of
the table. Whether a processor holds it can be read off its control point
(`Pc.waitHeld`), and the lock records exactly the processor that does
(`LockInv`). So at most one processor is in such a section, and while it is
there nobody exits, nobody is reaped, and no parent changes hands.

A process never loses the processor while it holds the lock, because interrupts
are disabled then: `sleep` gives the lock back before it switches and acquires
it again afterwards. This is part of what it means for a control point to be
one that the code can be at (`Pc.wf`).
-/

namespace Xv6

open Function

namespace Pc

/-- The points at which the processor holds `wait_lock`. -/
def waitHeld : Pc → Bool
  | .reparent _ _ | .exitZombie _ | .waitScan _ _ _ _ | .waitVisit _ _ _ | .waitKilled _ _
  | .waitSleep _ _ => true
  | .wakeup _ _ k => k.waitHeld
  | _ => false

/-- The point to which `sleep` returns in `wait` and `waitpid`. -/
def isRescan : Pc → Bool
  | .waitScan _ _ 0 false => true
  | _ => false

/-- The points from which `exit` calls `wakeup`. -/
def isExit : Pc → Bool
  | .reparent _ _ | .exitZombie _ => true
  | _ => false

/-- A control point that returns to another returns to one that can have been
interrupted, can have slept, or has called. -/
def wf : Pc → Bool
  | .yieldRet k => k.interruptible && k.wf
  | .sleepRet .other k => k.canBlock
  | .sleepRet .wait k | .sleepAcquire k => k.isRescan
  | .wakeup _ _ k => (k.interruptible || k.isExit) && k.wf
  | _ => true

variable {k : Pc}

theorem waitHeld_of_interruptible (h : k.interruptible = true) : k.waitHeld = false := by
  cases k <;> simp_all [interruptible, waitHeld]

theorem waitHeld_of_canBlock (h : k.canBlock = true) : k.waitHeld = false := by
  cases k <;> simp_all [canBlock, waitHeld]

theorem wf_of_canBlock (h : k.canBlock = true) : k.wf = true := by
  cases k <;> simp_all [canBlock, wf]

theorem waitHeld_of_isRescan (h : k.isRescan = true) : k.waitHeld = true ∧ k.wf = true := by
  cases k <;> simp_all [isRescan, waitHeld, wf]

theorem eq_of_isRescan (h : k.isRescan = true) : ∃ sel addr, k = .waitScan sel addr 0 false := by
  unfold isRescan at h
  split at h
  · exact ⟨_, _, rfl⟩
  · cases h

/-- A thread that is in `exit`, past the acquisition, holds the lock. -/
theorem waitHeld_of_isExit (hwf : k.wf = true) (h : k.base.isExit = true) : k.waitHeld = true := by
  induction k with
  | yieldRet k ih =>
    rw [wf, Bool.and_eq_true] at hwf
    exact absurd (ih hwf.2 h) (by simp [waitHeld_of_interruptible hwf.1])
  | sleepRet lk k ih =>
    cases lk with
    | wait => cases k <;> simp_all [wf, isRescan, base, isExit]
    | other => exact absurd (ih (wf_of_canBlock hwf) h) (by simp [waitHeld_of_canBlock hwf])
  | sleepAcquire k => cases k <;> simp_all [wf, isRescan, base, isExit]
  | wakeup ch i k ih =>
    rw [wf, Bool.and_eq_true] at hwf
    exact ih hwf.2 h
  | _ => simp_all [base, isExit, waitHeld]

/-- A point at which a process's own lock is held is not one of these. -/
theorem waitHeld_of_locked (h : k.mode = .locked) : k.waitHeld = false := by
  cases k with
  | wakeup =>
    rw [mode] at h
    split at h <;> cases h
  | _ => simp_all [mode, waitHeld]

end Pc

namespace Kernel

variable {T : Slot → Proc} {C : CpuId → Cpu} {w : Option CpuId}
variable {s s' : Kernel} {c : CpuId} {p j : Slot} {a : Act} {k' k : Pc} {P : Proc}

/-- **The invariant of `wait_lock`.** -/
structure LockInv (T : Slot → Proc) (C : CpuId → Cpu) (w : Option CpuId) : Prop where
  pc : ∀ c, (C c).pc.wf = true
  context : ∀ j, (T j).context.wf = true
  /-- The lock records the processor that is in a section of the lock. -/
  held : ∀ c, w = some c ↔ (C c).pc.waitHeld = true

namespace LockInv

/-- A processor moves. -/
theorem setCpu (L : LockInv T C w) {w' : Option CpuId} {D : Cpu} (hwf : D.pc.wf = true)
    (hheld : w' = some c ↔ D.pc.waitHeld = true)
    (hother : ∀ c', c' ≠ c → (w' = some c' ↔ w = some c')) : LockInv T (update C c D) w' := by
  refine ⟨?_, L.context, ?_⟩
  · rw [forall_update_iff C (fun _ D => D.pc.wf = true)]
    exact ⟨hwf, fun c' _ => L.pc c'⟩
  · rw [forall_update_iff C (fun c' D => w' = some c' ↔ D.pc.waitHeld = true)]
    exact ⟨hheld, fun c' hc => (hother c' hc).trans (L.held c')⟩

/-- A processor moves and keeps what it holds. -/
theorem setPc (L : LockInv T C w) {D : Cpu} (hwf : D.pc.wf = true)
    (hheld : D.pc.waitHeld = (C c).pc.waitHeld) : LockInv T (update C c D) w :=
  L.setCpu hwf (by rw [L.held c, hheld]) (fun _ _ => Iff.rfl)

/-- A slot is written. -/
theorem setProc (L : LockInv T C w) (hP : P.context.wf = true) : LockInv (update T j P) C w := by
  refine ⟨L.pc, ?_, L.held⟩
  rw [forall_update_iff T (fun _ P => P.context.wf = true)]
  exact ⟨hP, fun i _ => L.context i⟩

/-- A processor acquires the lock. -/
theorem acquire (L : LockInv T C none) (hwf : k.wf = true) (hheld : k.waitHeld = true) :
    LockInv T (update C c { C c with pc := k }) (some c) :=
  L.setCpu hwf (by simp [hheld]) (fun c' hc => by simp [Ne.symm hc])

/-- The holder releases the lock. -/
theorem release (L : LockInv T C w) (hwf : k.wf = true)
    (hold : (C c).pc.waitHeld = true) (hheld : k.waitHeld = false) :
    LockInv T (update C c { C c with pc := k }) none := by
  have hw : w = some c := (L.held c).mpr hold
  exact L.setCpu hwf (by simp [hheld]) (fun c' hc => by simp [hw, Ne.symm hc])

end LockInv

theorem Move.waitHeld_eq (h : Move s p k k') : k'.waitHeld = k.waitHeld ∧ k'.wf = true := by
  cases h <;> exact ⟨rfl, rfl⟩

theorem Touch.waitHeld_eq (h : Touch s p k j P k') : k'.waitHeld = k.waitHeld ∧ k'.wf = true := by
  cases h <;> exact ⟨rfl, rfl⟩

theorem LockInv.work (L : LockInv s.proc s.cpus s.waitLock) (I : SchedInv s.proc s.cpus)
    (hpc : (s.cpus c).pc = k) (h : Work s c a p k k' s') : LockInv s'.proc s'.cpus s'.waitLock := by
  cases h with
  | move k k' ha h =>
    refine L.setPc ?_ ?_
    · exact h.waitHeld_eq.2
    · rw [hpc]
      exact h.waitHeld_eq.1
  | touch k j P k' ha h =>
    refine (L.setProc ?_).setPc ?_ ?_
    · rw [h.context_eq]
      exact L.context j
    · exact h.waitHeld_eq.2
    · rw [hpc]
      exact h.waitHeld_eq.1
  | own =>
    refine (L.setProc ?_).setPc ?_ ?_
    · exact L.context p
    · rfl
    · rw [hpc]
  | load => exact L.setPc rfl (by rw [hpc])
  | loaded =>
    refine L.setPc ?_ ?_
    · rfl
    · rw [hpc]
      rfl
  | allocFail | fork | spawn =>
    refine (L.setProc ?_).setPc ?_ ?_
    · rfl
    · rfl
    · rw [hpc]
      rfl
  | acquire k k' h hw =>
    rw [hw] at L
    cases h with
    | exit => exact L.acquire rfl rfl
    | wait => exact L.acquire rfl rfl
  | release k h =>
    refine L.release rfl ?_ rfl
    cases h <;> rw [hpc] <;> rfl
  | copyFail => exact L.release rfl (by rw [hpc]; rfl) rfl
  | reap sel addr j =>
    refine (L.setProc ?_).release ?_ ?_ ?_
    · exact L.context j
    · rfl
    · rw [hpc]
      rfl
    · rfl
  | waitSleep | exitZombie =>
    -- the processor continues in the scheduler
    obtain ⟨q, -, hctx⟩ := I.code c (.inl (by rw [hpc]; rfl))
    refine (L.setProc ?_).release ?_ ?_ ?_
    · rfl
    · rw [hctx]
      rfl
    · rw [hpc]
      rfl
    · rw [hctx]
      rfl

/-- **The invariant of `wait_lock` is kept by every step.** -/
theorem LockInv.step (L : LockInv s.proc s.cpus s.waitLock) (I : SchedInv s.proc s.cpus)
    (h : Step s c a s') : LockInv s'.proc s'.cpus s'.waitLock := by
  have hwf := L.pc c
  cases h with
  | schedule i i' f f' hpc =>
    refine L.setPc ?_ ?_
    · rfl
    · rw [hpc]
      rfl
  | dispatch j f hpc hl hr =>
    have hctx := I.context j (by simp [hr]) (by simp [hr])
    refine (L.setProc ?_).setPc ?_ ?_
    · exact L.context j
    · exact L.context j
    · rw [hpc]
      exact Pc.waitHeld_of_locked hctx
  | back j hpc =>
    refine (L.setProc ?_).setPc ?_ ?_
    · exact L.context j
    · rfl
    · rw [hpc]
      rfl
  | intr x hk =>
    refine L.setPc ?_ ?_
    · simp [Pc.wf, hk, hwf]
    · rfl
  | wakeNext ch j k hpc =>
    rw [hpc] at hwf
    refine L.setPc ?_ ?_
    · exact hwf
    · rw [hpc]
      rfl
  | wakeOne ch j k hpc =>
    rw [hpc] at hwf
    refine (L.setProc ?_).setPc ?_ ?_
    · exact L.context j
    · exact hwf
    · rw [hpc]
      rfl
  | wakeEnd ch i k hpc =>
    rw [hpc, Pc.wf, Bool.and_eq_true] at hwf
    refine L.setPc ?_ ?_
    · exact hwf.2
    · rw [hpc]
      rfl
  | yield p hcur hk =>
    obtain ⟨q, -, hctx⟩ := I.code c (.inl (I.code_of_interruptible hcur hk))
    refine (L.setProc ?_).setPc ?_ ?_
    · simp [Pc.wf, hk, hwf]
    · rw [hctx]
      rfl
    · rw [hctx, Pc.waitHeld_of_interruptible hk]
      rfl
  | block p x hcur hk =>
    obtain ⟨q, -, hctx⟩ := I.code c (.inl (Pc.mode_of_canBlock hk))
    refine (L.setProc ?_).setPc ?_ ?_
    · exact hk
    · rw [hctx]
      rfl
    · rw [hctx, Pc.waitHeld_of_canBlock hk]
      rfl
  | resume p k₀ k hcur hpc hk =>
    have hk' : k.wf = true ∧ k.waitHeld = k₀.waitHeld := by
      rcases hk with rfl | ⟨rfl, rfl⟩
      · rw [hpc, Pc.wf, Bool.and_eq_true] at hwf
        exact ⟨hwf.2, Pc.waitHeld_of_interruptible hwf.1⟩
      · exact ⟨rfl, rfl⟩
    refine (L.setProc ?_).setPc ?_ ?_
    · exact L.context p
    · exact hk'.1
    · rw [hpc]
      exact hk'.2
  | sleepRet p lk k hcur hpc =>
    rw [hpc] at hwf
    refine (L.setProc ?_).setPc ?_ ?_
    · exact L.context p
    · cases lk with
      | wait => exact hwf
      | other => exact Pc.wf_of_canBlock hwf
    · rw [hpc]
      cases lk with
      | wait => rfl
      | other => exact Pc.waitHeld_of_canBlock hwf
  | reacquire p k hcur hpc hw =>
    rw [hw] at L
    rw [hpc] at hwf
    obtain ⟨hheld, hk⟩ := Pc.waitHeld_of_isRescan hwf
    exact L.acquire hk hheld
  | work s' p k k' hcur hpc h => exact L.work I hpc h

theorem LockInv.boot (root : ℕ) (init : AddrSpace) :
    LockInv (boot root init).proc (boot root init).cpus (boot root init).waitLock := by
  refine ⟨fun c => rfl, fun j => ?_, fun c => ?_⟩
  · rw [boot_context]
    rfl
  · simp [Kernel.boot, Pc.waitHeld]

/-- **It holds in every state of a run.** -/
theorem LockInv.of_runs {ok : Kernel → Label → Prop} {root : ℕ} {init : AddrSpace}
    (h : Lts.Runs Kernel.step ok (Kernel.boot root init) s)
    (hok : ∀ s l, ok s l → StopsOnly stoppable s l) : LockInv s.proc s.cpus s.waitLock := by
  refine (h.invariant (I := fun s => Inv s ∧ LockInv s.proc s.cpus s.waitLock)
    ⟨Inv.boot root init, LockInv.boot root init⟩ ?_).2
  rintro s l s' ⟨I, L⟩ hl hs
  exact ⟨I.step (hok s l hl) hs, L.step I.sched (step_cases hs)⟩

/-- **While `wait_lock` is free, nobody is in the part of `exit` that needs
it.** -/
theorem LockInv.not_exiting (L : LockInv T C none) (I : SchedInv T C) {q : Slot}
    (ht : Thread T C q k) : k.base.isExit = false := by
  rw [← Bool.not_eq_true]
  intro hk
  rcases ht with ⟨c, -, rfl, -⟩ | ⟨hs, rfl⟩
  · have hheld := (L.held c).mpr (Pc.waitHeld_of_isExit (L.pc c) hk)
    cases hheld
  · have hmode := I.context q (by rcases hs with h | h <;> simp [h])
      (by rcases hs with h | h <;> simp [h])
    have hheld := Pc.waitHeld_of_isExit (L.context q) hk
    simp [Pc.waitHeld_of_locked hmode] at hheld

end Kernel

end Xv6
