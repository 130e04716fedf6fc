import OsProject.FamilyTree

/-!
# No stuck waiter

A process that finds nothing to reap in `wait` or `waitpid` sleeps on its own
address, and an exiting child calls `wakeup` on that address before it becomes
a zombie. The protocol has to make sure that nobody sleeps while there is
something to reap, or sleeps for a child it does not have.

Its parts are tied together by `wait_lock`. A scan holds the lock from its
first slot until the scanner is asleep, so what it saw in the slots it has
passed is still so when it sleeps (`Scan`, `wait_lock_atomic`). An exiting
process holds the lock from the handing over of its children until it is a
zombie, and calls `wakeup` in between, so no waiting parent can be asleep
again at the end. The one state in which a sleeper and what it waits for are
out of step is that of the first process while it is handed a child that is a
zombie already: then the `wakeup` that `reparent` calls for it is under way
(`Pending`).

`waitpid` tests the pid of a slot and not its parent. A caller that names a
process that is not its child may sleep for it, and nobody will ever wake it
up on account of that process. So the invariant is one of the runs in which
the slots that `waitpid` finds are children of its caller.
-/

namespace Xv6

open AddrSpace Pc Option

open Function (update update_of_ne update_self)

/-- What a process sleeps for that has called `sleep` at this point of `wait`
or `waitpid`. -/
def Pc.waitsFor : Pc → Option Sel
  | .sleepRet .wait (.waitScan sel _ 0 false) => some sel
  | _ => none

namespace Kernel

variable {s s' : Kernel} {c : CpuId} {p q : Slot} {a : Act} {sel : Sel}
variable {T T' : Slot → Proc} {k k' : Pc} {j : Slot} {P : Proc} {l : Label} {c' : CpuId} {st : ℤ}
  {ch : Option Chan} {i : ℕ}

/-! ## Waiting -/

/-- Process `p` is asleep in `wait` or in `waitpid`. -/
def AsleepIn (T : Slot → Proc) (p : Slot) (sel : Sel) : Prop :=
  (T p).state = .sleeping ∧ (T p).context.waitsFor = some sel

instance (T : Slot → Proc) (p : Slot) (sel : Sel) : Decidable (AsleepIn T p sel) :=
  instDecidableAnd

/-- Process `p` is not asleep in `wait` or `waitpid`. -/
def Awake (T : Slot → Proc) (p : Slot) : Prop := ∀ sel, ¬ AsleepIn T p sel

/-- Slot `j` holds a child of `p`, and with `waitpid` the one asked for. -/
def Awaited (T : Slot → Proc) (p : Slot) (sel : Sel) (j : Slot) : Prop :=
  (T j).parent = some p ∧ ∀ pid, sel = .pid pid → (T j).pid = pid

/-- **There is a child to wait for, and none that could be reaped.** -/
def Waits (T : Slot → Proc) (p : Slot) (sel : Sel) : Prop :=
  (∃ j, Awaited T p sel j) ∧ ∀ j, Awaited T p sel j → (T j).state ≠ .zombie

/-- What the code of process `p` at a control point relies on while it holds
`wait_lock`. -/
def Scan (T : Slot → Proc) (p : Slot) : Pc → Prop
  | .waitScan sel _ i havekids =>
    (havekids = true → ∃ j, Awaited T p sel j) ∧
      ∀ j : Slot, j.val < i → Awaited T p sel j → (T j).state ≠ .zombie
  | .waitVisit sel _ i =>
    Awaited T p sel i ∧ ∀ j : Slot, j.val < i.val → Awaited T p sel j → (T j).state ≠ .zombie
  | .waitKilled sel _ | .waitSleep sel _ => Waits T p sel
  | .wakeup ch i (.exitZombie _) => ∀ q, (T p).parent = some q →
    ch = some (.proc q) ∧ (q.val < i → Awake T q)
  | .exitZombie _ => ∀ q, (T p).parent = some q → Awake T q
  | _ => True

/-- It relies on something only while it holds the lock. -/
theorem Scan.of_not_held (h : k.waitHeld = false) : Scan T p k := by
  cases k with
  | wakeup ch i k => cases k <;> simp_all [waitHeld, Scan]
  | _ => simp_all [waitHeld, Scan]

/-- `reparent` is on its way through `wakeup(initproc)` and has not passed slot
`p`, the first process. -/
def Pending (s : Kernel) (p : Slot) : Prop :=
  p = s.initproc ∧ ∃ c i j st,
    (s.cpus c).pc = .wakeup (some (.proc p)) i (.reparent j st) ∧ i ≤ p.val

/-- **The invariant of the protocol.** -/
structure WaitInv (s : Kernel) : Prop where
  /-- A waiter sleeps on its own address. -/
  chan : ∀ p sel, AsleepIn s.proc p sel → (s.proc p).chan = some (.proc p)
  /-- A waiter has reason to sleep, or is about to be woken up. -/
  asleep : ∀ p sel, AsleepIn s.proc p sel → Waits s.proc p sel ∨ Pending s p
  scan : ∀ c p, (s.cpus c).proc = some p → Scan s.proc p (s.cpus c).pc

theorem WaitInv.boot (root : ℕ) (init : AddrSpace) : WaitInv (boot root init) := by
  have hno : ∀ p sel, ¬ AsleepIn (Kernel.boot root init).proc p sel := by
    rintro p sel ⟨-, hw⟩
    rw [boot_context] at hw
    cases hw
  refine ⟨fun p sel h => absurd h (hno p sel), fun p sel h => absurd h (hno p sel), ?_⟩
  intro c p hcur
  cases hcur

/-! ## Falling asleep -/

/-- Writing a slot does not make its process a waiter, unless it is put to
sleep in `wait`. -/
theorem AsleepIn.of_update (h : AsleepIn (update T j P) q sel)
    (hP : P.state ≠ .sleeping ∨ P.context.waitsFor = none ∨
      P.state = (T j).state ∧ P.context = (T j).context ∧ P.chan = (T j).chan) :
    AsleepIn T q sel ∧ (update T j P q).chan = (T q).chan := by
  by_cases hq : q = j
  · subst hq
    obtain ⟨hs, hw⟩ := h
    simp only [update_self] at hs hw ⊢
    rcases hP with hP | hP | ⟨h₁, h₂, h₃⟩
    · exact absurd hs hP
    · rw [hP] at hw
      cases hw
    · exact ⟨⟨h₁ ▸ hs, h₂ ▸ hw⟩, h₃⟩
  · unfold AsleepIn at h
    rw [update_of_ne hq] at h ⊢
    exact ⟨h, rfl⟩

/-- The sections that write one slot put nobody to sleep, `sigstop` apart. -/
theorem Touch.not_asleep (h : Touch s p k j P k') (hstop : ∀ pid, k ≠ .signal .sigstop pid j) :
    P.state ≠ .sleeping ∨ P.context.waitsFor = none ∨ P.state = (s.proc j).state ∧
      P.context = (s.proc j).context ∧ P.chan = (s.proc j).chan := by
  cases h with
  | signal sig pid =>
    cases sig with
    | sigstop => exact absurd rfl (hstop pid)
    | kill | sigcont =>
      refine .inl ?_
      simp only [Signal.body]
      split
      · simp
      · assumption
  | spawnBad => exact .inl (by simp [Proc.freeproc])
  | setRunnable => exact .inl (by simp)
  | _ => exact .inr (.inr ⟨rfl, rfl, rfl⟩)

/-- **A process falls asleep in `wait` by its own step and in no other way**, if
nobody is stopped. -/
theorem Step.asleep (I : SchedInv s.proc s.cpus) (hok : StopsOnly [] s (c, a))
    (h : Step s c a s') (hq : AsleepIn s'.proc q sel) :
    (AsleepIn s.proc q sel ∧ (s'.proc q).chan = (s.proc q).chan) ∨
      ∃ addr, (s.cpus c).proc = some q ∧ (s.cpus c).pc = .waitSleep sel addr ∧
        (s'.proc q).chan = some (.proc q) := by
  cases h with
  | schedule | intr | wakeNext | wakeEnd | reacquire => exact .inl ⟨hq, rfl⟩
  | dispatch | wakeOne | yield =>
    exact .inl (hq.of_update (.inl (by simp)))
  | back | resume =>
    exact .inl (hq.of_update (.inr (.inr ⟨rfl, rfl, rfl⟩)))
  | block => exact .inl (hq.of_update (.inr (.inl rfl)))
  | sleepRet p lk k hcur hpc =>
    -- the process is `RUNNING` by now
    have hrun := I.running c p hcur (by rw [hpc]; simp only [mode]; split <;> simp)
    exact .inl (hq.of_update (.inl (by simp [hrun])))
  | work s' p k k' hcur hpc h =>
    cases h with
    | move | load | loaded | acquire | release | copyFail => exact .inl ⟨hq, rfl⟩
    | touch k j P k' ha h =>
      refine .inl (hq.of_update (h.not_asleep (fun pid hk => ?_)))
      exact List.not_mem_nil (h.state_mem hok ha hpc hk)
    | own => exact .inl (hq.of_update (.inr (.inr ⟨rfl, rfl, rfl⟩)))
    | allocFail => exact .inl (hq.of_update (.inl (by simp [Proc.freeproc])))
    | fork =>
      exact .inl (hq.of_update (.inl (by simp [Proc.forkFill, Proc.alloc])))
    | spawn => exact .inl (hq.of_update (.inl (by simp [Proc.alloc])))
    | reap =>
      exact .inl (hq.of_update (.inl (by simp [Proc.freeproc])))
    | exitZombie => exact .inl (hq.of_update (.inl (by simp)))
    | waitSleep sel' addr =>
      by_cases hqp : q = p
      · subst hqp
        have hw := hq.2
        simp only [switchOut, goto_proc, setProc_proc, update_self, waitsFor, some.injEq] at hw
        subst hw
        exact .inr ⟨addr, hcur, hpc, by simp [switchOut]⟩
      · refine .inl ?_
        unfold AsleepIn at hq ⊢
        simpa [switchOut, hqp] using hq

/-! ## What is done to somebody's children -/

/-- From `T` to `T'` process `q` neither gains nor loses a child, and none of
them becomes a zombie. -/
def KeepsChildren (T T' : Slot → Proc) (q : Slot) : Prop :=
  ∀ j, ((T' j).parent = some q ↔ (T j).parent = some q) ∧ ((T j).parent = some q →
    (T' j).pid = (T j).pid ∧ ((T' j).state = .zombie → (T j).state = .zombie))

theorem KeepsChildren.awaited (h : KeepsChildren T T' q) (j : Slot) :
    Awaited T' q sel j ↔ Awaited T q sel j := by
  unfold Awaited
  rw [(h j).1]
  refine and_congr_right fun hp => ?_
  rw [((h j).2 hp).1]

theorem KeepsChildren.not_zombie (h : KeepsChildren T T' q) (hj : Awaited T' q sel j)
    (hz : (T j).state ≠ .zombie) : (T' j).state ≠ .zombie :=
  fun hz' => hz (((h j).2 ((h j).1.mp hj.1)).2 hz')

theorem KeepsChildren.waits (h : KeepsChildren T T' q) (hw : Waits T q sel) : Waits T' q sel := by
  obtain ⟨⟨j, hj⟩, hno⟩ := hw
  exact ⟨⟨j, (h.awaited j).mpr hj⟩, fun i hi => h.not_zombie hi (hno i ((h.awaited i).mp hi))⟩

theorem Silent.keepsChildren (h : Silent s s') (q : Slot) : KeepsChildren s.proc s'.proc q := by
  intro j
  rw [h.parent j]
  exact ⟨Iff.rfl, fun _ => ⟨h.pid j, (h.state_iff (by decide)).mp⟩⟩

/-- A slot that a section leaves free, and that is not reaped, had no
parent. -/
theorem TableInv.parent_none (V : TableInv s) (hok : StopsOnly stoppable s (c, a))
    (h : Section s c a p k k' s') (hj : (s'.proc j).state = .unused)
    (hreap : ∀ sel addr, k = .waitVisit sel addr j → (s.proc j).state ≠ .zombie) :
    (s.proc j).parent = none := by
  cases h.change V.inv.sched hok j with
  | keep hp => exact (V.blank j (ProcState.eq_of_phase hp.symm hj (by decide))).parent
  | discard hk =>
    subst hk
    exact (V.tree.rooted p _ h.thread_self).1
  | reap sel addr hk hs => exact absurd hs (hreap sel addr hk)
  | create hs hk hs' | publish pid src hk hk' hs' | die st he hk hk' hs' | stop pid hk hs hs' =>
    simp [hj] at hs'

/-- **The sections that change somebody's children** are the one that sets the
parent of a new process, the handing over, the reaping and the end of
`exit`. -/
theorem TableInv.keepsChildren (V : TableInv s) (hok : StopsOnly stoppable s (c, a))
    (h : Section s c a p k k' s') (hnew : ∀ np pid src, k = .setParent np pid src → q ≠ p)
    (hmove : ∀ (j : Slot) st, k = .reparent j st → (s.proc j).parent = some p →
      q ≠ p ∧ q ≠ s.initproc)
    (hreap : ∀ sel addr j, k = .waitVisit sel addr j → (s.proc j).state = .zombie →
      (s.proc j).parent ≠ some q) (hdie : ∀ st, k = .exitZombie st → (s.proc p).parent ≠ some q) :
    KeepsChildren s.proc s'.proc q := by
  -- a child's slot is not freed
  have hfree : ∀ j, (s.proc j).parent = some q → (s'.proc j).state ≠ .unused := by
    intro j hj hu
    have hnone := V.parent_none hok h hu (fun sel addr hk hz => hreap sel addr j hk hz hj)
    rw [hj] at hnone
    cases hnone
  intro j
  refine ⟨⟨fun hj => ?_, fun hj => ?_⟩, fun hj => ⟨?_, fun hz => ?_⟩⟩
  · rcases h.work.parent_some hj with he | ⟨⟨pid, src, hk⟩, he⟩ | ⟨⟨st, hk⟩, hp, he⟩
    · exact he
    · exact absurd he (hnew j pid src hk)
    · exact absurd he (hmove j st hk hp).2
  · rcases h.work.parent_cases j with he | ⟨-, hu⟩ | ⟨pid, src, rfl, -⟩ | ⟨st, hk, hp, -⟩
    · exact he.trans hj
    · exact absurd hu (hfree j hj)
    · have hnone := (V.tree.rooted p _ h.thread_self).1
      rw [hj] at hnone
      cases hnone
    · exact absurd (some.inj (hj.symm.trans hp)) (hmove j st hk hp).1
  · refine h.work.pid_of_used (fun hu => ?_) (hfree j hj)
    rw [(V.blank j hu).parent] at hj
    cases hj
  · cases h.change V.inv.sched hok j with
    | keep hp => exact ProcState.eq_of_phase hp.symm hz (by decide)
    | die st he hk => exact absurd (he ▸ hj) (hdie st hk)
    | create hs hk hs' | discard hk hk' hs' | publish pid src hk hk' hs' => simp [hz] at hs'
    | reap sel addr hk hs | stop pid hk hs => exact hs

/-! ## The side condition -/

/-- The caller of `waitpid` and the slot, when a processor is about to test a
slot that has the pid asked for. -/
def pidTarget (s : Kernel) (l : Label) : Option (Slot × Slot) :=
  match (s.cpus l.1).proc, (s.cpus l.1).pc with
  | some p, .waitScan (.pid pid) _ i _ =>
    if h : i < NPROC then if (s.proc ⟨i, h⟩).pid = pid then some (p, ⟨i, h⟩) else none else none
  | _, _ => none

/-- **The side condition**: nobody is stopped, and a slot that `waitpid` finds
holds a child of its caller. -/
def AsksForChild (s : Kernel) (l : Label) : Prop :=
  StopsOnly [] s l ∧ (s.pidTarget l).all (fun t => (s.proc t.2).parent == some t.1) = true

instance (s : Kernel) (l : Label) : Decidable (AsksForChild s l) := instDecidableAnd

theorem AsksForChild.stoppable (h : AsksForChild s l) : StopsOnly stoppable s l :=
  h.1.mono (by simp)

/-- The test of the scan finds the children that are waited for, and no other
slot. -/
theorem AsksForChild.test_iff (h : AsksForChild s (c, a)) {addr : ℕ} {havekids : Bool}
    (hcur : (s.cpus c).proc = some p) (hpc : (s.cpus c).pc = .waitScan sel addr j havekids) :
    sel.test p (s.proc j) = true ↔ Awaited s.proc p sel j := by
  cases sel with
  | children => simp [Sel.test, Awaited]
  | pid pid =>
    have hall := h.2
    simp only [pidTarget, hcur, hpc, j.isLt, dite_true, Fin.eta] at hall
    simp only [Sel.test, beq_iff_eq, Awaited, Sel.pid.injEq]
    constructor
    · intro hp
      rw [if_pos hp] at hall
      refine ⟨by simpa using hall, ?_⟩
      rintro _ rfl
      exact hp
    · exact fun hj => hj.2 pid rfl

/-! ## One step -/

/-- A step of another processor leaves a processor alone. -/
theorem Step.cpus_eq (h : Step s c a s') (hc : c' ≠ c) : s'.cpus c' = s.cpus c' := by
  cases h with
  | work s' p k k' hcur hpc h => cases h <;> simp [releaseWait, switchOut, Kernel.own, hc]
  | _ => simp [switchOut, hc]

theorem Step.initproc_eq (h : Step s c a s') : s'.initproc = s.initproc := by
  cases h with
  | work s' p k k' hcur hpc h => exact h.initproc_eq
  | _ => rfl

/-- The parent of a new process is set while `wait_lock` is free. -/
theorem Work.setParent_free (h : Work s c a p k k' s') {np : Slot} {pid : ℤ} {src : Source}
    (hk : k = .setParent np pid src) : s.waitLock = none := by
  cases h with
  | move k k' ha h | release k h => cases h <;> cases hk
  | touch k j P k' ha h =>
    cases h with
    | setParent np pid src hw => exact hw
    | _ => cases hk
  | acquire k k' h hw => exact hw
  | _ => cases hk

/-- After a child has been handed over, the first process is woken up. -/
theorem Work.reparent_pc (h : Work s c a p k k' s') (hk : k = .reparent j st)
    (hp : (s.proc j).parent = some p) :
    (s'.cpus c).pc = .wakeup (some (.proc s.initproc)) 0 (.reparent (j + 1) st) := by
  cases h with
  | move k k' ha h =>
    cases h with
    | reparentNext i st' hi =>
      rw [Fin.ext (reparent.inj hk).1] at hi
      exact absurd hp hi
    | reparentEnd =>
      have he := (reparent.inj hk).1
      omega
    | _ => cases hk
  | touch k i P k' ha h =>
    cases h with
    | reparent =>
      obtain ⟨he, rfl⟩ := reparent.inj hk
      simp [he]
    | _ => cases hk
  | acquire k k' h | release k h => cases h <;> cases hk
  | _ => cases hk

/-- **What a processor does that is in the loop of `wakeup`**: it skips a slot,
wakes the process of a slot, or leaves the loop. -/
theorem Step.of_wakeup (h : Step s c a s') (hpc : (s.cpus c).pc = .wakeup ch i k) :
    (∃ j : Slot, i = j ∧ s'.proc = s.proc ∧ (s'.cpus c).pc = .wakeup ch (i + 1) k ∧
      ((s.cpus c).proc = some j ∨ ¬ ((s.proc j).state = .sleeping ∧ (s.proc j).chan = ch))) ∨
    (∃ j : Slot, i = j ∧ (s'.cpus c).pc = .wakeup ch (i + 1) k ∧
      s'.proc = update s.proc j { s.proc j with state := .runnable }) ∨
    NPROC ≤ i ∧ s'.proc = s.proc ∧ (s'.cpus c).pc = k := by
  cases h with
  | wakeNext ch j k hpc' hskip =>
    obtain ⟨rfl, rfl, rfl⟩ := wakeup.inj (hpc.symm.trans hpc')
    exact .inl ⟨j, rfl, rfl, by simp, hskip⟩
  | wakeOne ch j k hpc' =>
    obtain ⟨rfl, rfl, rfl⟩ := wakeup.inj (hpc.symm.trans hpc')
    exact .inr (.inl ⟨j, rfl, by simp, rfl⟩)
  | wakeEnd ch i k hpc' hi =>
    obtain ⟨rfl, rfl, rfl⟩ := wakeup.inj (hpc.symm.trans hpc')
    exact .inr (.inr ⟨hi, rfl, by simp⟩)
  | schedule i i' f f' hpc' | dispatch j f hpc' | back j hpc' | sleepRet p lk k hcur hpc'
  | reacquire p k hcur hpc' =>
    rw [hpc] at hpc'
    cases hpc'
  | intr x hk | yield p hcur hk | block p x hcur hk =>
    rw [hpc] at hk
    cases hk
  | resume p k₀ k hcur hpc' hk =>
    rw [hpc] at hpc'
    rcases hk with rfl | ⟨rfl, -⟩ <;> cases hpc'
  | work s' p k₀ k' hcur hpc' h =>
    rw [hpc] at hpc'
    subst hpc'
    cases h with
    | move k k' ha h => cases h
    | touch k j P k' ha h => cases h
    | acquire k k' h => cases h
    | release k h => cases h

/-- **When the loop of `wakeup(q)` has passed slot `q`, process `q` does not
sleep in `wait`.** -/
theorem WaitInv.passed (W : WaitInv s) (I : SchedInv s.proc s.cpus)
    (hpc : (s.cpus c).pc = .wakeup ch i k) (h : Step s c a s') : NPROC ≤ i ∧ (s'.cpus c).pc = k ∨
      (s'.cpus c).pc = .wakeup ch (i + 1) k ∧
        ∀ q, ch = some (.proc q) → i = q.val → Awake s'.proc q := by
  rcases h.of_wakeup hpc with ⟨j, rfl, hT, hpc', hskip⟩ | ⟨j, rfl, hpc', hT⟩ | ⟨hend, -, hpc'⟩
  · refine .inr ⟨hpc', fun q hch hj sel hq => ?_⟩
    rw [hT] at hq
    obtain rfl : j = q := Fin.ext hj
    rcases hskip with hcur | hno
    · have hrun := I.running c j hcur (by
        obtain ⟨hm, hk | hk⟩ := I.mode_wakeup hpc <;> rw [hm, hk] <;> simp)
      rw [hq.1] at hrun
      cases hrun
    · exact hno ⟨hq.1, (W.chan j sel hq).trans hch.symm⟩
  · refine .inr ⟨hpc', fun q _ hj sel hq => ?_⟩
    obtain rfl : j = q := Fin.ext hj
    have hs := hq.1
    rw [hT] at hs
    simp at hs
  · exact .inl ⟨hend, hpc'⟩

/-- The `wakeup` that is under way for the first process goes on until that
process is awake. -/
theorem WaitInv.pending_stays (W : WaitInv s) (I : SchedInv s.proc s.cpus)
    (h : Step s c a s') (hp : Pending s q) (hq : AsleepIn s'.proc q sel) : Pending s' q := by
  obtain ⟨hinit, c', i, j, st, hpc, hi⟩ := hp
  refine ⟨hinit.trans h.initproc_eq.symm, c', ?_⟩
  by_cases hc : c' = c
  · subst hc
    rcases W.passed I hpc h with ⟨_, -⟩ | ⟨hpc', hpass⟩
    · have hlt := q.isLt
      omega
    · have hne : i ≠ q.val := fun he => hpass q rfl he sel hq
      exact ⟨i + 1, j, st, hpc', by omega⟩
  · rw [h.cpus_eq hc]
    exact ⟨i, j, st, hpc, hi⟩

/-- **A waiter keeps its reason to sleep**, or it is the first process and is
about to be woken up. -/
theorem WaitInv.waits_stay (W : WaitInv s) (V : TableInv s) (hok : StopsOnly stoppable s (c, a))
    (h : Step s c a s') (hq : AsleepIn s.proc q sel) (hw : Waits s.proc q sel) :
    Waits s'.proc q sel ∨ Pending s' q := by
  rcases h.silent_or_work V.inv.sched with hs | ⟨p, k, k', hwork⟩
  · exact .inl ((hs.keepsChildren q).waits hw)
  have hqp : q ≠ p := by
    rintro rfl
    have hrun := hwork.running V.inv.sched
    rw [hq.1] at hrun
    cases hrun
  have hscan := W.scan c p hwork.cur
  rw [hwork.pc] at hscan
  by_cases hmove : ∃ (j : Slot) (st : ℤ), k = .reparent j st ∧ (s.proc j).parent = some p ∧
      q = s.initproc
  · obtain ⟨j, st, hk, hp, rfl⟩ := hmove
    exact .inr
      ⟨hwork.work.initproc_eq.symm, c, 0, _, st, hwork.work.reparent_pc hk hp, Nat.zero_le _⟩
  · refine .inl (KeepsChildren.waits (V.keepsChildren hok hwork ?_ ?_ ?_ ?_) hw)
    · exact fun _ _ _ _ => hqp
    · exact fun j st hk hp => ⟨hqp, fun he => hmove ⟨j, st, hk, hp, he⟩⟩
    · -- who is reaped is a child of the reaper
      rintro sel' addr j rfl - hj
      exact hqp (some.inj (hj.symm.trans hscan.1.1))
    · -- and the parent of who exits has been woken up
      rintro st rfl hp
      exact hscan q hp sel hq

/-- What a processor relies on is left alone while nobody's children
change. -/
theorem Scan.frame (h : Scan T p k) (hkeep : ∀ q, KeepsChildren T T' q)
    (hawake : ∀ q, Awake T q → Awake T' q) : Scan T' p k := by
  have hpar : ∀ q, (T' p).parent = some q ↔ (T p).parent = some q := fun q => (hkeep q p).1
  have haw : ∀ {sel j}, Awaited T' p sel j ↔ Awaited T p sel j :=
    fun {_ j} => (hkeep p).awaited j
  cases k with
  | waitScan =>
    refine ⟨fun hk => ?_, fun j hj hw => (hkeep p).not_zombie hw (h.2 j hj (haw.mp hw))⟩
    obtain ⟨j, hj⟩ := h.1 hk
    exact ⟨j, haw.mpr hj⟩
  | waitVisit =>
    exact ⟨haw.mpr h.1, fun j hj hw => (hkeep p).not_zombie hw (h.2 j hj (haw.mp hw))⟩
  | waitKilled | waitSleep => exact (hkeep p).waits h
  | exitZombie => exact fun q hq => hawake q (h q ((hpar q).mp hq))
  | wakeup ch i k =>
    cases k with
    | exitZombie =>
      intro q hq
      obtain ⟨hch, hpass⟩ := h q ((hpar q).mp hq)
      exact ⟨hch, fun hi => hawake q (hpass hi)⟩
    | _ => trivial
  | _ => trivial

/-- **While one processor holds `wait_lock`, the others change nobody's
children.** -/
theorem LockInv.keepsChildren (L : LockInv s.proc s.cpus s.waitLock) (V : TableInv s)
    (hok : StopsOnly stoppable s (c, a)) (h : Step s c a s') (hc : c' ≠ c)
    (hheld : (s.cpus c').pc.waitHeld = true) (q : Slot) : KeepsChildren s.proc s'.proc q := by
  have hlock : s.waitLock = some c' := (L.held c').mpr hheld
  have hnot : (s.cpus c).pc.waitHeld ≠ true := by
    intro hheld'
    have hlock' := (L.held c).mpr hheld'
    rw [hlock, some.injEq] at hlock'
    exact hc hlock'
  rcases h.silent_or_work V.inv.sched with hs | ⟨p, k, k', hwork⟩
  · exact hs.keepsChildren q
  rw [hwork.pc] at hnot
  refine V.keepsChildren hok hwork ?_ ?_ ?_ ?_
  · intro np pid src hk
    have hfree := hwork.work.setParent_free hk
    rw [hlock] at hfree
    cases hfree
  · rintro j st rfl
    exact absurd rfl hnot
  · rintro sel addr j rfl
    exact absurd rfl hnot
  · rintro st rfl
    exact absurd rfl hnot

/-- **What a scan relies on at its next point.** -/
theorem WaitInv.scan_work (W : WaitInv s) (I : SchedInv s.proc s.cpus)
    (hask : AsksForChild s (c, a)) (h : Section s c a p k k' s') :
    Scan s'.proc p (s'.cpus c).pc := by
  obtain ⟨hcur, hpc, h⟩ := h
  have hscan := W.scan c p hcur
  rw [hpc] at hscan
  cases h with
  | move k k' ha h =>
    simp only [goto_cpus, update_self, goto_proc]
    cases h with
    | reparentEnd =>
      intro q hq
      exact ⟨by rw [hq]; rfl, fun hlt => absurd hlt (Nat.not_lt_zero _)⟩
    | scanHit sel addr j hk ht => exact ⟨(hask.test_iff hcur hpc).mp ht, hscan.2⟩
    | scanNext sel addr j hk ht =>
      refine ⟨hscan.1, fun i hi hw => ?_⟩
      rcases Nat.lt_succ_iff_lt_or_eq.mp hi with hlt | he
      · exact hscan.2 i hlt hw
      · rw [Fin.ext he, ← hask.test_iff hcur hpc, ht] at hw
        cases hw
    | scanEnd sel addr i hi =>
      exact ⟨hscan.1 rfl, fun j => hscan.2 j (lt_of_lt_of_le j.isLt hi)⟩
    | visitNext sel addr j hz =>
      refine ⟨fun _ => ⟨j, hscan.1⟩, fun i hi hw => ?_⟩
      rcases Nat.lt_succ_iff_lt_or_eq.mp hi with hlt | he
      · exact hscan.2 i hlt hw
      · rw [Fin.ext he]
        exact hz
    | notKilled => exact hscan
    | _ => trivial
  | touch k j P k' ha h =>
    simp only [goto_cpus, update_self]
    cases h <;> trivial
  | acquire k k' h =>
    simp only [goto_cpus, update_self]
    cases h with
    | exit => trivial
    | wait => exact ⟨Bool.noConfusion, fun j hj => absurd hj (Nat.not_lt_zero _)⟩
  | waitSleep | exitZombie =>
    obtain ⟨q, -, hctx⟩ := I.code c (.inl (by rw [hpc]; rfl))
    refine Scan.of_not_held ?_
    simp [switchOut, hctx, waitHeld]
  | _ =>
    refine Scan.of_not_held ?_
    simp [releaseWait, Kernel.own, waitHeld]

/-- **What an exiting process relies on in `wakeup(p->parent)` and after
it.** -/
theorem WaitInv.scan_wakeup (W : WaitInv s) (I : SchedInv s.proc s.cpus)
    (hok : StopsOnly [] s (c, a)) (hcur : (s.cpus c).proc = some p)
    (hpc : (s.cpus c).pc = .wakeup ch i (.exitZombie st)) (h : Step s c a s') :
    Scan s'.proc p (s'.cpus c).pc := by
  have hscan := W.scan c p hcur
  rw [hpc] at hscan
  have hpar : (s'.proc p).parent = (s.proc p).parent := by
    rcases h.of_wakeup hpc with ⟨j, -, hT, -⟩ | ⟨j, -, -, hT⟩ | ⟨-, hT, -⟩ <;> rw [hT]
    exact update_keeps Proc.parent (by rfl) p
  have hawake : ∀ q, Awake s.proc q → Awake s'.proc q := by
    intro q hq sel hs
    rcases h.asleep I hok hs with ⟨hs, -⟩ | ⟨addr, -, hpc', -⟩
    · exact hq sel hs
    · rw [hpc] at hpc'
      cases hpc'
  rcases W.passed I hpc h with ⟨hend, hpc'⟩ | ⟨hpc', hpass⟩ <;> rw [hpc'] <;> intro q hq <;>
    rw [hpar] at hq <;> obtain ⟨hch, hold⟩ := hscan q hq
  · exact hawake q (hold (lt_of_lt_of_le q.isLt hend))
  · refine ⟨hch, fun hlt => ?_⟩
    rcases Nat.lt_succ_iff_lt_or_eq.mp hlt with hlt | he
    · exact hawake q (hold hlt)
    · exact hpass q hch he.symm

/-- **What a processor relies on after its own step.** -/
theorem WaitInv.scan_self (W : WaitInv s) (I : SchedInv s.proc s.cpus)
    (L : LockInv s.proc s.cpus s.waitLock) (hask : AsksForChild s (c, a)) (h : Step s c a s')
    (hcur' : (s'.cpus c).proc = some p) : Scan s'.proc p (s'.cpus c).pc := by
  have hwf := L.pc c
  have h' := h
  cases h with
  | schedule | back => exact Scan.of_not_held (by simp [waitHeld])
  | dispatch j f hpc hl hr =>
    refine Scan.of_not_held ?_
    simpa using waitHeld_of_locked (I.context j (by simp [hr]) (by simp [hr]))
  | intr x hk =>
    refine Scan.of_not_held ?_
    simp [waitHeld, waitHeld_of_interruptible hk]
  | yield q hcur hk =>
    obtain ⟨q', -, hctx⟩ := I.code c (.inl (I.code_of_interruptible hcur hk))
    exact Scan.of_not_held (by simp [switchOut, hctx, waitHeld])
  | block q x hcur hk =>
    obtain ⟨q', -, hctx⟩ := I.code c (.inl (mode_of_canBlock hk))
    exact Scan.of_not_held (by simp [switchOut, hctx, waitHeld])
  | resume q k₀ k hcur hpc hk =>
    refine Scan.of_not_held ?_
    rw [goto_cpus, update_self]
    rcases hk with rfl | ⟨-, rfl⟩
    · rw [hpc, wf, Bool.and_eq_true] at hwf
      exact waitHeld_of_interruptible hwf.1
    · rfl
  | sleepRet q lk k hcur hpc =>
    refine Scan.of_not_held ?_
    rw [hpc] at hwf
    rw [goto_cpus, update_self]
    cases lk with
    | wait => rfl
    | other => exact waitHeld_of_canBlock hwf
  | reacquire q k hcur hpc =>
    -- the scan starts again
    rw [hpc] at hwf
    simp only [goto_cpus, update_self]
    obtain ⟨-, -, rfl⟩ := eq_of_isRescan hwf
    exact ⟨Bool.noConfusion, fun j hj => absurd hj (Nat.not_lt_zero _)⟩
  | wakeNext ch j k hpc | wakeOne ch j k hpc =>
    rw [goto_cpus, update_self] at hcur' ⊢
    cases k with
    | exitZombie =>
      have hscan := W.scan_wakeup I hask.1 hcur' hpc h'
      rwa [goto_cpus, update_self] at hscan
    | _ => trivial
  | wakeEnd ch i k hpc =>
    rw [hpc, wf, Bool.and_eq_true, Bool.or_eq_true] at hwf
    rw [goto_cpus, update_self] at hcur' ⊢
    rcases hwf.1 with hk | hk
    · exact Scan.of_not_held (waitHeld_of_interruptible hk)
    · cases k with
      | exitZombie =>
        have hscan := W.scan_wakeup I hask.1 hcur' hpc h'
        rwa [goto_cpus, update_self] at hscan
      | reparent => trivial
      | _ => cases hk
  | work s' q k k' hcur hpc h =>
    have hq : p = q := by
      have hproc : (s'.cpus c).proc = (s.cpus c).proc := by
        cases h <;> simp [releaseWait, switchOut, Kernel.own]
      rwa [hcur', hcur, some.injEq] at hproc
    subst hq
    exact W.scan_work I hask ⟨hcur, hpc, h⟩

theorem WaitInv.step (W : WaitInv s) (V : TableInv s) (L : LockInv s.proc s.cpus s.waitLock)
    (hask : AsksForChild s l) (h : Kernel.step s l = some s') : WaitInv s' := by
  have hs := step_cases h
  have hasleep := fun {q sel} (hq : AsleepIn s'.proc q sel) => hs.asleep V.inv.sched hask.1 hq
  constructor
  · intro q sel hq
    rcases hasleep hq with ⟨hq₀, hch⟩ | ⟨addr, -, -, hch⟩
    · exact hch.trans (W.chan q sel hq₀)
    · exact hch
  · intro q sel hq
    rcases hasleep hq with ⟨hq₀, -⟩ | ⟨addr, hcur, hpc, -⟩
    · rcases W.asleep q sel hq₀ with hw | hp
      · exact W.waits_stay V hask.stoppable hs hq₀ hw
      · exact .inr (W.pending_stays V.inv.sched hs hp hq)
    · -- the scan has just ended
      have hscan := W.scan l.1 q hcur
      rw [hpc] at hscan
      refine .inl (KeepsChildren.waits ?_ hscan)
      rcases hs.silent_or_work V.inv.sched with hsil | ⟨p, k, k', hwork⟩
      · exact hsil.keepsChildren q
      · obtain rfl := hwork.pc.symm.trans hpc
        exact V.keepsChildren hask.stoppable hwork (by simp) (by simp) (by simp) (by simp)
  · intro c p hcur
    by_cases hc : c = l.1
    · subst hc
      exact W.scan_self V.inv.sched L hask hs hcur
    · rw [hs.cpus_eq hc] at hcur ⊢
      cases hheld : (s.cpus c).pc.waitHeld with
      | false => exact Scan.of_not_held hheld
      | true =>
        refine (W.scan c p hcur).frame (L.keepsChildren V hask.stoppable hs hc hheld) ?_
        intro q hq sel hs'
        rcases hasleep hs' with ⟨hs', -⟩ | ⟨addr, -, hpc, -⟩
        · exact hq sel hs'
        · -- the scanner of `l.1` would hold the lock too
          have h₁ := (L.held c).mpr hheld
          have h₂ := (L.held l.1).mpr (by rw [hpc]; rfl)
          rw [h₁, some.injEq] at h₂
          exact hc h₂

/-- **It holds in every state of a run.** -/
theorem WaitInv.of_runs {root : ℕ} {init : AddrSpace}
    (h : Lts.Runs Kernel.step AsksForChild (Kernel.boot root init) s) :
    TableInv s ∧ LockInv s.proc s.cpus s.waitLock ∧ WaitInv s := by
  refine h.invariant (I := fun s => TableInv s ∧ LockInv s.proc s.cpus s.waitLock ∧ WaitInv s)
    ⟨TableInv.boot root init, LockInv.boot root init, WaitInv.boot root init⟩ ?_
  rintro s l s' ⟨V, L, W⟩ hask hs
  exact ⟨V.step hask.stoppable hs, L.step V.inv.sched (step_cases hs), W.step V L hask hs⟩

/-- **In a run in which nobody is stopped and every slot that `waitpid` finds
holds a child of its caller**, whenever `wait_lock` is free:

* a process asleep in `wait` has a child, and none of its children is a zombie;
* a process asleep in `waitpid(pid)` has a child with that pid that is not a
  zombie. -/
theorem no_stuck_waiter {root : ℕ} {init : AddrSpace}
    (h : Lts.Runs step AsksForChild (boot root init) s) (hw : s.waitLock = none) :
    (∀ p, AsleepIn s.proc p .children →
      (∃ j, (s.proc j).parent = some p ∧ (s.proc j).state ≠ .unused) ∧
        ∀ j, (s.proc j).parent = some p → (s.proc j).state ≠ .zombie) ∧
    ∀ p pid, AsleepIn s.proc p (.pid pid) →
      ∃ j, (s.proc j).pid = pid ∧ (s.proc j).parent = some p ∧ (s.proc j).state ≠ .unused ∧
        (s.proc j).state ≠ .zombie := by
  obtain ⟨V, L, W⟩ := WaitInv.of_runs h
  have hwaits : ∀ p sel, AsleepIn s.proc p sel → Waits s.proc p sel := by
    intro p sel hp
    refine (W.asleep p sel hp).resolve_right ?_
    -- `reparent` holds the lock while it wakes the first process
    rintro ⟨-, c, i, j, _, hpc, -⟩
    have hheld := (L.held c).mpr (by rw [hpc]; rfl)
    rw [hw] at hheld
    cases hheld
  have hused : ∀ j p, (s.proc j).parent = some p → (s.proc j).state ≠ .unused := by
    intro j p hj hu
    rw [(V.blank j hu).parent] at hj
    cases hj
  refine ⟨fun p hp => ?_, fun p pid hp => ?_⟩
  · obtain ⟨⟨j, hj⟩, hno⟩ := hwaits p .children hp
    exact ⟨⟨j, hj.1, hused j p hj.1⟩, fun i hi => hno i ⟨hi, by simp⟩⟩
  · obtain ⟨⟨j, hj⟩, hno⟩ := hwaits p (.pid pid) hp
    exact ⟨j, hj.2 pid rfl, hj.1, hused j p hj.1, hno j hj⟩

/-- The process of processor 0, the first one, makes a system call that waits
and finds one slot that passes its test and nothing to reap. -/
def callAndSleep (sc : Syscall) : List Label := (0, .call sc) :: List.replicate 69 (0, .go)

/-- The theorem at work: the first process waits for its child. -/
theorem no_stuck_waiter_child : ∃ s, Lts.Runs step AsksForChild (boot 0 empty) s ∧
      AsleepIn s.proc 0 (.pid 2) ∧ s.waitLock = none ∧ ∃ j, (s.proc j).pid = 2 ∧
        (s.proc j).parent = some 0 ∧ (s.proc j).state ≠ .unused ∧ (s.proc j).state ≠ .zombie := by
  obtain ⟨s, hrun, hw, hsl⟩ : ∃ s ∈ Lts.runIf step AsksForChild (boot 0 empty)
      (forkChild ++ callAndSleep (.waitpid 2 0)),
      s.waitLock = none ∧ AsleepIn s.proc 0 (.pid 2) := by decide +kernel
  replace hrun := Lts.runs_of_runIf hrun
  exact ⟨s, hrun, hsl, hw, (no_stuck_waiter hrun hw).2 0 2 hsl⟩

/-- **`waitpid` with the caller's own pid** sleeps, and so does `waitpid(0)`, for
which every free slot passes the test. The caller has no child at all. -/
theorem waitpid_sleeps_childless :
    (∃ s, Lts.Runs step (StopsOnly []) (boot 0 empty) s ∧ s.waitLock = none ∧
      AsleepIn s.proc 0 (.pid 1) ∧ ∀ j, (s.proc j).parent ≠ some 0) ∧
    ∃ s, Lts.Runs step (StopsOnly []) (boot 0 empty) s ∧ s.waitLock = none ∧
      AsleepIn s.proc 0 (.pid 0) ∧ ∀ j, (s.proc j).parent ≠ some 0 := by
  constructor
  · exact Lts.exists_runs_if ([(0, .go), (0, .go)] ++ callAndSleep (.waitpid 1 0))
      (by decide +kernel)
  · exact Lts.exists_runs_if ([(0, .go), (0, .go)] ++ callAndSleep (.waitpid 0 0) ++
      List.replicate 62 (0, .go)) (by decide +kernel)

/-! ## Sections of `wait_lock` -/

theorem KeepsChildren.trans {T₁ : Slot → Proc} (h : KeepsChildren T T₁ q)
    (h' : KeepsChildren T₁ T' q) : KeepsChildren T T' q := by
  intro j
  refine ⟨(h' j).1.trans (h j).1, fun hp => ?_⟩
  obtain ⟨hpid, hz⟩ := (h j).2 hp
  obtain ⟨hpid', hz'⟩ := (h' j).2 ((h j).1.mpr hp)
  exact ⟨hpid'.trans hpid, hz ∘ hz'⟩

/-- **The sections of `wait_lock` are atomic.** While a processor is in one, no other is, and
however many steps the others take, every process has the same children, and the same of
them are zombies. -/
theorem wait_lock_atomic {root : ℕ} {init : AddrSpace}
    (h : Lts.Runs step (StopsOnly inactive) (boot root init) s)
    (hheld : (s.cpus c).pc.waitHeld = true)
    (h' : Lts.Runs step (fun t l => StopsOnly inactive t l ∧ l.1 ≠ c) s s') :
    s'.waitLock = some c ∧ (∀ c', (s'.cpus c').pc.waitHeld = true → c' = c) ∧
      ∀ q j, ((s'.proc j).parent = some q ↔ (s.proc j).parent = some q) ∧
        ((s.proc j).parent = some q → (s'.proc j).pid = (s.proc j).pid ∧
          ((s'.proc j).state = .zombie ↔ (s.proc j).state = .zombie)) := by
  have V := TableInv.of_runs h (fun _ _ ho => ho.stoppable)
  have L := LockInv.of_runs h (fun _ _ ho => ho.stoppable)
  obtain ⟨-, L', hcpu, hkeep, hz⟩ := h'.invariant (I := fun t => TableInv t ∧
      LockInv t.proc t.cpus t.waitLock ∧ t.cpus c = s.cpus c ∧
      (∀ q, KeepsChildren s.proc t.proc q) ∧
      ∀ j, (s.proc j).state = .zombie → (t.proc j).state = .zombie)
    ⟨V, L, rfl, fun q j => ⟨Iff.rfl, fun _ => ⟨rfl, id⟩⟩, fun _ => id⟩ <| by
      rintro t l t' ⟨V, L, hcpu, hkeep, hz⟩ ⟨ho, hc⟩ hs
      have hstep := step_cases hs
      have hheld' : (t.cpus c).pc.waitHeld = true := hcpu.symm ▸ hheld
      refine ⟨V.step ho.stoppable hs, L.step V.inv.sched hstep, (hstep.cpus_eq hc.symm).trans hcpu,
        fun q => (hkeep q).trans (L.keepsChildren V ho.stoppable hstep hc.symm hheld' q),
        fun j hj => ?_⟩
      rcases V.inv.zombie_step ho hs (hz j hj) with hz' | ⟨sel, addr, hpc, -⟩
      · exact hz'.1
      · -- who reaps a zombie holds the lock
        have hlock := (L.held l.1).mpr (by rw [hpc]; rfl)
        rw [(L.held c).mpr hheld'] at hlock
        exact absurd (some.inj hlock).symm hc
  have hlock : s'.waitLock = some c := (L'.held c).mpr (hcpu.symm ▸ hheld)
  refine ⟨hlock, fun c' hc' => ?_, fun q j => ⟨(hkeep q j).1, fun hp => ?_⟩⟩
  · exact some.inj (((L'.held c').mpr hc').symm.trans hlock)
  · exact ⟨((hkeep q j).2 hp).1, ((hkeep q j).2 hp).2, hz j⟩

/-- The theorem at work: the child is run while its parent scans the table. -/
theorem wait_lock_atomic_child : ∃ s s' : Kernel, (s.proc 1).state = .runnable ∧
    (s.cpus 0).pc.waitHeld = true ∧ (s'.proc 1).state = .running ∧ s'.waitLock = some 0 ∧
      (s'.proc 1).parent = some 0 := by
  obtain ⟨s, hs, hr, hheld, hp, s', hs', hr'⟩ :
      ∃ s ∈ Lts.runIf step (StopsOnly inactive) (boot 0 empty)
        (forkChild ++ [(0, .call (.wait 0)), (0, .go)]), (s.proc 1).state = .runnable ∧
      (s.cpus 0).pc.waitHeld = true ∧ (s.proc 1).parent = some 0 ∧
      ∃ s' ∈ Lts.runIf step (fun t l => StopsOnly inactive t l ∧ l.1 ≠ 0) s (runChild 1),
        (s'.proc 1).state = .running := by decide +kernel
  have h := wait_lock_atomic (Lts.runs_of_runIf hs) hheld (Lts.runs_of_runIf hs')
  exact ⟨s, s', hr, hheld, hr', h.1, (h.2.2 0 1).1.mpr hp⟩

end Kernel

end Xv6
