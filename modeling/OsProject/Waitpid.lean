import OsProject.Zombie

/-!
# One call of `waitpid`

`waitpid` is `wait` with another test: `wait` looks for slots whose parent is
the caller, `waitpid` for slots that have the given pid. The rest of the loop
is the same, in particular it takes every slot that passes the test for a child
of the caller.

`waitScanAll` is the body of the `for(;;)` loop as one function of the table:
what a call does that finds the locks free. It is what the steps of the model
do when no other processor moves in between (`wait_alone`). For `waitpid`
it gives an exact answer to the question when the call does what its name says
– reap children only, and fail at once when there is no such child
(`waitpid_children_iff`).
-/

namespace Xv6

namespace Kernel

variable {s s' s₁ s₂ : Kernel} {c : CpuId} {p : Slot}

/-- What a call has done when it returns, or when it goes to sleep. -/
structure WaitResult where
  kernel : Kernel
  /-- The return value, or `none` if the call goes to sleep. -/
  ret : Option ℤ

/-- The section of the scan that has found a zombie. -/
def reapZombie (s : Kernel) (p : Slot) (addr : ℕ) (j : Slot) : WaitResult :=
  if addr = 0 then ⟨s.setProc j (s.proc j).freeproc, some (s.proc j).pid⟩
  else
    let r := (s.umem p).copyout addr (intBytes (s.proc j).xstate)
    if r.2 then ⟨(s.setUmem p r.1).setProc j (s.proc j).freeproc, some (s.proc j).pid⟩
    else ⟨s.setUmem p r.1, some (-1)⟩

/-- The loop of `wait` or `waitpid` over the slots `js`, and what follows it. -/
def waitScanAll (s : Kernel) (p : Slot) (sel : Sel) (addr : ℕ) :
    List Slot → Bool → WaitResult
  | [], havekids =>
    ⟨s, if havekids = false ∨ (s.proc p).killed = true then some (-1) else none⟩
  | j :: js, havekids =>
    if sel.test p (s.proc j) then
      if (s.proc j).state = .zombie then s.reapZombie p addr j
      else s.waitScanAll p sel addr js true
    else s.waitScanAll p sel addr js havekids

/-- `waitpid(pid, addr)` called by process `p`, up to its return or its first
sleep. -/
def waitpid (s : Kernel) (p : Slot) (pid : ℤ) (addr : ℕ) : WaitResult :=
  s.waitScanAll p (.pid pid) addr (List.finRange NPROC) false

/-- Whether the status of slot `j` can be stored at `addr`. -/
def storable (s : Kernel) (p : Slot) (addr : ℕ) (j : Slot) : Bool :=
  addr == 0 || ((s.umem p).copyout addr (intBytes (s.proc j).xstate)).2

/-! ## What the loop finds -/

/-- The slot that the loop tries to reap: the first one that passes the test
and is a zombie. -/
def firstZombie (s : Kernel) (p : Slot) (sel : Sel) (js : List Slot) : Option Slot :=
  js.find? (fun j => sel.test p (s.proc j) && decide ((s.proc j).state = .zombie))

/-- **The loop in closed form.** -/
theorem waitScanAll_eq (s : Kernel) (p : Slot) (sel : Sel) (addr : ℕ) (js : List Slot)
    (havekids : Bool) :
    s.waitScanAll p sel addr js havekids = match s.firstZombie p sel js with
      | some j => s.reapZombie p addr j
      | none => ⟨s, if (havekids || js.any (fun j => sel.test p (s.proc j))) = false ∨
          (s.proc p).killed = true then some (-1) else none⟩ := by
  induction js generalizing havekids with
  | nil => simp [waitScanAll, firstZombie]
  | cons j js ih =>
    rw [waitScanAll]
    by_cases ht : sel.test p (s.proc j) = true
    · by_cases hz : (s.proc j).state = .zombie
      · simp [ht, hz, firstZombie]
      · simp [ht, hz, firstZombie, ih]
    · simp [ht, firstZombie, ih]

/-- A zombie is reaped if its status can be stored, and otherwise the call
fails and leaves the table alone. -/
theorem reapZombie_proc (s : Kernel) (p : Slot) (addr : ℕ) (j : Slot) :
    (s.reapZombie p addr j).kernel.proc =
      if s.storable p addr j then Function.update s.proc j (s.proc j).freeproc else s.proc := by
  unfold reapZombie storable
  by_cases ha : addr = 0
  · simp [ha]
  · simp only [ha, if_false]
    split <;> simp_all

theorem reapZombie_ret (s : Kernel) (p : Slot) (addr : ℕ) (j : Slot) :
    (s.reapZombie p addr j).ret =
      if s.storable p addr j then some (s.proc j).pid else some (-1) := by
  unfold reapZombie storable
  by_cases ha : addr = 0
  · simp [ha]
  · simp only [ha, if_false]
    split <;> simp_all

/-! ## The loop is what the processor does -/

theorem goto_goto (s : Kernel) (c : CpuId) (k k' : Pc) : (s.goto c k).goto c k' = s.goto c k' := by
  simp [goto, setCpu]

/-- Processor `c` gets from `s` to `s'` on its own. -/
def RunsAlone (c : CpuId) (s s' : Kernel) : Prop :=
  ∃ n, Lts.run step s (List.replicate n (c, .go)) = some s'

theorem RunsAlone.head {s₃ : Kernel} (h : step s₁ (c, .go) = some s₂) (h' : RunsAlone c s₂ s₃) :
    RunsAlone c s₁ s₃ := by
  obtain ⟨n, hn⟩ := h'
  exact ⟨n + 1, by simp [List.replicate_succ, Lts.run, h, hn]⟩

theorem RunsAlone.one (h : step s₁ (c, .go) = some s₂) : RunsAlone c s₁ s₂ :=
  RunsAlone.head h ⟨0, rfl⟩

section Scan

variable {sel : Sel} {addr : ℕ} {j : Slot} {hk : Bool}

section

variable (hcur : (s.cpus c).proc = some p)
include hcur

theorem step_scanHit (ht : sel.test p (s.proc j) = true) :
    step (s.goto c (.waitScan sel addr j hk)) (c, .go) =
      some (s.goto c (.waitVisit sel addr j)) := by
  simp [step, procStep, hcur, waitScan, forSlot, ht, goto_goto]

theorem step_scanNext (ht : sel.test p (s.proc j) = false) :
    step (s.goto c (.waitScan sel addr j hk)) (c, .go) =
      some (s.goto c (.waitScan sel addr (j + 1) hk)) := by
  simp [step, procStep, hcur, waitScan, forSlot, ht, goto_goto]

theorem step_visitNext (hl : (s.proc j).lock = none) (hz : (s.proc j).state ≠ .zombie) :
    step (s.goto c (.waitVisit sel addr j)) (c, .go) =
      some (s.goto c (.waitScan sel addr (j + 1) true)) := by
  simp [step, procStep, hcur, waitVisit, underLock, hl, hz, goto_goto]

theorem step_visitZombie (hl : (s.proc j).lock = none) (hz : (s.proc j).state = .zombie) :
    ∃ v, (s.reapZombie p addr j).ret = some v ∧
      step (s.goto c (.waitVisit sel addr j)) (c, .go) =
        some ((s.reapZombie p addr j).kernel.releaseWait c v) := by
  by_cases ha : addr = 0
  · refine ⟨(s.proc j).pid, by simp [reapZombie, ha], ?_⟩
    simp [step, procStep, hcur, waitVisit, underLock, hl, hz, reapZombie, ha, releaseWait, goto,
      setCpu, setProc]
  by_cases hc : ((s.umem p).copyout addr (intBytes (s.proc j).xstate)).2 = true
  · refine ⟨(s.proc j).pid, by simp [reapZombie, ha, hc], ?_⟩
    simp [step, procStep, hcur, waitVisit, underLock, hl, hz, reapZombie, ha, hc, releaseWait,
      goto, setCpu, setProc, setUmem]
  · refine ⟨-1, by simp [reapZombie, ha, hc], ?_⟩
    simp [step, procStep, hcur, waitVisit, underLock, hl, hz, reapZombie, ha, hc, releaseWait,
      goto, setCpu, setUmem]

/-- The end of the scan: the call fails if it has met no slot or the caller is
killed, and otherwise goes to sleep. -/
theorem scanEnd_alone (hl : (s.proc p).lock = none) {i : ℕ} (hi : NPROC ≤ i) :
    RunsAlone c (s.goto c (.waitScan sel addr i hk))
      (if hk = false ∨ (s.proc p).killed = true then s.releaseWait c (-1)
        else s.switchOut c p { s.proc p with chan := some (.proc p), state := .sleeping }
          (.sleepRet .wait (.waitScan sel addr 0 false)) none) := by
  have hlt : ¬ i < NPROC := by omega
  cases hk with
  | false =>
    refine RunsAlone.one ?_
    simp [step, procStep, hcur, waitScan, forSlot, hlt, releaseWait, goto, setCpu]
  | true =>
    have hkilled : step (s.goto c (.waitScan sel addr i true)) (c, .go) =
        some (s.goto c (.waitKilled sel addr)) := by
      simp [step, procStep, hcur, waitScan, forSlot, hlt, goto_goto]
    refine RunsAlone.head hkilled ?_
    by_cases hkill : (s.proc p).killed = true
    · rw [if_pos (.inr hkill)]
      refine RunsAlone.one ?_
      simp [step, procStep, hcur, waitKilled, underLock, hl, hkill, releaseWait, goto, setCpu]
    · rw [if_neg (by simpa using hkill)]
      have hsleep : step (s.goto c (.waitKilled sel addr)) (c, .go) =
          some (s.goto c (.waitSleep sel addr)) := by
        simp [step, procStep, hcur, waitKilled, underLock, hl, hkill, goto_goto]
      refine RunsAlone.head hsleep (RunsAlone.one ?_)
      simp [step, procStep, hcur, waitSleep, sleep, underLock, hl, sched, releaseLk,
        switchOut, goto, setCpu, setProc]

end

/-- The state of the kernel when the call returns or goes to sleep. -/
def waitDone (s : Kernel) (c : CpuId) (p : Slot) (sel : Sel) (addr : ℕ) (r : WaitResult) :
    Kernel :=
  match r.ret with
  | some v => r.kernel.releaseWait c v
  | none =>
    s.switchOut c p { s.proc p with chan := some (.proc p), state := .sleeping }
      (.sleepRet .wait (.waitScan sel addr 0 false)) none

theorem drop_finRange (j : Slot) :
    (List.finRange NPROC).drop j = j :: (List.finRange NPROC).drop (j + 1) := by
  rw [List.drop_eq_getElem_cons (by simp), List.getElem_finRange]
  rfl

/-- **A processor that is left alone executes the loop.** -/
theorem run_waitScanAll (hcur : (s.cpus c).proc = some p) (hl : ∀ j, (s.proc j).lock = none)
    (i : ℕ) (hk : Bool) :
    RunsAlone c (s.goto c (.waitScan sel addr i hk))
      (s.waitDone c p sel addr (s.waitScanAll p sel addr ((List.finRange NPROC).drop i) hk)) := by
  by_cases hi : i < NPROC
  swap
  · have h : RunsAlone c (s.goto c (.waitScan sel addr i hk)) _ :=
      scanEnd_alone hcur (hl p) (not_lt.mp hi)
    rw [List.drop_eq_nil_of_le (by simpa using not_lt.mp hi), waitScanAll, waitDone]
    split at h
    · next hc => simpa only [if_pos hc] using h
    · next hc => simpa only [if_neg hc] using h
  -- one turn of the loop, at slot `i`
  obtain ⟨j, rfl⟩ : ∃ j : Slot, (j : ℕ) = i := ⟨⟨i, hi⟩, rfl⟩
  rw [drop_finRange, waitScanAll]
  by_cases ht : sel.test p (s.proc j) = true
  · rw [if_pos ht]
    refine RunsAlone.head (step_scanHit hcur ht) ?_
    by_cases hz : (s.proc j).state = .zombie
    · rw [if_pos hz]
      obtain ⟨v, hv, hstep⟩ := step_visitZombie hcur (hl j) hz
      rw [waitDone, hv]
      exact RunsAlone.one hstep
    · rw [if_neg hz]
      exact RunsAlone.head (step_visitNext hcur (hl j) hz) (run_waitScanAll hcur hl _ true)
  · rw [if_neg ht]
    exact RunsAlone.head (step_scanNext hcur (by simpa using ht)) (run_waitScanAll hcur hl _ hk)
termination_by NPROC - i

end Scan

/-- **A call of `wait` or `waitpid` that is left alone** and finds the locks free does what the
loop says, from its acquire of `wait_lock` until it returns or sleeps. -/
theorem wait_alone (hcur : (s.cpus c).proc = some p) (hl : ∀ j, (s.proc j).lock = none)
    (hw : s.waitLock = none) (sel : Sel) (addr : ℕ) :
    RunsAlone c (s.goto c (.waitAcquire sel addr))
      (waitDone { s with waitLock := some c } c p sel addr
        ({ s with waitLock := some c }.waitScanAll p sel addr (List.finRange NPROC) false)) := by
  refine RunsAlone.head ?_ (run_waitScanAll (s := { s with waitLock := some c }) hcur hl 0 false)
  simp [step, procStep, hcur, acquireWait, hw, goto, setCpu]

/-- The theorem at work: the parent reaps its child. -/
theorem wait_alone_reaps : ∃ s s' : Kernel, (s.proc 1).state = .zombie ∧
    RunsAlone 0 (s.goto 0 (.waitAcquire .children 0)) s' ∧ (s'.proc 1).state = .unused := by
  obtain ⟨s, -, hz, hcur, hl, hw, hdone⟩ : ∃ s ∈ Lts.run step (boot 0 AddrSpace.empty)
      (forkChild ++ runChild 1 ++ exitChild 7 ++ [(1, .go)]), (s.proc 1).state = .zombie ∧
      (s.cpus 0).proc = some 0 ∧ (∀ j, (s.proc j).lock = none) ∧ s.waitLock = none ∧
      ((waitDone { s with waitLock := some 0 } 0 0 .children 0
        ({ s with waitLock := some 0 }.waitScanAll 0 .children 0
          (List.finRange NPROC) false)).proc 1).state = .unused := by decide +kernel
  exact ⟨s, _, hz, wait_alone hcur hl hw .children 0, hdone⟩

/-! ## Children only -/

/-- The first zombie that has the given pid. -/
def zombieWithPid (s : Kernel) (pid : ℤ) : Option Slot :=
  (List.finRange NPROC).find?
    (fun j => decide ((s.proc j).pid = pid) && decide ((s.proc j).state = .zombie))

/-- What a call of `waitpid` does, in terms of the table. -/
theorem waitpid_eq (s : Kernel) (p : Slot) (pid : ℤ) (addr : ℕ) :
    s.waitpid p pid addr = match s.zombieWithPid pid with
      | some z => s.reapZombie p addr z
      | none => ⟨s, if (∀ j, (s.proc j).pid ≠ pid) ∨ (s.proc p).killed = true then some (-1)
          else none⟩ := by
  rw [waitpid, waitScanAll_eq]
  have hfind : s.firstZombie p (.pid pid) (List.finRange NPROC) = s.zombieWithPid pid := by
    simp [firstZombie, zombieWithPid, Sel.test, beq_eq_decide]
  rw [hfind]
  cases s.zombieWithPid pid with
  | some => rfl
  | none => simp [Sel.test]

/-- **When `waitpid` is about children only.** A call reaps nobody but a child
of the caller, and fails at once without touching the table when the caller
has no child with that pid, exactly if

* the zombie with that pid, if there is one, is a child of the caller, or its
  status cannot be stored;
* if there is none, then no slot has that pid, or the caller is killed, or some
  slot with that pid is a child of the caller. -/
theorem waitpid_children_iff (s : Kernel) (p : Slot) (pid : ℤ) (addr : ℕ) :
    ((∀ j, (s.waitpid p pid addr).kernel.proc j ≠ s.proc j → (s.proc j).parent = some p) ∧
      ((∀ j, (s.proc j).parent = some p → (s.proc j).pid ≠ pid) →
        (s.waitpid p pid addr).ret = some (-1) ∧ (s.waitpid p pid addr).kernel.proc = s.proc)) ↔
    match s.zombieWithPid pid with
    | some z => (s.proc z).parent = some p ∨ s.storable p addr z = false
    | none => (∀ j, (s.proc j).pid ≠ pid) ∨ (s.proc p).killed = true ∨
        ∃ j, (s.proc j).pid = pid ∧ (s.proc j).parent = some p := by
  rw [waitpid_eq]
  cases hz : s.zombieWithPid pid with
  | some z =>
    have hfound := List.find?_some hz
    simp only [Bool.and_eq_true, decide_eq_true_eq] at hfound
    obtain ⟨hpid, hzombie⟩ := hfound
    simp only [reapZombie_proc, reapZombie_ret]
    by_cases hst : s.storable p addr z = true
    · simp only [hst, if_true, Bool.true_eq_false, or_false]
      constructor
      · intro h
        refine h.1 z fun he => ?_
        have hstate := congrArg Proc.state he
        rw [Function.update_self, hzombie] at hstate
        cases hstate
      · intro hpar
        refine ⟨fun j hj => ?_, fun hno => absurd hpid (hno z hpar)⟩
        by_cases he : j = z
        · rw [he]
          exact hpar
        · exact absurd (Function.update_of_ne he _ _) hj
    · simp [hst]
  | none =>
    simp only [ne_eq, not_true_eq_false, false_implies, implies_true, true_and, and_true]
    constructor
    · intro h
      by_cases hchild : ∃ j, (s.proc j).pid = pid ∧ (s.proc j).parent = some p
      · exact .inr (.inr hchild)
      · have hret := h (fun j hpar hpid => hchild ⟨j, hpid, hpar⟩)
        split_ifs at hret with hc
        exact hc.imp_right .inl
    · rintro (hno | hkill | ⟨j, hpid, hpar⟩) hnone
      · rw [if_pos (.inl hno)]
      · rw [if_pos (.inr hkill)]
      · exact absurd hpid (hnone j hpar)

/-- **`waitpid` reaps a sibling, and sleeps when asked for pid 0.** The first
process has two children; one exits, and the other one waits for it. A call
with pid 0 takes the free slots for running children. -/
theorem waitpid_not_children :
    (∃ s, Lts.Runs step (fun _ _ => True) (boot 0 AddrSpace.empty) s ∧
      (s.proc 1).parent = some 0 ∧ (s.proc 1).state = .zombie ∧
      (s.waitpid 2 2 0).ret = some 2 ∧
      ((s.waitpid 2 2 0).kernel.proc 1).state = .unused) ∧
    ∃ s, Lts.Runs step (fun _ _ => True) (boot 0 AddrSpace.empty) s ∧
      (∀ j, (s.proc j).parent = some 0 → (s.proc j).pid ≠ 0) ∧
      (s.waitpid 0 0 0).ret = none := by
  constructor
  · exact Lts.exists_runs (forkChild ++
      [(0, .call .fork), (0, .go), (0, .go), (0, .go), (0, .go), (0, .go)] ++ runChild 1 ++
      exitChild 7) (by decide +kernel)
  · exact Lts.exists_runs forkChild (by decide +kernel)

end Kernel

end Xv6
