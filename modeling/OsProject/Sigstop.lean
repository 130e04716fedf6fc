import OsProject.Zombie

/-!
# Stopping a process

`sigstop` has no state of its own to put a process into: it writes `SLEEPING`,
the state of a process that waits for an event. A stopped process therefore
stays stopped only as long as nothing happens that ends a sleep or writes the
state of a process in another way.

There are four such writers. `kill` and `sigcont` are meant to end the stop. A
`wakeup` on the channel recorded in the slot ends it too, whether the process
was asleep when it was stopped or runnable with its old channel still there.
The creator of the process ends it with its last assignment. And a process that
is executing when it is stopped overwrites the mark itself, at the next clock
tick. Without these, the stop holds, in any continuation and from any state.
-/

namespace Xv6

open AddrSpace Lts

namespace Kernel

variable {s s' : Kernel} {c : CpuId} {p t : Slot} {a : Act}

/-- The slot that `wakeup` is about to make runnable. -/
def wakeTarget (s : Kernel) (l : Label) : Option Slot :=
  match (s.cpus l.1).pc with
  | .wakeup chan i _ =>
    if h : i < NPROC then
      if (s.proc ⟨i, h⟩).state = .sleeping ∧ (s.proc ⟨i, h⟩).chan = chan then some ⟨i, h⟩
      else none
    else none
  | _ => none

/-- The slot whose creation ends in this step, with or without success. -/
def createTarget (s : Kernel) (l : Label) : Option Slot :=
  match (s.cpus l.1).pc, l.2 with
  | .setRunnable np _ _, .go | .spawnBad np, .go => some np
  | _, _ => none

/-- The step delivers neither `kill` nor `sigcont` to slot `t`. -/
def Unsignalled (t : Slot) (s : Kernel) (l : Label) : Prop :=
  s.signalTarget l ≠ some (.kill, t) ∧ s.signalTarget l ≠ some (.sigcont, t)

/-- Nor does it wake `t` or end its creation. -/
def LeavesStopped (t : Slot) (s : Kernel) (l : Label) : Prop :=
  Unsignalled t s l ∧ s.wakeTarget l ≠ some t ∧ s.createTarget l ≠ some t

instance (t : Slot) (s : Kernel) (l : Label) : Decidable (Unsignalled t s l) :=
  inferInstanceAs (Decidable (_ ∧ _))

instance (t : Slot) (s : Kernel) (l : Label) : Decidable (LeavesStopped t s l) :=
  inferInstanceAs (Decidable (_ ∧ _))

/-- Process `t` is off the processors and marked `SLEEPING`. -/
def Stopped (t : Slot) (s : Kernel) : Prop :=
  (s.proc t).state = .sleeping ∧ ∀ c, (s.cpus c).proc ≠ some t

/-- A step that neither writes the state of `t` nor makes it current. -/
theorem Stopped.of_eq (h : Stopped t s) (hs : (s'.proc t).state = (s.proc t).state)
    (hc : ∀ c, (s'.cpus c).proc = (s.cpus c).proc) : Stopped t s' :=
  ⟨hs.trans h.1, fun c => hc c ▸ h.2 c⟩

/-- A section of another process that writes one slot. -/
theorem Touch.stopped {k : Pc} {j : Slot} {P : Proc} {k' : Pc} (h : Touch s p k j P k')
    (hpc : (s.cpus c).pc = k) (hok : LeavesStopped t s (c, .go))
    (ht : (s.proc t).state = .sleeping) : ((s.setProc j P).proc t).state = .sleeping := by
  by_cases hj : t = j
  swap
  · simpa [hj] using ht
  subst hj
  rw [setProc_proc, Function.update_self]
  cases h with
  | signal sig pid j hl hp =>
    have htgt := signalTarget_eq hpc hp
    cases sig with
    | sigstop => rfl
    | kill => exact absurd htgt hok.1.1
    | sigcont => exact absurd htgt hok.1.2
  | setRunnable | spawnBad => exact absurd (by simp [createTarget, hpc]) hok.2.2
  | _ => exact ht

/-- **A step that is none of the four keeps a process stopped.** -/
theorem Stopped.step (hs : Stopped t s) (hok : LeavesStopped t s (c, a))
    (h : Step s c a s') : Stopped t s' := by
  have hne : ∀ {c p}, (s.cpus c).proc = some p → t ≠ p := by
    rintro c p hc rfl
    exact hs.2 c hc
  -- all but two of the steps move processor `c` and no other
  have hgoto : ∀ (k : Pc) c', (Function.update s.cpus c { s.cpus c with pc := k } c').proc =
      (s.cpus c').proc := fun k => update_keeps Cpu.proc rfl
  cases h with
  | schedule | intr | wakeNext | wakeEnd | reacquire => exact hs.of_eq rfl (hgoto _)
  | dispatch j f hpc hl hr =>
    have hj : t ≠ j := by
      rintro rfl
      simp [hs.1] at hr
    refine ⟨by simpa [hj] using hs.1, fun c' => ?_⟩
    by_cases hc : c' = c
    · subst hc
      simpa using fun h : j = t => hj h.symm
    · simpa [hc] using hs.2 c'
  | back =>
    refine ⟨?_, fun c' => ?_⟩
    · rw [setCpu_proc, setProc_proc, update_keeps Proc.state (by rfl) t]
      exact hs.1
    · by_cases hc : c' = c
      · subst hc
        simp
      · simpa [hc] using hs.2 c'
  | wakeOne ch j k hpc hl hsl hch =>
    have hj : t ≠ j := by
      rintro rfl
      refine hok.2.1 ?_
      simp [wakeTarget, hpc, hsl, hch]
    exact hs.of_eq (by simp [hj]) (hgoto _)
  | yield p hcur | block p x hcur =>
    exact hs.of_eq (by simp [switchOut, hne hcur]) (hgoto _)
  | resume p k₀ k hcur | sleepRet p lk k hcur =>
    exact hs.of_eq (by simp [hne hcur]) (hgoto _)
  | work s' p k k' hcur hpc h =>
    have hp := hne hcur
    cases h with
    | touch k j P k' ha h =>
      subst ha
      exact hs.of_eq ((h.stopped hpc hok hs.1).trans hs.1.symm) (hgoto _)
    | own => exact hs.of_eq (by simp [Kernel.own, hp]) (hgoto _)
    | allocFail j cr hl hu | fork j hl hu | spawn j hl hu =>
      have hj : t ≠ j := by
        rintro rfl
        simp [hs.1] at hu
      exact hs.of_eq (by simp [hj]) (hgoto _)
    | reap sel addr j hl hz =>
      have hj : t ≠ j := by
        rintro rfl
        simp [hs.1] at hz
      exact hs.of_eq (by simp [releaseWait, hj]) (hgoto _)
    | waitSleep | exitZombie =>
      exact hs.of_eq (by simp [switchOut, hp]) (hgoto _)
    | _ => exact hs.of_eq rfl (hgoto _)

/-- Where a signal is delivered. -/
theorem signalTarget_inv {l : Label} {sig : Signal} (h : s.signalTarget l = some (sig, t)) :
    l.2 = .go ∧ ∃ pid, (s.cpus l.1).pc = .signal sig pid t ∧ (s.proc t).pid = pid := by
  unfold signalTarget at h
  split at h
  · next sig' pid i hpc ha =>
    split at h
    · split at h
      · next hp =>
        cases h
        exact ⟨ha, pid, hpc, hp⟩
      · cases h
    · cases h
  · cases h

/-- The section of `sigstop` that finds its process. -/
theorem step_sigstop (hstop : s.signalTarget (c, .go) = some (.sigstop, t))
    (hs : step s (c, .go) = some s') :
    s' = (s.setProc t { s.proc t with state := .sleeping }).goto c (.ret 0) := by
  obtain ⟨-, _, hpc, hp⟩ := signalTarget_inv hstop
  simp only [step, hpc] at hs
  obtain ⟨_, -, hs⟩ := Option.bind_eq_some_iff.mp hs
  simp only [procStep, signal] at hs
  rcases forSlot_eq_some.mp hs with ⟨_, hj, hb⟩ | ⟨hn, -⟩
  · obtain ⟨-, hb⟩ := underLock_eq_some.mp hb
    rw [← Fin.ext hj, if_pos hp, Option.some.injEq] at hb
    exact hb.symm
  · exact absurd t.isLt (by omega)

/-- **A process that is off the processors when `sigstop` finds it is not run
again**, whatever happens, until a `kill`, a `sigcont`, a `wakeup` on its
channel or the end of its creation. -/
theorem sigstop_holds (hstop : s.signalTarget (c, .go) = some (.sigstop, t))
    (hoff : ∀ c', (s.cpus c').proc ≠ some t) (hs : step s (c, .go) = some s') :
    (s'.cpus c).pc = .ret 0 ∧ ∀ s'', Lts.Runs step (LeavesStopped t) s' s'' →
        (s''.proc t).state = .sleeping ∧ ∀ c', (s''.cpus c').proc ≠ some t := by
  have hs' := step_sigstop hstop hs
  subst hs'
  refine ⟨by simp, fun s'' hrun => ?_⟩
  refine hrun.invariant (I := Stopped t) ⟨by simp, fun c' => ?_⟩
    (fun s₁ l s₂ hst hok h => hst.step hok (step_cases h))
  rw [goto_cpus, update_keeps Cpu.proc (by rfl) c']
  exact hoff c'

/-- The theorem at work on a child that is stopped while it is `RUNNABLE`: four
scans of the table by another processor do not pick it. -/
theorem sigstop_holds_runnable : ∃ s s' s'', Lts.Runs step (fun _ _ => True) (boot 0 empty) s ∧
      (s.proc 1).state = .runnable ∧ step s (0, .go) = some s' ∧ (s'.cpus 0).pc = .ret 0 ∧
      runIf step (LeavesStopped 1) s' (List.replicate 260 (1, .go)) = some s'' ∧
      (s''.proc 1).state = .sleeping ∧ ∀ c, (s''.cpus c).proc ≠ some 1 := by
  obtain ⟨s, hrun, hr, hstop, hoff, s', hs', s'', hs'', -⟩ : ∃ s ∈ run step (boot 0 empty)
      (forkChild ++ (callOnSlot1 (.sigstop 2)).take 2), (s.proc 1).state = .runnable ∧
      s.signalTarget (0, .go) = some (.sigstop, 1) ∧ (∀ c, (s.cpus c).proc ≠ some 1) ∧
      ∃ s' ∈ step s (0, .go),
        ∃ s'' ∈ runIf step (LeavesStopped 1) s' (List.replicate 260 (1, .go)), True := by
    decide +kernel
  have h := sigstop_holds hstop hoff hs'
  exact ⟨s, s', s'', runs_of_run hrun, hr, hs', h.1, hs'', h.2 s'' (runs_of_runIf hs'')⟩

/-- **A stopped process runs again without `kill` or `sigcont`**: when the event
it was waiting for arrives, when it was executing and the clock ticks, and when
the `spawn` that creates it is done. In each case `sigstop` has returned 0. -/
theorem sigstop_undone : (∃ s₁ s₂ s₃, Lts.Runs step (fun _ _ => True) (boot 0 empty) s₁ ∧
      (s₁.proc 1).state = .sleeping ∧ (∀ c, (s₁.cpus c).proc ≠ some 1) ∧
      run step s₁ (callOnSlot1 (.sigstop 2)) = some s₂ ∧
      (s₂.proc 0).trapframe.map (fun tf => tf .a0) = some 0 ∧ runIf step (Unsignalled 1) s₂
        [(3, .intr 5), (3, .go), (3, .go), (2, .go), (2, .go)] = some s₃ ∧
      (s₃.proc 1).state = .running ∧ (s₃.cpus 2).proc = some 1) ∧
    (∃ s₁ s₂ s₃ s₄, Lts.Runs step (fun _ _ => True) (boot 0 empty) s₁ ∧
      (s₁.proc 1).state = .running ∧ run step s₁ (callOnSlot1 (.sigstop 2)) = some s₂ ∧
      (s₂.proc 0).trapframe.map (fun tf => tf .a0) = some 0 ∧
      runIf step (Unsignalled 1) s₂ [(1, .timer), (1, .go)] = some s₃ ∧
      (∀ c, (s₃.cpus c).proc ≠ some 1) ∧
      runIf step (Unsignalled 1) s₃ [(2, .go), (2, .go)] = some s₄ ∧
      (s₄.proc 1).state = .running ∧ (s₄.cpus 2).proc = some 1) ∧
    ∃ s₁ s₂ s₃, Lts.Runs step (fun _ _ => True) (boot 0 empty) s₁ ∧ (s₁.proc 2).state = .used ∧
      run step s₁ [(1, .call (.sigstop 3)), (1, .go), (1, .go), (1, .go), (1, .go)] = some s₂ ∧
      (s₂.proc 1).trapframe.map (fun tf => tf .a0) = some 0 ∧ runIf step (Unsignalled 2) s₂
        [(0, .loaded ⟨empty, 0, 0, 0, 0⟩), (0, .go), (0, .go), (0, .go), (0, .go),
          (2, .go), (2, .go), (2, .go)] = some s₃ ∧
      (s₃.proc 2).state = .running ∧ (s₃.cpus 2).proc = some 2 := by
  -- each state is found by executing from the one before it
  simp only [exists_and_left, ← Option.mem_def]
  refine ⟨exists_runs (forkChild ++ runChild 1 ++ [(1, .block 5), (1, .go)]) ?_,
    exists_runs (forkChild ++ runChild 1) ?_,
    exists_runs (forkChild ++ runChild 1 ++ [(0, .call .spawn), (0, .go), (0, .go), (0, .go)]) ?_⟩
  all_goals decide +kernel

end Kernel

end Xv6
