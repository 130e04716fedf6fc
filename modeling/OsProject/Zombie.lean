import OsProject.Creation

/-!
# Zombies

A process that has exited keeps its slot, its pid and its exit status until
somebody waits for it. Nothing the scheduler does can bring it back, since the
scheduler picks `RUNNABLE` processes only and the code that makes one runnable
tests for `SLEEPING`. The lookups by pid do find it: `kill` and `sigcont` leave
its state alone, `sigstop` does not.

So a zombie stays what it is, with its status, until a section of `wait` or
`waitpid` frees the slot – provided `sigstop` is only ever applied to a process
that is asleep or runnable. On a zombie it makes a sleeper, whose saved context
is the last line of `exit`.
-/

namespace Xv6

/-- The message with which a processor has panicked, if it has. -/
def Pc.panic : Pc → Option Panic
  | .panicked msg => some msg
  | _ => none

namespace Kernel

variable {s s' : Kernel} {c : CpuId} {p j : Slot} {a : Act} {l : Label} {k' k : Pc}

/-- The states of a process that is alive and not executed. -/
abbrev inactive : List ProcState := [.sleeping, .runnable]

/-- A condition that admits fewer states is stronger. -/
theorem StopsOnly.mono {A B : List ProcState} (hAB : A ⊆ B) (h : StopsOnly A s l) :
    StopsOnly B s l :=
  fun j hj => hAB (h j hj)

theorem StopsOnly.stoppable (h : StopsOnly inactive s l) : StopsOnly stoppable s l :=
  h.mono (by simp)

/-- **What a section makes of a zombie**: it stays one and keeps its status,
or is reaped, or `sigstop` hits it. -/
theorem Section.zombie (I : Inv s) (h : Section s c a p k k' s') (hz : (s.proc j).state = .zombie) :
    (s'.proc j).state = .zombie ∧ (s'.proc j).xstate = (s.proc j).xstate ∨
      (∃ sel addr, k = .waitVisit sel addr j ∧ s'.proc j = (s.proc j).freeproc) ∨
      ∃ pid, k = .signal .sigstop pid j ∧ a = .go ∧ (s.proc j).pid = pid := by
  have hp : j ≠ p := by
    rintro rfl
    simp [h.running I.sched] at hz
  have hk : k.newProc ≠ some j := fun hk => by simp [h.used I hk] at hz
  cases h.work.write j with
  | same k k' hP => exact .inl (by rw [hP]; exact ⟨hz, rfl⟩)
  | touch k k' P ha ht hP =>
    rw [hP]
    cases ht with
    | signal sig pid j hl hp =>
      cases sig with
      | sigstop => exact .inr (.inr ⟨pid, rfl, ha, hp⟩)
      | kill | sigcont => exact .inl (by simp [Signal.body, hz])
    | reparent => exact .inl ⟨hz, rfl⟩
    | setkilled | sysret | exitFiles | exitCwd => exact absurd rfl hp
    | spawnTrapframe | spawnFiles | spawnBad | setParent | setRunnable => exact absurd rfl hk
  | reap sel addr hzj hP => exact .inr (.inl ⟨sel, addr, rfl, hP⟩)
  | allocFail cr hu | fork hu | spawn hu => simp [hz] at hu
  | own u hj | waitSleep sel addr k' c hj | exitZombie st c hj => exact absurd hj hp

/-- A section does not bring a zombie back to life. -/
theorem Section.zombie_not_live (I : Inv s) (hok : StopsOnly inactive s (c, a))
    (h : Section s c a p k k' s') (hz : (s.proc j).state = .zombie) :
    (s'.proc j).state.phase ≠ .live := by
  rcases h.zombie I hz with hz' | ⟨sel, addr, -, hf⟩ | ⟨pid, rfl, rfl, hp⟩
  · simp [hz'.1, ProcState.phase]
  · simp [hf, Proc.freeproc, ProcState.phase]
  · have hmem := StopsOnly.state_mem hok h.pc hp
    simp [hz] at hmem

/-- One step of a zombie's life. -/
theorem Inv.zombie_step (I : Inv s) (hok : StopsOnly inactive s l) (h : Kernel.step s l = some s')
    (hz : (s.proc j).state = .zombie) :
    (s'.proc j).state = .zombie ∧ (s'.proc j).xstate = (s.proc j).xstate ∨
      ∃ sel addr, (s.cpus l.1).pc = .waitVisit sel addr j ∧ s'.proc j = (s.proc j).freeproc := by
  rcases (step_cases h).silent_or_work I.sched with hsil | ⟨p, k, k', hw⟩
  · exact .inl ⟨(hsil.state_iff (by decide)).mpr hz, congrArg Data.xstate (hsil.data j)⟩
  · rcases hw.zombie I hz with h | ⟨sel, addr, hk, hfree⟩ | ⟨pid, hk, ha, hp⟩
    · exact .inl h
    · exact .inr ⟨sel, addr, hk ▸ hw.pc, hfree⟩
    · obtain ⟨c, a⟩ := l
      subst ha
      have hmem := StopsOnly.state_mem hok (hk ▸ hw.pc) hp
      simp [hz] at hmem

/-! ## The last line of `exit` -/

/-- No thread is at the last line of `exit`. -/
def NoZombieExit (s : Kernel) : Prop :=
  ∀ q k, Thread s.proc s.cpus q k → k.base ≠ .zombieExit ∧ k.base ≠ .panicked .zombieExit

theorem NoZombieExit.work (Z : NoZombieExit s) (I : Inv s) (I' : Inv s')
    (hok : StopsOnly inactive s (c, a)) (h : Section s c a p k k' s') : NoZombieExit s' := by
  intro q k₂ ht
  have hlive := I'.sched.thread_live ht
  have hme := h.thread_self
  rcases h.threads I hok.stoppable ht with ⟨rfl, rfl⟩ | ⟨-, ht | ⟨-, rfl⟩ | ⟨hs, -⟩⟩
  · cases h.work with
    | move k k' ha hm =>
      cases hm with
      | panicZombie => exact absurd rfl (Z q _ hme).1
      | _ => simp [Pc.base]
    | touch k j P k' ha hu => cases hu <;> simp [Pc.base]
    | acquire k k' ha => cases ha <;> simp [Pc.base]
    | exitZombie =>
      -- the thread has ended: its process is a zombie now
      simp [switchOut, ProcState.phase] at hlive
    | _ => simp [Pc.base]
  · exact Z q k₂ ht
  · simp [Pc.base]
  · exact absurd hlive (h.zombie_not_live I hok hs)

theorem NoZombieExit.of_runs {root : ℕ} {init : AddrSpace}
    (h : Lts.Runs step (StopsOnly inactive) (boot root init) s) : NoZombieExit s := by
  refine Inv.rule h (fun _ _ ho => ho.stoppable) ?_ ?_ ?_
  · rintro q k (⟨c, hc, -⟩ | ⟨-, rfl⟩)
    · cases hc
    · rw [boot_context]
      simp
  · intro s s' _ Z hs q k' ht
    obtain ⟨k, ht, hb⟩ := hs.thread q k' ht
    rw [← hb]
    exact Z q k ht
  · exact fun s s' c a p k k' I I' Z ho hw => Z.work I I' ho hw

/-! ## The life of a zombie -/

/-- **In a run in which `sigstop` only ever hits a process that is asleep or
runnable, a zombie stays a zombie with its exit status until `wait` or
`waitpid` frees its slot, is executed by no processor, and `exit` never
returns from its last call of `sched`.** -/
theorem zombie_until_reaped {root : ℕ} {init : AddrSpace}
    (h : Lts.Runs step (StopsOnly inactive) (boot root init) s) :
    (∀ c, (s.cpus c).pc ≠ .zombieExit ∧ (s.cpus c).pc ≠ .panicked .zombieExit) ∧
    ∀ j, (s.proc j).state = .zombie →
      (∀ c, (s.cpus c).proc = some j → (s.cpus c).pc = .schedulerBack j) ∧
      ∀ s', Lts.Runs step (StopsOnly inactive) s s' →
        (s'.proc j).state = .zombie ∧ (s'.proc j).xstate = (s.proc j).xstate ∨
        ∃ s₁ l s₂ sel addr, Lts.Runs step (StopsOnly inactive) s s₁ ∧
          (s₁.proc j).state = .zombie ∧ (s₁.proc j).xstate = (s.proc j).xstate ∧
          step s₁ l = some s₂ ∧ (s₁.cpus l.1).pc = .waitVisit sel addr j ∧
          s₂.proc j = (s₁.proc j).freeproc ∧ Lts.Runs step (StopsOnly inactive) s₂ s' := by
  have I := Inv.of_runs (h.mono (fun _ _ ho => ho.stoppable))
  have Z := NoZombieExit.of_runs h
  refine ⟨fun c => ?_, fun j hz => ⟨fun c hc => ?_, fun s' h' => ?_⟩⟩
  · have hcode : ∀ k, (s.cpus c).pc = k → k.mode = .locked →
        k.base ≠ .zombieExit ∧ k.base ≠ .panicked .zombieExit := by
      rintro k rfl hm
      obtain ⟨q, hq, -⟩ := I.sched.code c (.inr hm)
      exact Z q _ (thread_of_current hq (.inr hm))
    exact ⟨fun hk => (hcode _ hk rfl).1 rfl, fun hk => (hcode _ hk rfl).2 rfl⟩
  · refine Pc.eq_of_mode_back ?_
    by_contra hne
    simp [I.sched.running c j hc hne] at hz
  · -- follow the zombie through the run, up to the section that frees it
    have hstep : ∀ s₁ l s₂, Lts.Runs step (StopsOnly inactive) s s₁ →
        ((s₁.proc j).state = .zombie ∧ (s₁.proc j).xstate = (s.proc j).xstate) →
        StopsOnly inactive s₁ l → step s₁ l = some s₂ →
        ((s₂.proc j).state = .zombie ∧ (s₂.proc j).xstate = (s.proc j).xstate) ∨
          ∃ sel addr, (s₁.cpus l.1).pc = .waitVisit sel addr j ∧
            s₂.proc j = (s₁.proc j).freeproc := by
      intro s₁ l s₂ h₁ hP hok hs
      have I₁ := Inv.of_runs ((h.trans h₁).mono (fun _ _ ho => ho.stoppable))
      exact (I₁.zombie_step hok hs hP.1).imp_left fun hz => ⟨hz.1, hz.2.trans hP.2⟩
    rcases h'.stays_until ⟨hz, rfl⟩ hstep with hP | ⟨s₁, l, s₂, h₁, hP, -, hs, hQ, h₂⟩
    · exact .inl hP
    · obtain ⟨sel, addr, hpc, hf⟩ := hQ
      exact .inr ⟨s₁, l, s₂, sel, addr, h₁, hP.1, hP.2, hs, hpc, hf, h₂⟩

/-- The child of `forkChild`, running on processor 1, exits with `status`. -/
def exitChild (status : ℤ) : List Label :=
  (1, .call (.exit status)) :: List.replicate 135 (1, .go)

/-- The theorem at work on a child that has exited with status 7. -/
theorem zombie_until_reaped_child :
    ∃ s, Lts.Runs step (StopsOnly inactive) (boot 0 AddrSpace.empty) s ∧
      (s.proc 1).state = .zombie ∧ (s.proc 1).xstate = 7 ∧
      (∀ c, (s.cpus c).pc ≠ .panicked .zombieExit) ∧ ∀ s', Lts.Runs step (StopsOnly inactive) s s' →
        (s'.proc 1).state = .zombie ∧ (s'.proc 1).xstate = 7 ∨
        ∃ s₂, (s₂.proc 1).state = .unused ∧ Lts.Runs step (StopsOnly inactive) s₂ s' := by
  obtain ⟨s, hrun, hz, hx⟩ : ∃ s ∈ Lts.runIf step (StopsOnly inactive) (boot 0 AddrSpace.empty)
      (forkChild ++ runChild 1 ++ exitChild 7),
      (s.proc 1).state = .zombie ∧ (s.proc 1).xstate = 7 := by decide +kernel
  replace hrun := Lts.runs_of_runIf hrun
  have h := zombie_until_reaped hrun
  refine ⟨s, hrun, hz, hx, fun c => (h.1 c).2, fun s' h' => ?_⟩
  rcases (h.2 1 hz).2 s' h' with ⟨hz', hx'⟩ | ⟨s₁, l, s₂, sel, addr, -, -, -, -, -, hf, h₂⟩
  · exact .inl ⟨hz', hx'.trans hx⟩
  · exact .inr ⟨s₂, by rw [hf]; rfl, h₂⟩

/-- **`sigstop` of a zombie** makes it `SLEEPING` without freeing it, and after
a `sigcont` a processor runs it into the panic of `exit`. -/
theorem sigstop_zombie_panics :
    ∃ s₁ s₂ s₃, Lts.Runs step (fun _ _ => True) (boot 0 AddrSpace.empty) s₁ ∧
      (s₁.proc 1).state = .zombie ∧
      Lts.run step s₁ (callOnSlot1 (.sigstop 2)) = some s₂ ∧ (s₂.proc 1).state = .sleeping ∧
      Lts.run step s₂ (callOnSlot1 (.sigcont 2) ++ runChild 2) = some s₃ ∧
      (s₃.cpus 2).pc.panic = some .zombieExit := by
  simp only [exists_and_left, ← Option.mem_def]
  refine Lts.exists_runs (forkChild ++ runChild 1 ++ exitChild 7) ?_
  decide +kernel

end Kernel

end Xv6
