import OsProject.SlotData
import OsProject.Zombie

/-!
# Free slots

`allocproc` clears nothing: the fields of a new process that its creator does
not set are those of the free slot. Three functions see to it that they are
zero. `freeproc` clears most fields, `exit` has closed the descriptors and
dropped the directory before (`DataInv`), and a slot that was never used is
zero from the start.

What remains is that nobody writes a free slot. Only lookups by pid could, and
a free slot has pid 0. `sys_sigstop` and `sys_sigcont` refuse that pid,
`sys_kill` does not, so `kill(0)` marks the first free slot as killed. All
other fields are zero in any run (`BlankInv`); the mark is not set as long as
`kill` finds processes only.

The same analysis shows that the pids of the slots in use are positive and
pairwise different (`PidInv`), and that a pid is never handed out twice, so it
names one process, whose life goes one way (`pid_names_process`).
-/

namespace Xv6

/-- What `freeproc` leaves in a slot, the mark of `kill` and what `exit` clears
apart. -/
structure Proc.Blank (P : Proc) : Prop where
  pid : P.pid = 0
  chan : P.chan = none
  xstate : P.xstate = 0
  sz : P.sz = 0
  parent : P.parent = none
  trapframe : P.trapframe = none
  pagetable : P.pagetable = false

namespace Kernel

variable {s s' : Kernel} {c : CpuId} {p j : Slot} {a : Act} {k' k : Pc} {init : AddrSpace}
  {root : ℕ}

/-- **A slot that is free after a section** was freed by it, or is the free
slot it was before, but for a mark that `kill` left. -/
theorem Section.unused (I : Inv s) (h : Section s c a p k k' s')
    (hpar : (s.proc j).state = .unused → (s.proc j).parent = none)
    (hj : (s'.proc j).state = .unused) :
    (∃ P : Proc, s'.proc j = P.freeproc) ∨ (s.proc j).state = .unused ∧
      (s'.proc j = s.proc j ∨ s'.proc j = { s.proc j with killed := true } ∧
        a = .go ∧ ∃ pid, k = .signal .kill pid j ∧ (s.proc j).pid = pid) := by
  have hrun := h.running I.sched
  cases h.work.write j with
  | same k k' hP => exact .inr ⟨hP ▸ hj, .inl hP⟩
  | touch k k' P ha ht hP =>
    rw [hP] at hj ⊢
    cases ht with
    | signal sig pid j hl hp =>
      -- a process that is woken up is not free
      have hu : (s.proc j).state = .unused := by
        cases sig with
        | sigstop => cases hj
        | kill | sigcont =>
          simp only [Signal.body] at hj
          split_ifs at hj
          exact hj
      cases sig with
      | sigstop => cases hj
      | kill => exact .inr ⟨hu, .inr ⟨by simp [Signal.body, hu], ha, pid, rfl, hp⟩⟩
      | sigcont => exact .inr ⟨hu, .inl (by rw [Signal.body, if_neg (by simp [hu])])⟩
    | spawnBad => exact .inl ⟨_, rfl⟩
    | reparent j st hp =>
      rw [hpar hj] at hp
      cases hp
    | setkilled | sysret | exitFiles | exitCwd =>
      exact absurd hj (by simp [hrun])
    | spawnTrapframe | spawnFiles | setParent | setRunnable =>
      exact absurd hj (by simp [h.used I rfl])
  | own u he hP =>
    rw [hP, he] at hj
    simp [hrun] at hj
  | allocFail cr hu hP | reap sel addr hz hP => exact .inl ⟨_, hP⟩
  | fork hu hn hP | spawn hu hn hP | waitSleep sel addr k' c he hP | exitZombie st c he hP =>
    rw [hP] at hj
    cases hj

/-- Free slots are blank. -/
def BlankInv (s : Kernel) : Prop := ∀ j, (s.proc j).state = .unused → (s.proc j).Blank

theorem BlankInv.silent (B : BlankInv s) (h : Silent s s') : BlankInv s' := by
  intro j hj
  have hu := (h.state_iff (by decide)).mp hj
  have hd := h.data j
  simp only [Proc.data, Data.mk.injEq] at hd
  obtain ⟨-, -, hxs, hpid, hpar, hsz, hpt, htf, -, -⟩ := hd
  have hchan := (h.rest j (by rw [hj]; decide)).1
  obtain ⟨h₁, h₂, h₃, h₄, h₅, h₆, h₇⟩ := B j hu
  exact ⟨hpid.trans h₁, hchan.trans h₂, hxs.trans h₃, hsz.trans h₄, hpar.trans h₅,
    htf.trans h₆, hpt.trans h₇⟩

theorem BlankInv.work (B : BlankInv s) (I : Inv s) (h : Section s c a p k k' s') : BlankInv s' := by
  intro j hj
  rcases h.unused I (fun hu => (B j hu).parent) hj with ⟨P, hP⟩ | ⟨hu, he | ⟨he, -⟩⟩
  · rw [hP]
    exact ⟨rfl, rfl, rfl, rfl, rfl, rfl, rfl⟩
  · rw [he]
    exact B j hu
  · rw [he]
    obtain ⟨h₁, h₂, h₃, h₄, h₅, h₆, h₇⟩ := B j hu
    exact ⟨h₁, h₂, h₃, h₄, h₅, h₆, h₇⟩

theorem BlankInv.boot (root : ℕ) (init : AddrSpace) : BlankInv (boot root init) := by
  intro j hj
  by_cases h0 : j = 0
  · subst h0
    cases hj
  · rw [boot_proc root init h0]
    exact ⟨rfl, rfl, rfl, rfl, rfl, rfl, rfl⟩

/-- **In any run with a harmless `sigstop`, free slots are blank.** -/
theorem BlankInv.of_runs {ok : Kernel → Label → Prop}
    (h : Lts.Runs step ok (Kernel.boot root init) s)
    (hok : ∀ s l, ok s l → StopsOnly stoppable s l) :
    BlankInv s :=
  Inv.rule h hok (BlankInv.boot root init) (fun _ _ _ B hs => B.silent hs)
    (fun _ _ _ _ _ _ _ I _ B _ hw => B.work I hw)

/-! ## Pids -/

/-- **The pids of the slots in use** are positive, handed out already, and
pairwise different. -/
structure PidInv (s : Kernel) : Prop where
  next : 1 < s.nextpid
  range : ∀ j, (s.proc j).state ≠ .unused → 0 < (s.proc j).pid ∧ (s.proc j).pid < s.nextpid
  unique : ∀ i j, (s.proc i).state ≠ .unused → (s.proc j).state ≠ .unused →
    (s.proc i).pid = (s.proc j).pid → i = j

/-- A section changes the pid of a slot only when it frees or takes it. -/
theorem Work.pid_eq (h : Work s c a p k k' s') (j : Slot) :
    (s'.proc j).pid = (s.proc j).pid ∨ (s'.proc j).state = .unused ∨
      (s.proc j).state = .unused ∧ (s'.proc j).state = .used := by
  cases h.write j with
  | touch k k' P ha ht hP =>
    rw [hP]
    cases ht with
    | signal sig => cases sig <;> exact .inl rfl
    | spawnBad => exact .inr (.inl rfl)
    | _ => exact .inl rfl
  | allocFail cr hu hP | reap sel addr hz hP => exact .inr (.inl (by rw [hP]; rfl))
  | fork hu hn hP | spawn hu hn hP => exact .inr (.inr ⟨hu, by rw [hP]; rfl⟩)
  | same k k' hP | own u he hP | waitSleep sel addr k' c he hP | exitZombie st c he hP =>
    rw [hP]
    exact .inl rfl

/-- A slot in use before and after keeps its pid. -/
theorem Work.pid_of_used (h : Work s c a p k k' s') (hj : (s.proc j).state ≠ .unused)
    (hj' : (s'.proc j).state ≠ .unused) : (s'.proc j).pid = (s.proc j).pid := by
  rcases h.pid_eq j with hp | hu | ⟨hu, -⟩
  · exact hp
  · exact absurd hu hj'
  · exact absurd hu hj

theorem Work.nextpid_le (h : Work s c a p k k' s') : s.nextpid ≤ s'.nextpid := by
  cases h with
  | allocFail | fork | spawn => exact Int.le_add_one (le_refl _)
  | _ => exact le_refl _

/-- **A slot in use after a section** was so before, with the same pid, or has
just been taken, with the next pid. -/
theorem Section.pid_cases (I : Inv s) (hok : StopsOnly stoppable s (c, a))
    (h : Section s c a p k k' s') (hj : (s'.proc j).state ≠ .unused) :
    (s.proc j).state ≠ .unused ∧ (s'.proc j).pid = (s.proc j).pid ∨
      k'.newProc = some j ∧ (s'.proc j).pid = s.nextpid ∧ s'.nextpid = s.nextpid + 1 := by
  have hused : (s.proc j).state ≠ .unused →
      (s.proc j).state ≠ .unused ∧ (s'.proc j).pid = (s.proc j).pid :=
    fun hu => ⟨hu, h.work.pid_of_used hu hj⟩
  cases h.change I.sched hok j with
  | keep hp =>
    exact .inl (hused (fun hu => hj (ProcState.eq_of_phase hp hu (by decide))))
  | create hs hk hs' hc hpid hnext => exact .inr ⟨hk, hpid, hnext⟩
  | publish pid src hk =>
    subst hk
    exact .inl (hused (by simp [h.used I rfl]))
  | die st he =>
    subst he
    exact .inl (hused (by simp [h.running I.sched]))
  | stop pid hk hs => exact .inl (hused (by simp [hs]))
  | discard hk hk' hs' | reap sel addr hk hs hs' => exact absurd hs' hj

theorem PidInv.work (N : PidInv s) (I : Inv s) (hok : StopsOnly stoppable s (c, a))
    (h : Section s c a p k k' s') : PidInv s' := by
  have hnext := h.work.nextpid_le
  have hcases := fun j => h.pid_cases (j := j) I hok
  constructor
  · exact lt_of_lt_of_le N.next hnext
  · intro j hj
    have h1 := N.next
    rcases hcases j hj with ⟨hu, hp⟩ | ⟨-, hp, hn⟩
    · have hr := N.range j hu
      omega
    · omega
  · intro i j hi hj he
    rcases hcases i hi with ⟨hui, hpi⟩ | ⟨hki, hpi, -⟩ <;>
      rcases hcases j hj with ⟨huj, hpj⟩ | ⟨hkj, hpj, -⟩
    · exact N.unique i j hui huj (by omega)
    · have hr := N.range i hui
      omega
    · have hr := N.range j huj
      omega
    · exact Option.some.inj (hki.symm.trans hkj)

theorem PidInv.silent (N : PidInv s) (h : Silent s s') : PidInv s' := by
  have hpid := h.pid
  have hu : ∀ j, (s'.proc j).state ≠ .unused → (s.proc j).state ≠ .unused :=
    fun j hj he => hj ((h.state_iff (by decide)).mpr he)
  constructor
  · rw [h.nextpid]
    exact N.next
  · intro j hj
    rw [hpid, h.nextpid]
    exact N.range j (hu j hj)
  · intro i j hi hj he
    rw [hpid, hpid] at he
    exact N.unique i j (hu i hi) (hu j hj) he

theorem PidInv.boot (root : ℕ) (init : AddrSpace) : PidInv (boot root init) := by
  have hslot : ∀ j, ((Kernel.boot root init).proc j).state ≠ .unused → j = 0 := by
    intro j hj
    by_contra h0
    rw [boot_proc root init h0] at hj
    exact hj rfl
  constructor
  · show (1 : ℤ) < 2
    decide
  · intro j hj
    rw [hslot j hj]
    show (0 : ℤ) < 1 ∧ (1 : ℤ) < 2
    decide
  · intro i j hi hj _
    rw [hslot i hi, hslot j hj]

/-! ## The life of a process -/

/-- How far the process in slot `j` is in its life. -/
def age (s : Kernel) (j : Slot) : ℕ :=
  match (s.proc j).state.phase with
  | .unused => 0
  | .used => 1
  | .live => 2
  | .zombie => 3

/-- A process that is there in `s'`, and whose pid had been handed out in `s`, was there in
`s`, and has not become younger. -/
structure Later (s s' : Kernel) : Prop where
  next : s.nextpid ≤ s'.nextpid
  slot : ∀ j, (s'.proc j).state ≠ .unused → (s'.proc j).pid < s.nextpid →
    (s.proc j).state ≠ .unused ∧ (s.proc j).pid = (s'.proc j).pid ∧ s.age j ≤ s'.age j

theorem Later.trans {s₁ : Kernel} (h : Later s s₁) (h' : Later s₁ s') : Later s s' := by
  refine ⟨h.next.trans h'.next, fun j hj hpid => ?_⟩
  obtain ⟨hj₁, hpid₁, hage₁⟩ := h'.slot j hj (hpid.trans_le h.next)
  obtain ⟨hj₀, hpid₀, hage₀⟩ := h.slot j hj₁ (hpid₁.symm ▸ hpid)
  exact ⟨hj₀, hpid₀.trans hpid₁, hage₀.trans hage₁⟩

theorem Silent.later (h : Silent s s') : Later s s' := by
  refine ⟨h.nextpid.ge, fun j hj _ => ⟨fun hu => ?_, (h.pid j).symm, ?_⟩⟩
  · exact hj ((h.state_iff (by decide)).mpr hu)
  · rw [age, age, h.phase]

theorem Section.later (I : Inv s) (hok : StopsOnly inactive s (c, a))
    (h : Section s c a p k k' s') : Later s s' := by
  refine ⟨h.work.nextpid_le, fun j hj hpid => ?_⟩
  rcases h.pid_cases I hok.stoppable hj with ⟨hu, hp⟩ | ⟨-, hp, -⟩
  swap
  · omega
  refine ⟨hu, hp.symm, ?_⟩
  cases h.change I.sched hok.stoppable j with
  | keep hph => rw [age, age, hph]
  | create hs => exact absurd hs hu
  | publish pid src hk hk' hs' =>
    subst hk
    simp [age, h.used I rfl, hs', ProcState.phase]
  | die st he hk hk' hs' =>
    subst he
    simp [age, h.running I.sched, hs', ProcState.phase]
  | stop pid hk hs hs' => exact absurd (by rw [hs']; rfl) (h.zombie_not_live I hok hs)
  | discard hk hk' hs' | reap sel addr hk hs hs' => exact absurd hs' hj

/-- **A pid names one process, and its life goes one way.** A process whose pid had been
handed out earlier in the run was there already, in the same slot, and nobody else had its
pid; it goes from under construction to alive to zombie and never back, and once it is gone
no process has its pid again. -/
theorem pid_names_process {root : ℕ} {init : AddrSpace}
    (h : Lts.Runs step (StopsOnly inactive) (boot root init) s)
    (h' : Lts.Runs step (StopsOnly inactive) s s') (j : Slot) (hj : (s'.proc j).state ≠ .unused)
    (hpid : (s'.proc j).pid < s.nextpid) :
    (s.proc j).state ≠ .unused ∧ (s.proc j).pid = (s'.proc j).pid ∧ s.age j ≤ s'.age j ∧
      ∀ i, (s.proc i).state ≠ .unused → (s.proc i).pid = (s'.proc j).pid → i = j := by
  obtain ⟨I, N⟩ : Inv s ∧ PidInv s :=
    ⟨Inv.of_runs (h.mono fun _ _ ho => ho.stoppable),
      Inv.rule h (fun _ _ ho => ho.stoppable) (PidInv.boot root init)
        (fun _ _ _ N hs => N.silent hs)
        (fun _ _ _ _ _ _ _ I _ N ho hw => N.work I ho.stoppable hw)⟩
  obtain ⟨-, L⟩ : Inv s' ∧ Later s s' := by
    refine h'.invariant (I := fun t => Inv t ∧ Later s t)
      ⟨I, le_rfl, fun j hj _ => ⟨hj, rfl, le_rfl⟩⟩ ?_
    rintro t l t' ⟨I, L⟩ ho hs
    refine ⟨I.step ho.stoppable hs, L.trans ?_⟩
    rcases (step_cases hs).silent_or_work I.sched with hs | ⟨p, k, k', hw⟩
    · exact hs.later
    · exact hw.later I ho
  obtain ⟨hu, hp, hage⟩ := L.slot j hj hpid
  exact ⟨hu, hp, hage, fun i hi he => N.unique i j hi hu (he.trans hp.symm)⟩

/-- The theorem at work on a child that is alive and later a zombie. -/
theorem pid_names_process_child : ∃ s s', Lts.Runs step (StopsOnly inactive) s s' ∧
    (s'.proc 1).state = .zombie ∧ (s'.proc 1).pid = 2 ∧ (s.proc 1).pid = 2 ∧ s.age 1 ≤ s'.age 1 ∧
      ∀ i, (s.proc i).state ≠ .unused → (s.proc i).pid = 2 → i = 1 := by
  obtain ⟨s, hs, hn, s', hs', hz, hp⟩ :
      ∃ s ∈ Lts.runIf step (StopsOnly inactive) (boot 0 AddrSpace.empty) (forkChild ++ runChild 1),
      s.nextpid = 3 ∧ ∃ s' ∈ Lts.runIf step (StopsOnly inactive) s (exitChild 7),
        (s'.proc 1).state = .zombie ∧ (s'.proc 1).pid = 2 := by decide +kernel
  replace hs' := Lts.runs_of_runIf hs'
  have h := pid_names_process (Lts.runs_of_runIf hs) hs' 1 (by rw [hz]; decide)
    (by rw [hp, hn]; decide)
  rw [hp] at h
  exact ⟨s, s', hs', hz, hp, h.2⟩

/-! ## The mark of `kill` -/

/-- **The side condition**: `sigstop` is harmless, and `kill` finds no free
slot. -/
def KillsUsed (s : Kernel) (l : Label) : Prop :=
  StopsOnly stoppable s l ∧ ∀ j, s.signalTarget l = some (.kill, j) → (s.proc j).state ≠ .unused

instance (s : Kernel) (l : Label) : Decidable (KillsUsed s l) :=
  @instDecidableAnd _ _ _ (decidableTarget _ _ (fun j => (s.proc j).state ≠ .unused))

/-- Free slots are not marked. -/
theorem unused_not_killed (h : Lts.Runs step KillsUsed (boot root init) s) (j : Slot)
    (hj : (s.proc j).state = .unused) : (s.proc j).killed = false := by
  revert j
  refine (Inv.rule (J := fun s => BlankInv s ∧ ∀ j, (s.proc j).state = .unused →
    (s.proc j).killed = false) h (fun _ _ ho => ho.1) ⟨BlankInv.boot root init, ?_⟩ ?_ ?_).2
  · intro j hj
    by_cases h0 : j = 0
    · subst h0
      cases hj
    · rw [boot_proc root init h0]
      rfl
  · rintro s s' - ⟨B, hk⟩ hs
    refine ⟨B.silent hs, fun j hj => ?_⟩
    exact (congrArg Data.killed (hs.data j)).trans (hk j ((hs.state_iff (by decide)).mp hj))
  · rintro s s' c a p k k' I - ⟨B, hk⟩ ho hw
    refine ⟨B.work I hw, fun j hj => ?_⟩
    rcases hw.unused I (fun hu => (B j hu).parent) hj with
      ⟨P, hP⟩ | ⟨hu, he | ⟨-, ha, pid, hsig, hp⟩⟩
    · rw [hP]
      rfl
    · rw [he]
      exact hk j hu
    · subst ha hsig
      exact absurd hu (ho.2 j (signalTarget_eq hw.pc hp))

/-- **In a run in which `kill` never finds a free slot, every free slot is
clear**: it is blank, not marked as killed, and has neither descriptors nor a
directory. So `allocproc` returns a process that is not killed and has no
descriptors. -/
theorem unused_slot_clear {root : ℕ} {init : AddrSpace}
    (h : Lts.Runs step KillsUsed (boot root init) s) (j : Slot) (hj : (s.proc j).state = .unused) :
    (s.proc j).Blank ∧ (s.proc j).killed = false ∧ (∀ fd, (s.proc j).ofile fd = none) ∧
      (s.proc j).cwd = none ∧ ∀ pid, ((s.proc j).alloc pid).killed = false ∧
        ∀ fd, ((s.proc j).alloc pid).ofile fd = none := by
  have hk := unused_not_killed h j hj
  have hbare := (DataInv.of_runs h (fun _ _ ho => ho.1)).unused j hj
  exact ⟨BlankInv.of_runs h (fun _ _ ho => ho.1) j hj, hk, hbare.1, hbare.2, fun _ => ⟨hk, hbare.1⟩⟩

/-- The theorem at work after a child has been created, killed and has exited,
and its parent has reaped it. -/
theorem unused_slot_clear_reaped :
    ∃ s, Lts.Runs step KillsUsed (boot 0 AddrSpace.empty) s ∧ s.nextpid = 3 ∧
      (s.proc 1).state = .unused ∧ (s.proc 1).killed = false ∧ (s.proc 1).Blank := by
  obtain ⟨s, hrun, hn, hu⟩ : ∃ s ∈ Lts.runIf step KillsUsed (boot 0 AddrSpace.empty)
      (forkChild ++ runChild 1 ++ callOnSlot1 (.kill 2) ++ exitChild 7 ++
        [(1, .go), (0, .call (.wait 0)), (0, .go), (0, .go), (0, .go), (0, .go)]),
      s.nextpid = 3 ∧ (s.proc 1).state = .unused := by decide +kernel
  replace hrun := Lts.runs_of_runIf hrun
  have h := unused_slot_clear hrun 1 hu
  exact ⟨s, hrun, hn, hu, h.2.1, h.1⟩

/-- **`kill(0)`** marks the first free slot, and the next child is born
killed. -/
theorem kill_zero_marks_unused :
    ∃ s₁ s₂, Lts.Runs step (fun _ _ => True) (boot 0 AddrSpace.empty) s₁ ∧
      (s₁.proc 1).state = .unused ∧ (s₁.proc 1).killed = true ∧
      Lts.run step s₁ [(0, .call .fork), (0, .go), (0, .go), (0, .go), (0, .go)] = some s₂ ∧
      (s₂.proc 1).state = .runnable ∧ (s₂.proc 1).killed = true := by
  simp only [exists_and_left, ← Option.mem_def]
  refine Lts.exists_runs ([(0, .go), (0, .go)] ++ callOnSlot1 (.kill 0)) ?_
  decide +kernel

end Kernel

end Xv6
