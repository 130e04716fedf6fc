import OsProject.SlotHygiene
import OsProject.WaitLock

/-!
# The family tree

Every process but the first has a parent, the process that created it until
that process exits, and the first process from then on. The parent is recorded
as a pointer into the table, and slots are recycled, so the pointer must be
changed before its target can be taken for somebody else's process.

The invariant says that it is: whoever is recorded as a parent is alive
(`TreeInv.parent_live`). Children are added by their parent itself, in `fork`
and `spawn`, or handed to the first process. A process that exits hands over
its children one slot after the other, and cannot get new ones meanwhile, so it
has none left when it becomes a zombie. Pids are handed out in increasing
order, so a parent is older than its children, and following the pointers one
arrives at the first process.

`sys_getppid` reads the pointer and then the pid it points to, without
`wait_lock`. If the parent exits and is reaped between the two reads, what it
returns is not the pid of a parent any more.
-/

namespace Xv6

open Option ProcState

/-- The value a system call is about to return, if one is. -/
def Pc.returns : Pc → Option ℤ
  | .ret v => some v
  | _ => none

theorem Pc.eq_of_returns {k : Pc} {v : ℤ} (h : k.returns = some v) : k = .ret v := by
  cases k <;> simp_all [returns]

/-- The parent that `sys_getppid` has loaded, if it has. -/
def Pc.parentLoaded : Pc → Option Slot
  | .getppidPid q => some q
  | _ => none

theorem Pc.eq_of_parentLoaded {k : Pc} {q : Slot} (h : k.parentLoaded = some q) :
    k = .getppidPid q := by
  cases k <;> simp_all [parentLoaded]

namespace Kernel

variable {s s' : Kernel} {c : CpuId} {p : Slot} {a : Act}

/-! ## Parents -/

theorem Work.initproc_eq {k k' : Pc} (h : Work s c a p k k' s') : s'.initproc = s.initproc := by
  cases h <;> rfl

/-- **What a section does to a parent pointer**: nothing, or it frees the slot,
sets the pointer of a new process, or hands a child to the first process. -/
theorem Work.parent_cases {k k' : Pc} (h : Work s c a p k k' s') (j : Slot) :
    (s'.proc j).parent = (s.proc j).parent ∨
      (s'.proc j).parent = none ∧ (s'.proc j).state = .unused ∨
      (∃ pid src, k = .setParent j pid src ∧ (s'.proc j).parent = some p) ∨
      ∃ st, k = .reparent j st ∧ (s.proc j).parent = some p ∧
        (s'.proc j).parent = some s.initproc := by
  cases h.write j with
  | touch k k' P ha ht hP =>
    rw [hP]
    cases ht with
    | signal sig => cases sig <;> exact .inl rfl
    | spawnBad => exact .inr (.inl ⟨rfl, rfl⟩)
    | setParent np pid src => exact .inr (.inr (.inl ⟨pid, src, rfl, rfl⟩))
    | reparent j st hp => exact .inr (.inr (.inr ⟨st, rfl, hp, rfl⟩))
    | _ => exact .inl rfl
  | allocFail cr hu hP | reap sel addr hz hP =>
    rw [hP]
    exact .inr (.inl ⟨rfl, rfl⟩)
  | same k k' hP | own u he hP | fork hu hn hP | spawn hu hn hP
  | waitSleep sel addr k' c he hP | exitZombie st c he hP =>
    rw [hP]
    exact .inl rfl

/-- A live process stays alive, unless it exits itself. -/
theorem Section.live_stays (I : Inv s) (hok : StopsOnly stoppable s (c, a)) {k k' : Pc}
    (h : Section s c a p k k' s') {q : Slot} (hq : (s.proc q).state.phase = .live) :
    (s'.proc q).state.phase = .live ∨ q = p ∧ ∃ st, k = .exitZombie st := by
  cases h.change I.sched hok q with
  | keep hp => exact .inl (hp.trans hq)
  | create hs | reap sel addr hk hs | stop pid hk hs => simp [hs, phase] at hq
  | discard hk =>
    subst hk
    simp [h.used I rfl, phase] at hq
  | publish pid src hk hk' hs' => exact .inl (by simp [hs', phase])
  | die st he hk => exact .inr ⟨he, st, hk⟩

/-! ## The invariant -/

/-- What the thread of process `p` relies on when it creates or exits. -/
def Rooted (s : Kernel) (p : Slot) : Pc → Prop
  | .spawnLoad np | .spawnTrapframe np _ | .spawnFiles np _ | .spawnBad np
  | .setParent np _ _ => (s.proc np).parent = none ∧ (s.proc p).pid < (s.proc np).pid
  | .exitFiles _ | .exitCwd _ | .exitAcquire _ => p ≠ s.initproc
  | .reparent i _ => p ≠ s.initproc ∧ ∀ j : Slot, j.val < i → (s.proc j).parent ≠ some p
  | .exitZombie _ => p ≠ s.initproc ∧ ∀ j : Slot, (s.proc j).parent ≠ some p
  | _ => True

/-- **The invariant of the family tree.** -/
structure TreeInv (s : Kernel) : Prop where
  /-- A parent is alive. -/
  parent_live : ∀ j q, (s.proc j).parent = some q → (s.proc q).state.phase = .live
  /-- A process that has been created has a parent, the first one apart. -/
  has_parent : ∀ j, (s.proc j).state.phase = .live ∨ (s.proc j).state.phase = .zombie →
    j ≠ s.initproc → (s.proc j).parent ≠ none
  /-- The first process is alive, has pid 1 and no parent. -/
  init_live : (s.proc s.initproc).state.phase = .live
  init_pid : (s.proc s.initproc).pid = 1
  init_root : (s.proc s.initproc).parent = none
  /-- A parent is older than its children. -/
  older : ∀ j q, (s.proc j).parent = some q → (s.proc q).pid < (s.proc j).pid
  rooted : ∀ p k, Thread s.proc s.cpus p k → Rooted s p k.base

theorem TreeInv.boot (root : ℕ) (init : AddrSpace) : TreeInv (boot root init) := by
  have hparent : ∀ j, ((Kernel.boot root init).proc j).parent = none :=
    update_keeps Proc.parent rfl
  constructor
  · intro j q hq
    rw [hparent] at hq
    cases hq
  · intro j hj hne
    have h0 : j ≠ 0 := hne
    rw [boot_proc root init h0] at hj
    simp [zeroed, phase] at hj
  · rfl
  · rfl
  · rfl
  · intro j q hq
    rw [hparent] at hq
    cases hq
  · rintro q k (⟨c, hc, -⟩ | ⟨-, rfl⟩)
    · cases hc
    · rw [boot_context]
      trivial

theorem TreeInv.silent (R : TreeInv s) (h : Silent s s') : TreeInv s' := by
  have hpid := h.pid
  have hpar := h.parent
  have hphase := h.phase
  have hinit := h.initproc
  constructor
  · simpa only [hpar, hphase] using R.parent_live
  · simpa only [hpar, hphase, hinit] using R.has_parent
  · simpa only [hphase, hinit] using R.init_live
  · simpa only [hpid, hinit] using R.init_pid
  · simpa only [hpar, hinit] using R.init_root
  · simpa only [hpar, hpid] using R.older
  · intro q k' ht
    obtain ⟨k, ht, hb⟩ := h.thread q k' ht
    have hr := R.rooted q k ht
    rw [← hb]
    revert hr
    cases k.base <;> simp only [Rooted, hpar, hpid, hinit] <;> exact id

/-- A phase other than `unused`, as a state. -/
theorem ne_unused_of_live {st : ProcState} (h : st.phase = .live) : st ≠ .unused := by
  rintro rfl
  cases h

section Work

variable {k k' : Pc} {q : Slot}

/-- Where the parent pointers after a section come from. -/
theorem Work.parent_some (h : Work s c a p k k' s') {j : Slot} (hq : (s'.proc j).parent = some q) :
    (s.proc j).parent = some q ∨ (∃ pid src, k = .setParent j pid src) ∧ q = p ∨
      (∃ st, k = .reparent j st) ∧ (s.proc j).parent = some p ∧ q = s.initproc := by
  rcases h.parent_cases j with he | ⟨he, -⟩ | ⟨pid, src, hk, he⟩ | ⟨st, hk, hp, he⟩ <;>
    rw [he] at hq
  · exact .inl hq
  · cases hq
  · exact .inr (.inl ⟨⟨pid, src, hk⟩, (some.inj hq).symm⟩)
  · exact .inr (.inr ⟨⟨st, hk⟩, hp, (some.inj hq).symm⟩)

/-- A parent, and the first process, survive a section: who exits is not the
first process and has no children left. -/
theorem TreeInv.live_work (R : TreeInv s) (I : Inv s) (hok : StopsOnly stoppable s (c, a))
    (h : Section s c a p k k' s') (hq : (∃ j, (s.proc j).parent = some q) ∨ q = s.initproc) :
    (s.proc q).state.phase = .live ∧ (s'.proc q).state.phase = .live := by
  have hlive : (s.proc q).state.phase = .live := by
    rcases hq with ⟨j, hj⟩ | rfl
    · exact R.parent_live j q hj
    · exact R.init_live
  refine ⟨hlive, (h.live_stays I hok hlive).resolve_right ?_⟩
  rintro ⟨rfl, _, rfl⟩
  obtain ⟨hne, hno⟩ := R.rooted q _ (h.thread_self)
  rcases hq with ⟨j, hj⟩ | he
  · exact hno j hj
  · exact hne he

/-- The mover is alive after a section that is not its last. -/
theorem Section.live_self (I : Inv s) (hok : StopsOnly stoppable s (c, a))
    (h : Section s c a p k k' s')
    (hk : ∀ st, k ≠ .exitZombie st) : (s'.proc p).state.phase = .live := by
  refine (h.live_stays I hok ?_).resolve_right ?_
  · rw [h.running I.sched]
    rfl
  · rintro ⟨-, st, rfl⟩
    exact hk st rfl

/-- **What the thread that moved relies on at its new point.** -/
theorem Section.rooted (I : Inv s) (B : BlankInv s) (N : PidInv s) (h : Section s c a p k k' s')
    (hr : Rooted s p k) : Rooted s' p k'.base := by
  have hrun := h.running I.sched
  have hne : ∀ np, k.newProc = some np → p ≠ np := by
    rintro np hk rfl
    simp [h.used I hk] at hrun
  cases h.work with
  | move k k' ha hm =>
    cases hm with
    | callExit st hfirst => exact hfirst
    | spawnFail => exact hr
    | reparentNext j st hj =>
      refine ⟨hr.1, fun i hi => ?_⟩
      rcases Nat.lt_succ_iff_lt_or_eq.mp hi with hlt | he
      · exact hr.2 i hlt
      · rw [Fin.ext he]
        exact hj
    | reparentEnd i st hi => exact ⟨hr.1, fun j => hr.2 j (lt_of_lt_of_le j.isLt hi)⟩
    | _ => trivial
  | touch k j P k' ha ht =>
    cases ht with
    | spawnTrapframe | spawnFiles =>
      have hp := hne j rfl
      exact ⟨by simpa using hr.1, by simpa [hp] using hr.2⟩
    | exitFiles | exitCwd => exact hr
    | reparent j =>
      refine ⟨hr.1, fun i hi => ?_⟩
      rcases Nat.lt_succ_iff_lt_or_eq.mp hi with hlt | he
      · have hij : i ≠ j := fun e => absurd hlt (by simp [e])
        simpa [hij] using hr.2 i hlt
      · rw [Fin.ext he]
        simpa using fun e : s.initproc = p => hr.1 e.symm
    | _ => trivial
  | load | loaded => exact hr
  | fork j hl hu | spawn j hl hu =>
    have hp : p ≠ j := by
      rintro rfl
      simp [hu] at hrun
    refine ⟨by simpa [Proc.forkFill, Proc.alloc] using (B j hu).parent, ?_⟩
    simpa [hp, Proc.forkFill, Proc.alloc] using (N.range p (by simp [hrun])).2
  | acquire k k' ha =>
    cases ha with
    | exit => exact ⟨hr, fun j hj => absurd hj (Nat.not_lt_zero _)⟩
    | wait => trivial
  | _ => trivial

/-- **What the other threads rely on is left alone.** -/
theorem Section.rooted_frame (I : Inv s) (hok : StopsOnly stoppable s (c, a))
    (h : Section s c a p k k' s') {k₂ : Pc}
    (hq : q ≠ p) (ht : Thread s.proc s.cpus q k₂) (hr : Rooted s q k₂.base) :
    Rooted s' q k₂.base := by
  have hme := h.thread_self
  have hinit := h.work.initproc_eq
  have hlive := I.sched.thread_live ht
  have hlive' : (s'.proc q).state.phase = .live :=
    (h.live_stays I hok hlive).resolve_right (fun he => hq he.1)
  have hpid : (s'.proc q).pid = (s.proc q).pid :=
    h.work.pid_of_used (ne_unused_of_live hlive) (ne_unused_of_live hlive')
  -- the slot it creates is still without a parent, and has its pid
  have hnew : ∀ np, k₂.base.newProc = some np → (s.proc np).parent = none ∧
      (s.proc q).pid < (s.proc np).pid → (s'.proc np).parent = none ∧
      (s'.proc q).pid < (s'.proc np).pid := by
    rintro np hnp ⟨hpar, hlt⟩
    rw [Pc.newProc_base] at hnp
    have hu := I.make.used q k₂ np ht hnp
    have hk : k.newProc ≠ some np := fun hk => hq (I.make.unique q p k₂ k np ht hme hnp hk)
    have hu' : (s'.proc np).state = .used :=
      ((h.change I.sched hok np).used (h.running I.sched) hu).resolve_right
        (fun he => hk he.1)
    constructor
    · rcases h.work.parent_cases np with he | ⟨he, -⟩ | ⟨pid, src, rfl, -⟩ | ⟨st, -, hp, -⟩
      · rw [he, hpar]
      · exact he
      · exact absurd rfl hk
      · rw [hpar] at hp
        cases hp
    · rw [hpid, h.work.pid_of_used (by simp [hu]) (by simp [hu'])]
      exact hlt
  -- nobody becomes its child, for it is not the first process
  have hchild : q ≠ s.initproc → ∀ j, (s.proc j).parent ≠ some q →
      (s'.proc j).parent ≠ some q := by
    intro hne j hj hj'
    rcases h.work.parent_some hj' with he | ⟨-, he⟩ | ⟨-, -, he⟩
    · exact hj he
    · exact hq he
    · exact hne he
  revert hr hnew
  cases k₂.base with
  | spawnLoad np | spawnTrapframe np | spawnFiles np | spawnBad np
  | setParent np => exact fun hr hnew => hnew np rfl hr
  | exitFiles | exitCwd | exitAcquire =>
    exact fun hr _ => by simpa only [Rooted, hinit] using hr
  | reparent =>
    exact fun hr _ => ⟨hinit ▸ hr.1, fun j hj => hchild hr.1 j (hr.2 j hj)⟩
  | exitZombie => exact fun hr _ => ⟨hinit ▸ hr.1, fun j => hchild hr.1 j (hr.2 j)⟩
  | _ => exact fun _ _ => trivial

theorem TreeInv.work (R : TreeInv s) (I : Inv s) (D : DataInv s) (B : BlankInv s)
    (N : PidInv s) (hok : StopsOnly stoppable s (c, a)) (h : Section s c a p k k' s') :
    TreeInv s' := by
  have hinit := h.work.initproc_eq
  have hr : Rooted s p k := by
    have hr := R.rooted p k h.thread_self
    rwa [h.work.base_eq] at hr
  have hlive := fun {q} => R.live_work (q := q) I hok h
  have hpid : ∀ q, (s.proc q).state.phase = .live ∧ (s'.proc q).state.phase = .live →
      (s'.proc q).pid = (s.proc q).pid := fun q hq =>
    h.work.pid_of_used (ne_unused_of_live hq.1) (ne_unused_of_live hq.2)
  have hB' := B.work I h
  constructor
  · intro j q hq
    rcases h.work.parent_some hq with he | ⟨⟨pid, src, rfl⟩, rfl⟩ | ⟨-, -, he⟩
    · exact (hlive (.inl ⟨j, he⟩)).2
    · exact h.live_self I hok (by simp)
    · exact (hlive (.inr he)).2
  · intro j hj hne
    rw [hinit] at hne
    have hj' : (s'.proc j).state ≠ .unused := by
      intro hu
      simp [hu, phase] at hj
    -- a slot that has a parent and is not freed keeps one
    have hkeep : (s.proc j).parent ≠ none → (s'.proc j).parent ≠ none := by
      intro hp
      rcases h.work.parent_cases j with he | ⟨-, he⟩ | ⟨pid, src, -, he⟩ | ⟨st, -, -, he⟩
      · rw [he]
        exact hp
      · exact absurd he hj'
      · simp [he]
      · simp [he]
    refine hkeep ?_
    cases h.change I.sched hok j with
    | keep hp => exact R.has_parent j (hp ▸ hj) hne
    | publish pid src hk =>
      subst hk
      obtain ⟨-, hpar⟩ := D.built p _ h.thread_self
      simp [hpar]
    | die st he =>
      subst he
      exact R.has_parent j (.inl (by rw [h.running I.sched]; rfl)) hne
    | stop pid hk hs => exact R.has_parent j (.inr (by rw [hs]; rfl)) hne
    | create hs hk hs' => simp [hs', phase] at hj
    | discard hk hk' hs' | reap sel addr hk hs hs' => exact absurd hs' hj'
  · rw [hinit]
    exact (hlive (.inr rfl)).2
  · rw [hinit, hpid _ (hlive (.inr rfl))]
    exact R.init_pid
  · rw [hinit]
    rcases h.work.parent_cases s.initproc with he | ⟨he, -⟩ | ⟨pid, src, rfl, -⟩ | ⟨st, -, hp, -⟩
    · rw [he]
      exact R.init_root
    · exact he
    · have hl := R.init_live
      simp [h.used I rfl, phase] at hl
    · simp [R.init_root] at hp
  · intro j q hq
    have hj' : (s'.proc j).state ≠ .unused := by
      intro hu
      simp [(hB' j hu).parent] at hq
    have hpid' : (s.proc j).state ≠ .unused → (s'.proc j).pid = (s.proc j).pid :=
      fun hu => h.work.pid_of_used hu hj'
    have hold : (s.proc j).parent ≠ none → (s.proc j).state ≠ .unused :=
      fun hp hu => hp (B j hu).parent
    rcases h.work.parent_some hq with he | ⟨⟨pid, src, rfl⟩, rfl⟩ | ⟨-, he, rfl⟩
    · rw [hpid q (hlive (.inl ⟨j, he⟩)), hpid' (hold (by simp [he]))]
      exact R.older j q he
    · have hrun := h.running I.sched
      rw [hpid' (by simp [h.used I rfl]), hpid q ⟨by rw [hrun]; rfl,
        h.live_self I hok (by simp)⟩]
      exact hr.2
    · rw [hpid _ (hlive (.inr rfl)), hpid' (hold (by simp [he])), R.init_pid]
      have hlt := R.older j p he
      have hpos := (N.range p (by simp [h.running I.sched])).1
      omega
  · intro q k₂ ht
    rcases h.threads I hok ht with ⟨rfl, rfl⟩ | ⟨hq, ht | ⟨-, rfl⟩ | ⟨-, rfl⟩⟩
    · exact h.rooted I B N hr
    · exact h.rooted_frame I hok hq ht (R.rooted q k₂ ht)
    · trivial
    · trivial

end Work

/-- The invariants of the table together. -/
structure TableInv (s : Kernel) : Prop where
  inv : Inv s
  data : DataInv s
  blank : BlankInv s
  pids : PidInv s
  tree : TreeInv s

theorem TableInv.boot (root : ℕ) (init : AddrSpace) : TableInv (boot root init) :=
  ⟨Inv.boot root init, DataInv.boot root init, BlankInv.boot root init,
    PidInv.boot root init, TreeInv.boot root init⟩

theorem TableInv.step {l : Label} (V : TableInv s) (hok : StopsOnly stoppable s l)
    (h : Kernel.step s l = some s') : TableInv s' := by
  obtain ⟨I, D, B, N, R⟩ := V
  have I' := I.step hok h
  rcases (step_cases h).silent_or_work I.sched with hs | ⟨p, k, k', hw⟩
  · exact ⟨I', D.silent hs, B.silent hs, N.silent hs, R.silent hs⟩
  · exact ⟨I', D.work I hok hw, B.work I hw, N.work I hok hw, R.work I D B N hok hw⟩

/-- **They hold in every state of a run.** -/
theorem TableInv.of_runs {ok : Kernel → Label → Prop} {root : ℕ} {init : AddrSpace}
    (h : Lts.Runs Kernel.step ok (Kernel.boot root init) s)
    (hok : ∀ s l, ok s l → StopsOnly stoppable s l) : TableInv s :=
  h.invariant (TableInv.boot root init) (fun _ _ _ V ho hs => V.step (hok _ _ ho) hs)

/-- A process whose code runs is alive. -/
theorem TableInv.live_of_code (V : TableInv s) (hcur : (s.cpus c).proc = some p)
    (hm : (s.cpus c).pc.mode = .code) : (s.proc p).state.phase = .live := by
  rw [V.inv.sched.running c p hcur (by rw [hm]; simp)]
  rfl

/-! ## The tree -/

/-- Slot `q` is the parent of slot `j`. -/
def ParentOf (s : Kernel) (j q : Slot) : Prop := (s.proc j).parent = some q

/-- An ancestor is older. -/
theorem TreeInv.older_trans (R : TreeInv s) {j q : Slot}
    (h : Relation.TransGen (ParentOf s) j q) : (s.proc q).pid < (s.proc j).pid := by
  induction h with
  | single h => exact R.older _ _ h
  | tail _ h ih => exact lt_trans (R.older _ _ h) ih

/-- **Following the parents one arrives at the first process.** -/
theorem TreeInv.reaches_init (R : TreeInv s) (N : PidInv s) (j : Slot)
    (hj : (s.proc j).state.phase = .live ∨ (s.proc j).state.phase = .zombie) :
    Relation.ReflTransGen (ParentOf s) j s.initproc := by
  -- by induction on the pid, which decreases towards the parent
  induction hn : (s.proc j).pid.toNat using Nat.strong_induction_on generalizing j with
  | _ n ih =>
    by_cases hinit : j = s.initproc
    · rw [hinit]
    · obtain ⟨q, hq⟩ := ne_none_iff_exists'.mp (R.has_parent j hj hinit)
      have hlive := R.parent_live j q hq
      have hlt := R.older j q hq
      have hpos := (N.range q (ne_unused_of_live hlive)).1
      exact (ih _ (by omega) q (.inl hlive) rfl).head hq

/-! ## The creator -/

/-- The point of a process that has handed over the child in slot `j` and has
not become a zombie yet. -/
def Leaving (j : Slot) : Pc → Prop
  | .reparent i _ => j.val < i
  | .exitZombie _ => True
  | _ => False

/-- **The process with pid `pj` in slot `j` was created by the one with pid
`cp`**: the parent of the one is the other, or the first process, and then the
other has exited or is about to. -/
structure CreatorInv (j : Slot) (pj cp : ℤ) (s : Kernel) : Prop where
  pos : 0 < pj ∧ 0 < cp
  old : pj < s.nextpid ∧ cp < s.nextpid
  done : ∀ q, (s.proc q).pid = pj ∨ (s.proc q).pid = cp → (s.proc q).state ≠ .used
  parent : (s.proc j).pid = pj → ∃ q, (s.proc j).parent = some q ∧
    ((s.proc q).pid = cp ∨ q = s.initproc ∧ ∀ q' k, (s.proc q').pid = cp →
      Thread s.proc s.cpus q' k → Leaving j k.base)

section Creator

variable {j : Slot} {pj cp : ℤ}

theorem CreatorInv.silent (K : CreatorInv j pj cp s) (h : Silent s s') : CreatorInv j pj cp s' := by
  have hpid := h.pid
  have hpar := h.parent
  constructor
  · exact K.pos
  · rw [h.nextpid]
    exact K.old
  · intro q hq hu
    simp only [hpid] at hq
    exact K.done q hq ((h.state_iff (by decide)).mp hu)
  · intro hj
    rw [hpid] at hj
    obtain ⟨q, hq, hK⟩ := K.parent hj
    refine ⟨q, by rw [hpar]; exact hq, ?_⟩
    rw [hpid, h.initproc]
    refine hK.imp_right (And.imp_right (fun hK q' k' hq' ht => ?_))
    rw [hpid] at hq'
    obtain ⟨k, ht, hb⟩ := h.thread q' k' ht
    rw [← hb]
    exact hK q' k hq' ht

/-- A process that is leaving, or hands over slot `j` now, goes on to leave until
it is a zombie. -/
theorem Work.leaving {k k' : Pc} (h : Work s c a p k k' s')
    (hk : Leaving j k ∨ (∃ st, k = .reparent j st) ∧ (s.proc j).parent = some p)
    (hlive : (s'.proc p).state.phase = .live) : Leaving j k'.base := by
  cases h with
  | move k k' ha h =>
    cases h with
    | reparentNext i st hi =>
      rcases hk with hk | ⟨⟨st', he⟩, hp⟩
      · exact Nat.lt_succ_of_lt hk
      · rw [Fin.ext (Pc.reparent.inj he).1] at hi
        exact absurd hp hi
    | reparentEnd => trivial
    | _ => simp [Leaving] at hk
  | touch k i P k' ha h =>
    cases h with
    | reparent =>
      rcases hk with hk | ⟨⟨st', he⟩, -⟩
      · exact Nat.lt_succ_of_lt hk
      · exact Nat.lt_succ_of_le (le_of_eq (Pc.reparent.inj he).1.symm)
    | _ => simp [Leaving] at hk
  | exitZombie => simp [switchOut, phase] at hlive
  | acquire k k' h | release k h => cases h <;> simp [Leaving] at hk
  | _ => simp [Leaving] at hk

theorem CreatorInv.work (K : CreatorInv j pj cp s) (R : TreeInv s) (I : Inv s) (I' : Inv s')
    (B' : BlankInv s') (N : PidInv s) (hok : StopsOnly inactive s (c, a)) {k k' : Pc}
    (h : Section s c a p k k' s') : CreatorInv j pj cp s' := by
  have hstop := hok.stoppable
  have hme := h.thread_self
  have hrun := h.running I.sched
  -- a pid that was handed out before is the pid of the process that had it
  have hback : ∀ q x, 0 < x → x < s.nextpid → (s'.proc q).pid = x →
      (s.proc q).state ≠ .unused ∧ (s.proc q).pid = x ∧ (s'.proc q).state ≠ .unused := by
    intro q x hx hold hq
    have hu' : (s'.proc q).state ≠ .unused := fun hu => by
      have h0 := (B' q hu).pid
      omega
    rcases h.pid_cases I hstop hu' with ⟨hu, hp⟩ | ⟨-, hp, -⟩
    · exact ⟨hu, hp.symm.trans hq, hu'⟩
    · omega
  have hdone : ∀ q, (s'.proc q).pid = pj ∨ (s'.proc q).pid = cp →
      (s'.proc q).state ≠ .used ∧ (s.proc q).state ≠ .used := by
    intro q hq
    have hq₀ : (s.proc q).state ≠ .unused ∧ (s.proc q).state ≠ .used := by
      rcases hq with hq | hq
      · obtain ⟨hu, hp, -⟩ := hback q pj K.pos.1 K.old.1 hq
        exact ⟨hu, K.done q (.inl hp)⟩
      · obtain ⟨hu, hp, -⟩ := hback q cp K.pos.2 K.old.2 hq
        exact ⟨hu, K.done q (.inr hp)⟩
    refine ⟨fun hu' => ?_, hq₀.2⟩
    cases h.change I.sched hstop q with
    | keep hp => exact hq₀.2 (eq_of_phase hp.symm hu' (by decide))
    | create hs => exact hq₀.1 hs
    | discard hk hk' hs' | publish pid src hk hk' hs' | die st he hk hk' hs'
    | reap sel addr hk hs hs' | stop pid hk hs hs' => simp [hu'] at hs'
  constructor
  · exact K.pos
  · have hn := h.work.nextpid_le
    exact ⟨lt_of_lt_of_le K.old.1 hn, lt_of_lt_of_le K.old.2 hn⟩
  · exact fun q hq => (hdone q hq).1
  · intro hj
    obtain ⟨-, hj₀, hju'⟩ := hback j pj K.pos.1 K.old.1 hj
    obtain ⟨q, hq, hK⟩ := K.parent hj₀
    -- the threads of the creator after the section
    have hthread : ∀ q' k₂, (s'.proc q').pid = cp → Thread s'.proc s'.cpus q' k₂ →
        (s.proc q').pid = cp ∧ (q' = p ∧ k₂ = k' ∨ q' ≠ p ∧ Thread s.proc s.cpus q' k₂) := by
      intro q' k₂ hq' ht
      refine ⟨(hback q' cp K.pos.2 K.old.2 hq').2.1, ?_⟩
      rcases h.threads I hstop ht with h' | ⟨hne, ht' | ⟨hs, -⟩ | ⟨hs, -⟩⟩
      · exact .inl h'
      · exact .inr ⟨hne, ht'⟩
      · exact absurd hs (hdone q' (.inr hq')).2
      · exact absurd (I'.sched.thread_live ht) (h.zombie_not_live I hok hs)
    have hself : Leaving j k ∨ (∃ st, k = .reparent j st) ∧ (s.proc j).parent = some p →
        ∀ k₂, Thread s'.proc s'.cpus p k₂ → Leaving j k'.base :=
      fun hk k₂ ht => h.work.leaving hk (I'.sched.thread_live ht)
    rcases h.work.parent_cases j with he | ⟨-, he⟩ | ⟨pid, src, rfl, -⟩ | ⟨st, rfl, hp, he⟩
    · refine ⟨q, he.trans hq, ?_⟩
      rcases hK with hcp | ⟨rfl, hK⟩
      · obtain ⟨hl, hl'⟩ := R.live_work I hstop h (.inl ⟨j, hq⟩)
        refine .inl ?_
        rw [h.work.pid_of_used (ne_unused_of_live hl) (ne_unused_of_live hl')]
        exact hcp
      · refine .inr ⟨h.work.initproc_eq.symm, fun q' k₂ hq' ht => ?_⟩
        obtain ⟨hcp, ⟨rfl, rfl⟩ | ⟨-, ht'⟩⟩ := hthread q' k₂ hq' ht
        · refine hself (.inl ?_) _ ht
          have hl := hK q' k hcp hme
          rwa [h.work.base_eq] at hl
        · exact hK q' k₂ hcp ht'
    · exact absurd he hju'
    · exact absurd (h.used I rfl) (K.done j (.inl hj₀))
    · -- the parent hands `j` over: it is the creator, for the first process does not exit
      refine ⟨s.initproc, he, .inr ⟨h.work.initproc_eq.symm, fun q' k₂ hq' ht => ?_⟩⟩
      obtain rfl : p = q := some.inj (hp.symm.trans hq)
      have hpcp : (s.proc p).pid = cp :=
        hK.resolve_right (fun hK => (R.rooted p _ hme).1 hK.1)
      obtain ⟨hcp, ⟨rfl, rfl⟩ | ⟨hne, -⟩⟩ := hthread q' k₂ hq' ht
      · exact hself (.inr ⟨⟨st, rfl⟩, hp⟩) _ ht
      · have hu := (hback q' cp K.pos.2 K.old.2 hq').1
        exact absurd (N.unique q' p hu (by simp [hrun]) (hcp.trans hpcp.symm)) hne

theorem CreatorInv.step (K : CreatorInv j pj cp s) (V : TableInv s) {l : Label}
    (hok : StopsOnly inactive s l) (h : Kernel.step s l = some s') : CreatorInv j pj cp s' := by
  have V' := V.step hok.stoppable h
  rcases (step_cases h).silent_or_work V.inv.sched with hs | ⟨p, k, k', hw⟩
  · exact K.silent hs
  · exact K.work V.tree V.inv V'.inv V'.blank V.pids hok hw

/-- The invariant starts when the creator makes the process runnable. -/
theorem CreatorInv.start (V : TableInv s) {pid : ℤ} {src : Source}
    (hcur : (s.cpus c).proc = some p) (hpc : (s.cpus c).pc = .setRunnable j pid src)
    (h : Kernel.step s (c, .go) = some s') : CreatorInv j (s.proc j).pid (s.proc p).pid s' := by
  have hme : Thread s.proc s.cpus p (.setRunnable j pid src) :=
    hpc ▸ thread_of_current hcur (.inl (by rw [hpc]; rfl))
  have hused := V.inv.make.used p _ j hme rfl
  have hrun : (s.proc p).state = .running :=
    V.inv.sched.running c p hcur (by rw [hpc]; simp [Pc.mode])
  have hne : p ≠ j := by
    rintro rfl
    simp [hused] at hrun
  have hpar := (V.data.built p _ hme).2
  have hs' : s' = (s.setProc j { s.proc j with state := .runnable }).goto c (.ret pid) := by
    simp only [Kernel.step, hpc, hcur, bind_some, procStep, Kernel.setRunnable] at h
    obtain ⟨-, hb⟩ := underLock_eq_some.mp h
    exact (some.inj hb).symm
  subst hs'
  constructor
  · exact ⟨(V.pids.range j (by simp [hused])).1, (V.pids.range p (by simp [hrun])).1⟩
  · exact ⟨(V.pids.range j (by simp [hused])).2, (V.pids.range p (by simp [hrun])).2⟩
  · intro q hq hu
    by_cases hqj : q = j
    · subst hqj
      simp at hu
    · simp only [goto_proc, setProc_proc, Function.update_of_ne hqj] at hq hu
      rcases hq with hq | hq
      · exact hqj (V.pids.unique q j (by simp [hu]) (by simp [hused]) hq)
      · have he := V.pids.unique q p (by simp [hu]) (by simp [hrun]) hq
        rw [he, hrun] at hu
        cases hu
  · exact fun _ => ⟨p, by simpa using hpar, .inl (by simp [hne])⟩

end Creator

/-- **In a run in which `sigstop` only ever hits a process that is asleep or
runnable**:

* every process whose creation is complete, the first one apart, has a parent
  that is neither free nor a zombie, and following the parents one arrives at
  the first process and never at the same process again;
* `sys_getppid`, called by such a process, never finds a null pointer, and if
  the pointer it has read is still the parent when it reads the pid, it returns
  the pid of a live process, which is not 0;
* from the moment a process is made runnable, in every state in which
  `wait_lock` is free, its parent is the process that created it as long as
  that one has not exited, and the first process afterwards. -/
theorem family_tree {root : ℕ} {init : AddrSpace}
    (h : Lts.Runs step (StopsOnly inactive) (boot root init) s) :
    (∀ j, (s.proc j).state.phase = .live ∨ (s.proc j).state.phase = .zombie → j ≠ s.initproc →
      (∃ q, (s.proc j).parent = some q ∧ (s.proc q).state ≠ .unused ∧ (s.proc q).state ≠ .zombie) ∧
      Relation.ReflTransGen (ParentOf s) j s.initproc ∧ ¬ Relation.TransGen (ParentOf s) j j) ∧
    (∀ c p s', (s.cpus c).proc = some p → p ≠ s.initproc → step s (c, .go) = some s' →
      ((s.cpus c).pc = .getppid → (s'.cpus c).pc = .getppidLoad) ∧ ((s.cpus c).pc = .getppidLoad →
        ∃ q, (s.proc p).parent = some q ∧ (s'.cpus c).pc = .getppidPid q) ∧
      ∀ q, (s.cpus c).pc = .getppidPid q → (s.proc p).parent = some q →
        (s'.cpus c).pc = .ret (s.proc q).pid ∧ (s.proc q).pid ≠ 0 ∧
          (s.proc q).state.phase = .live) ∧ ∀ c p j pid src s₁ s₂, (s.cpus c).proc = some p →
      (s.cpus c).pc = .setRunnable j pid src → step s (c, .go) = some s₁ →
      Lts.Runs step (StopsOnly inactive) s₁ s₂ → s₂.waitLock = none →
      (s₂.proc j).pid = (s.proc j).pid →
        (∀ q, (s₂.proc q).state.phase = .live → (s₂.proc q).pid = (s.proc p).pid →
          (s₂.proc j).parent = some q) ∧
        ((∀ q, (s₂.proc q).state.phase = .live → (s₂.proc q).pid ≠ (s.proc p).pid) →
          (s₂.proc j).parent = some s₂.initproc) := by
  have V := TableInv.of_runs h (fun _ _ ho => ho.stoppable)
  refine ⟨fun j hj hne => ⟨?_, V.tree.reaches_init V.pids j hj, fun hcycle => ?_⟩,
    fun c p s' hcur hne hs => ⟨fun hpc => ?_, fun hpc => ?_, fun q hpc hq => ?_⟩, ?_⟩
  · obtain ⟨q, hq⟩ := ne_none_iff_exists'.mp (V.tree.has_parent j hj hne)
    have hlive := V.tree.parent_live j q hq
    refine ⟨q, hq, ne_unused_of_live hlive, fun hz => ?_⟩
    simp [hz, phase] at hlive
  · exact lt_irrefl _ (V.tree.older_trans hcycle)
  · -- the first test of `sys_getppid`
    have hpar := V.tree.has_parent p (.inl (V.live_of_code hcur (by rw [hpc]; rfl))) hne
    simp only [step, hpc, hcur, bind_some, procStep, getppid, if_neg hpar,
      some.injEq] at hs
    simp [← hs]
  · have hpar := V.tree.has_parent p (.inl (V.live_of_code hcur (by rw [hpc]; rfl))) hne
    obtain ⟨q, hq⟩ := ne_none_iff_exists'.mp hpar
    simp only [step, hpc, hcur, bind_some, procStep, getppidLoad, hq, map_some,
      some.injEq] at hs
    exact ⟨q, hq, by simp [← hs]⟩
  · have hlive := V.tree.parent_live p q hq
    have hpos := (V.pids.range q (ne_unused_of_live hlive)).1
    simp only [step, hpc, hcur, bind_some, procStep, some.injEq] at hs
    exact ⟨by simp [← hs], by omega, hlive⟩
  · intro c p j pid src s₁ s₂ hcur hpc hs hrun hw hj
    have hok : StopsOnly inactive s (c, .go) := fun i hi => by
      simp [signalTarget, hpc] at hi
    have h₁ := h.tail hok hs
    have V₂ := TableInv.of_runs (h₁.trans hrun) (fun _ _ ho => ho.stoppable)
    have L₂ := LockInv.of_runs (h₁.trans hrun) (fun _ _ ho => ho.stoppable)
    have K₁ := CreatorInv.start V hcur hpc hs
    have K₂ := (hrun.invariant (I := fun t => TableInv t ∧ CreatorInv j _ _ t)
      ⟨TableInv.of_runs h₁ (fun _ _ ho => ho.stoppable), K₁⟩
      (fun t l t' hV ho ht => ⟨hV.1.step ho.stoppable ht, hV.2.step hV.1 ho ht⟩)).2
    obtain ⟨q₀, hq₀, hK⟩ := K₂.parent hj
    have hlive₀ := V₂.tree.parent_live j q₀ hq₀
    rw [hw] at L₂
    -- a creator that is alive is not leaving, for that takes `wait_lock`
    have hgone : (∀ q' k, (s₂.proc q').pid = (s.proc p).pid →
        Thread s₂.proc s₂.cpus q' k → Leaving j k.base) →
        ∀ q, (s₂.proc q).state.phase = .live → (s₂.proc q).pid ≠ (s.proc p).pid := by
      intro hall q hq hpid
      obtain ⟨k, ht⟩ := V₂.inv.sched.exists_thread hq
      have hexit := L₂.not_exiting V₂.inv.sched ht
      have hl := hall q k hpid ht
      revert hl hexit
      cases k.base <;> simp [Leaving, Pc.isExit]
    refine ⟨fun q hq hpid => ?_, fun hno => ?_⟩
    · rcases hK with hcp | ⟨-, hall⟩
      · rw [hq₀, V₂.pids.unique q₀ q (ne_unused_of_live hlive₀) (ne_unused_of_live hq)
          (hcp.trans hpid.symm)]
      · exact absurd hpid (hgone hall q hq)
    · rcases hK with hcp | ⟨he, -⟩
      · exact absurd hcp (hno q₀ hlive₀)
      · rw [hq₀, he]

/-- The first process forks a child, in slot 1, which forks a child, in slot 2;
they run on the processors 0, 1 and 2. -/
def threeGenerations : List Label :=
  forkChild ++ runChild 1 ++
    [(1, .call .fork), (1, .go), (1, .go), (1, .go), (1, .go), (1, .go), (1, .go),
      (2, .go), (2, .go), (2, .go), (2, .go)]

/-- The theorem at work on the grandchild: its `sys_getppid` returns 2, the pid
of its creator. -/
theorem family_tree_grandchild :
    ∃ s s', Lts.Runs step (StopsOnly inactive) (boot 0 AddrSpace.empty) s ∧
      Relation.ReflTransGen (ParentOf s) 2 s.initproc ∧ step s (2, .go) = some s' ∧
      (s'.cpus 2).pc = .ret 2 ∧ (s.proc 1).state.phase = .live := by
  obtain ⟨s, hrun, hcur, hinit, hst, hpar, hpid, hpc, s', hs', -⟩ :
      ∃ s ∈ Lts.runIf step (StopsOnly inactive) (boot 0 AddrSpace.empty)
        (threeGenerations ++ [(2, .call .getppid), (2, .go), (2, .go)]),
      (s.cpus 2).proc = some 2 ∧ s.initproc = 0 ∧ (s.proc 2).state = .running ∧
      (s.proc 2).parent = some 1 ∧ (s.proc 1).pid = 2 ∧ (s.cpus 2).pc.parentLoaded = some 1 ∧
      ∃ s' ∈ step s (2, .go), True := by decide +kernel
  replace hrun := Lts.runs_of_runIf hrun
  have h := family_tree hrun
  have hne : (2 : Slot) ≠ s.initproc := by
    rw [hinit]
    decide
  have hret := (h.2.1 2 2 s' hcur hne hs').2.2 1 (Pc.eq_of_parentLoaded hpc) hpar
  rw [hpid] at hret
  exact ⟨s, s', hrun, (h.1 2 (.inl (by rw [hst]; rfl)) hne).2.1, hs', hret.1, hret.2.2⟩

/-- **`sys_getppid` returns 0 to a process that has a parent.** The grandchild
has read the pointer to its parent, when the parent exits and is reaped; the
slot it points to is free when the grandchild reads the pid. Its parent is the
first process then, whose pid is 1. -/
theorem getppid_race : ∃ s s', Lts.Runs step (StopsOnly []) (boot 0 AddrSpace.empty) s ∧
      (s.cpus 2).proc = some 2 ∧ (s.proc 2).parent = some 0 ∧ (s.proc 0).pid = 1 ∧
      s.waitLock = none ∧ step s (2, .go) = some s' ∧ (s'.cpus 2).pc = .ret 0 := by
  obtain ⟨s, hrun, hcur, hpar, hpid, hw, s', hs', hret⟩ :
      ∃ s ∈ Lts.runIf step (StopsOnly []) (boot 0 AddrSpace.empty)
        (threeGenerations ++ [(2, .call .getppid), (2, .go), (2, .go)] ++ exitChild 7 ++
          List.replicate 65 (1, .go) ++
          [(0, .call (.wait 0)), (0, .go), (0, .go), (0, .go), (0, .go)]),
      (s.cpus 2).proc = some 2 ∧ (s.proc 2).parent = some 0 ∧ (s.proc 0).pid = 1 ∧
      s.waitLock = none ∧ ∃ s' ∈ step s (2, .go), (s'.cpus 2).pc.returns = some 0 := by
    decide +kernel
  exact ⟨s, s', Lts.runs_of_runIf hrun, hcur, hpar, hpid, hw, hs', Pc.eq_of_returns hret⟩

end Kernel

end Xv6
