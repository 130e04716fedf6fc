import OsProject.Threads

/-!
# Slots under construction

A slot that `fork` or `spawn` has taken is `USED` until its creator has filled
it. Three facts go together here and are proved together.

* The scheduling invariant `SchedInv` is kept by every step. The writes that
  could break it are those to another process's state: waking and signalling
  test the state they overwrite, except `sigstop`, and the creator's last
  assignment relies on the slot still being `USED`.
* A slot some thread is creating is `USED`, and no two threads create the same
  one (`MakeInv`).
* A step that is not a section of the table's own code is *silent*
  (`Silent`): it changes only which thread runs where.

All of it holds as long as `sigstop` finds its target asleep, runnable or a
zombie. On a `RUNNING` target it takes the mark off a process that is being
executed, and on a `USED` one it turns a slot under construction into a
sleeper that `sigcont`, `kill` or `wakeup` can make runnable.
-/

namespace Xv6

open AddrSpace Kernel Function Proc

namespace Kernel

variable {s s' : Kernel} {c : CpuId} {p j np q : Slot} {a : Act} {k' k k₂ : Pc} {P : Proc}
  {init : AddrSpace} {root : ℕ}

/-- A section of a process runs in its own code, except that a zombie that is
resumed panics. -/
theorem Work.mode (h : Work s c a p k k' s') : k.mode = .code ∨ k.mode = .locked := by
  cases h with
  | move k k' ha h | touch k j P k' ha h | acquire k k' h | release k h =>
    cases h <;> simp [Pc.mode]
  | _ => simp [Pc.mode]

/-- The process is `RUNNING`. -/
theorem Section.running (I : SchedInv s.proc s.cpus) (h : Section s c a p k k' s') :
    (s.proc p).state = .running := by
  refine I.running c p h.cur ?_
  rcases h.work.mode with hm | hm <;> rw [h.pc, hm] <;> simp

/-- Its thread is at the point it executes. -/
theorem Section.thread_self (h : Section s c a p k k' s') : Thread s.proc s.cpus p k := by
  have hm := h.work.mode
  rw [← h.pc] at hm ⊢
  exact thread_of_current h.cur hm

/-- A section is no interrupt and no return from a switch. -/
theorem Work.base_eq (h : Work s c a p k k' s') : k.base = k := by
  cases h with
  | move k k' ha h | touch k j P k' ha h | acquire k k' h | release k h => cases h <;> rfl
  | _ => rfl

/-- **What a section of process `p`, going from `k` to `k'`, makes of slot
`j`.** -/
inductive Change (s s' : Kernel) (p : Slot) (k k' : Pc) (j : Slot) : Prop where
  /-- The slot stays in its phase. -/
  | keep (hp : (s'.proc j).state.phase = (s.proc j).state.phase)
      (hc : (s.proc j).state = .used ∨ (s.proc j).state = .zombie →
        (s'.proc j).context = (s.proc j).context)
  /-- `allocproc` takes it. -/
  | create (hs : (s.proc j).state = .unused) (hk : k'.newProc = some j)
      (hs' : (s'.proc j).state = .used) (hc : (s'.proc j).context = .forkret)
      (hpid : (s'.proc j).pid = s.nextpid) (hnext : s'.nextpid = s.nextpid + 1)
  /-- A `spawn` that fails gives it back. -/
  | discard (hk : k = .spawnBad j) (hk' : k' = .ret (-1)) (hs' : (s'.proc j).state = .unused)
  /-- Its creator makes it runnable. -/
  | publish (pid : ℤ) (src : Source) (hk : k = .setRunnable j pid src) (hk' : k' = .ret pid)
      (hs' : (s'.proc j).state = .runnable) (hc : (s'.proc j).context = (s.proc j).context)
  /-- Its process exits. -/
  | die (st : ℤ) (hj : j = p) (hk : k = .exitZombie st) (hk' : k' = .zombieExit)
      (hs' : (s'.proc j).state = .zombie) (hc : (s'.proc j).context = .zombieExit)
  /-- It is reaped. -/
  | reap (sel : Sel) (addr : ℕ) (hk : k = .waitVisit sel addr j)
      (hs : (s.proc j).state = .zombie) (hs' : (s'.proc j).state = .unused)
  /-- It is a zombie, and `sigstop` writes over that. -/
  | stop (pid : ℤ) (hk : k = .signal .sigstop pid j) (hs : (s.proc j).state = .zombie)
      (hs' : (s'.proc j).state = .sleeping) (hc : (s'.proc j).context = (s.proc j).context)

/-- What the sections that write one slot make of it. -/
theorem Touch.change (h : Touch s p k j P k') (hP : s'.proc j = P)
    (hok : ∀ pid, k = .signal .sigstop pid j → (s.proc j).state ∈ stoppable) :
    Change s s' p k k' j := by
  have hctx := h.context_eq
  rw [← hP] at hctx
  cases h with
  | signal sig pid j =>
    -- only `sigstop` writes a state it has not tested
    cases sig with
    | sigstop =>
      have hmem := hok pid rfl
      rcases hst : (s.proc j).state with _ | _ | _ | _ | _ | _
      case zombie => exact .stop pid rfl hst (by simp [hP, Signal.body]) hctx
      all_goals
        simp only [hst] at hmem
        first
          | exact absurd hmem (by decide)
          | exact .keep (by simp [hP, Signal.body, hst, ProcState.phase]) (by simp [hst])
    | kill | sigcont =>
      refine .keep ?_ fun _ => hctx
      simp only [hP, Signal.body]
      split
      · next hs => rw [hs]; rfl
      · rfl
  | spawnBad => exact .discard rfl rfl (by simp [hP, freeproc])
  | setRunnable np pid src => exact .publish pid src rfl rfl (by rw [hP]) hctx
  | _ => exact .keep (by rw [hP]) (fun _ => hctx)

/-- **A section changes a slot in one of these ways**, if `sigstop` finds its
target stoppable. -/
theorem Section.change (I : SchedInv s.proc s.cpus) (hok : StopsOnly stoppable s (c, a))
    (h : Section s c a p k k' s') (j : Slot) : Change s s' p k k' j := by
  have hrun := h.running I
  have hpc := h.pc
  cases h.work.write j with
  | same k k' hP | own u hj hP => exact .keep (by rw [hP]) (fun _ => by rw [hP])
  | touch k k' P ha ht hP => exact ht.change hP (fun pid hk => ht.state_mem hok ha hpc hk)
  | allocFail cr hu hP => exact .keep (by rw [hP, hu]; rfl) (by simp [hu])
  | fork hu hn hP | spawn hu hn hP =>
    exact .create hu rfl (by rw [hP]; rfl) (by rw [hP]; rfl) (by rw [hP]; rfl) hn
  | reap sel addr hz hP => exact .reap sel addr rfl hz (by rw [hP]; rfl)
  | waitSleep sel addr k' c hj hP =>
    subst hj
    exact .keep (by rw [hP, hrun]; rfl) (by simp [hrun])
  | exitZombie st c hj hP => exact .die st hj rfl rfl (by rw [hP]) (by rw [hP])

/-- A slot that `Touch` leaves asleep or runnable was so before, or it was a
slot under construction or a zombie. -/
theorem Touch.saved (h : Touch s p k j P k')
    (hok : ∀ pid, k = .signal .sigstop pid j → (s.proc j).state ∈ stoppable)
    (hused : k.newProc = some j → (s.proc j).state = .used)
    (hs : P.state = .sleeping ∨ P.state = .runnable) :
    ((s.proc j).state = .sleeping ∨ (s.proc j).state = .runnable) ∨
      (s.proc j).state = .used ∨ (s.proc j).state = .zombie := by
  cases h with
  | signal sig pid =>
    cases sig with
    | sigstop =>
      have hmem := hok pid rfl
      simp only [List.mem_cons, List.not_mem_nil, or_false] at hmem
      tauto
    | kill | sigcont =>
      simp only [Signal.body] at hs
      split at hs
      · next hsl => exact .inl (.inl hsl)
      · exact .inl hs
  | setRunnable => exact .inr (.inl (hused rfl))
  | spawnBad => simp [freeproc] at hs
  | _ => exact .inl hs

/-- **The threads after a section of process `p`**: its own is at the new
point, those of other processes are where they were, and a slot that has
become one that can be switched to adds one. -/
theorem Section.thread (I : SchedInv s.proc s.cpus) (hok : StopsOnly stoppable s (c, a))
    (hused : ∀ np, k.newProc = some np → (s.proc np).state = .used) (h : Section s c a p k k' s')
    (ht : Thread s'.proc s'.cpus q k₂) :
    q = p ∧ k₂ = k' ∨ q ≠ p ∧ (Thread s.proc s.cpus q k₂ ∨
      k₂ = (s.proc q).context ∧ ((s.proc q).state = .used ∨ (s.proc q).state = .zombie)) := by
  obtain ⟨hcur, hpc, h⟩ := h
  have hm := h.mode
  rw [← hpc] at hm
  -- every section but the two that switch writes the table and then moves `c`
  have hmove : ∀ {T : Slot → Proc}, SchedInv T s.cpus →
      Thread T (update s.cpus c { s.cpus c with pc := k' }) q k₂ →
      q = p ∧ k₂ = k' ∨ q ≠ p ∧ Thread T s.cpus q k₂ := by
    intro T I' ht'
    rcases Thread.of_setPc I' (.inr hm) ht' with ⟨hq, hk⟩ | ⟨hq, ht'⟩
    · rw [hcur, Option.some.injEq] at hq
      exact .inl ⟨hq.symm, hk⟩
    · exact .inr ⟨fun e => hq (e ▸ hcur), ht'⟩
  have hset : ∀ {j : Slot} {P : Proc}, SchedInv (update s.proc j P) s.cpus →
      P.state = .unused ∨ P.state = .used ∨ P.state = (s.proc j).state ∧
        P.context = (s.proc j).context →
      Thread (update s.proc j P) (update s.cpus c { s.cpus c with pc := k' }) q k₂ →
      q = p ∧ k₂ = k' ∨ q ≠ p ∧ (Thread s.proc s.cpus q k₂ ∨
        k₂ = (s.proc q).context ∧ ((s.proc q).state = .used ∨ (s.proc q).state = .zombie)) := by
    intro j P I' hP ht'
    refine (hmove I' ht').imp_right (And.imp_right (fun ht' => .inl ?_))
    rcases ht'.of_setProc with ht' | ⟨rfl, hs, hk⟩
    · exact ht'
    · rcases hP with hu | hu | ⟨hst, hctx⟩
      · rw [hu] at hs
        simp at hs
      · rw [hu] at hs
        simp at hs
      · exact .inr ⟨hst ▸ hs, hctx ▸ hk⟩
  cases h with
  | touch k j P k' ha h =>
    have hstop : ∀ pid, k = .signal .sigstop pid j → (s.proc j).state ∈ stoppable :=
      fun pid hk => h.state_mem hok ha hpc hk
    refine (hmove (I.touch h hstop (hused j)) ht).imp_right (And.imp_right (fun ht' => ?_))
    rcases ht'.of_setProc with ht' | ⟨rfl, hs, hk⟩
    · exact .inl ht'
    · rw [h.context_eq] at hk
      rcases h.saved hstop (hused _) hs with hs | hs
      · exact .inl (.inr ⟨hs, hk⟩)
      · exact .inr ⟨hk.symm, hs⟩
  | own =>
    refine hset ?_ (.inr (.inr ⟨?_, ?_⟩)) ht
    · exact I.setSame rfl rfl rfl
    · rfl
    · rfl
  | allocFail j cr hl hu =>
    refine hset ?_ ?_ ht
    · exact I.setState hl rfl (by simp [hu]) (by simp [freeproc]) (by simp [freeproc])
    · exact .inl rfl
  | fork j hl hu | spawn j hl hu =>
    refine hset ?_ ?_ ht
    · exact I.setState hl rfl (by simp [hu]) (by simp [forkFill, alloc]) fun _ => rfl
    · exact .inr (.inl rfl)
  | reap sel addr j hl hz =>
    refine hset ?_ ?_ ht
    · exact I.setState hl rfl (by simp [hz]) (by simp [freeproc]) (by simp [freeproc])
    · exact .inl rfl
  | waitSleep | exitZombie =>
    rcases Thread.of_switchOut I hcur (by rw [hpc]; rfl) ht with ⟨hq, hk, -⟩ | ⟨hq, ht⟩
    · exact .inl ⟨hq, hk⟩
    · exact .inr ⟨hq, .inl ht⟩
  | _ => exact (hmove I ht).imp_right (And.imp_right .inl)

/-! ## The slots under construction -/

/-- **The construction invariant.** -/
structure MakeInv (s : Kernel) : Prop where
  /-- A slot that a thread is filling is `USED`. -/
  used : ∀ p k np, Thread s.proc s.cpus p k → k.newProc = some np → (s.proc np).state = .used
  /-- It is filled by one thread. -/
  unique : ∀ p p' k k' np, Thread s.proc s.cpus p k → Thread s.proc s.cpus p' k' →
    k.newProc = some np → k'.newProc = some np → p = p'
  /-- It will start in `forkret`. -/
  fresh : ∀ j, (s.proc j).state = .used → (s.proc j).context = .forkret
  /-- A zombie would continue with its panic. -/
  dead : ∀ j, (s.proc j).state = .zombie → (s.proc j).context = .zombieExit

/-- What is created depends on the function a thread executes only. -/
theorem newProc_congr (h : k.base = k'.base) : k.newProc = k'.newProc := by
  unfold Pc.newProc
  rw [h]

theorem MakeInv.silent (M : MakeInv s) (h : Silent s s') : MakeInv s' := by
  constructor
  · intro p k' np ht hnp
    obtain ⟨k, ht, hb⟩ := h.thread p k' ht
    exact (h.state_iff (by decide)).mpr (M.used p k np ht (by rw [newProc_congr hb]; exact hnp))
  · intro p p' k k' np ht ht' hnp hnp'
    obtain ⟨k₁, ht, hb⟩ := h.thread p k ht
    obtain ⟨k₁', ht', hb'⟩ := h.thread p' k' ht'
    exact M.unique p p' k₁ k₁' np ht ht' (by rw [newProc_congr hb]; exact hnp)
      (by rw [newProc_congr hb']; exact hnp')
  · intro j hj
    rw [(h.rest j (by rw [hj]; decide)).2]
    exact M.fresh j ((h.state_iff (by decide)).mp hj)
  · intro j hj
    rw [(h.rest j (by rw [hj]; decide)).2]
    exact M.dead j ((h.state_iff (by decide)).mp hj)

/-- A section goes on filling the same slot, stops filling one, or takes a
free one. -/
theorem Work.newProc (h : Work s c a p k k' s') : k'.newProc = none ∨ k'.newProc = k.newProc ∨
      ∃ j, k'.newProc = some j ∧ (s.proc j).state = .unused ∧ (s'.proc j).state = .used := by
  cases h with
  | move k k' ha h | touch k j P k' ha h | acquire k k' h =>
    cases h <;> simp [Pc.newProc, Pc.base]
  | fork j hl hu =>
    exact .inr (.inr ⟨j, rfl, hu, by simp [forkFill, alloc]⟩)
  | spawn j hl hu => exact .inr (.inr ⟨j, rfl, hu, by simp [alloc]⟩)
  | _ => simp [Pc.newProc, Pc.base]

/-- A slot under construction stays so, unless its own creator ends it. -/
theorem Change.used (h : Change s s' p k k' j) (hrun : (s.proc p).state = .running)
    (hj : (s.proc j).state = .used) :
    (s'.proc j).state = .used ∨ k.newProc = some j ∧ k'.newProc = none := by
  cases h with
  | keep hp => exact .inl (ProcState.eq_of_phase hp hj nofun)
  | create hs | reap sel addr hk hs | stop pid hk hs => simp [hj] at hs
  | discard hk hk' | publish pid src hk hk' =>
    exact .inr (by subst hk hk'; exact ⟨rfl, rfl⟩)
  | die st he => simp [he, hrun] at hj

/-- A slot that is under construction or a zombie afterwards was so before,
or is at the start of that phase. -/
theorem Change.context (h : Change s s' p k k' j) {st : ProcState} (hst : st = .used ∨ st = .zombie)
    (hj : (s'.proc j).state = st) :
    (s.proc j).state = st ∧ (s'.proc j).context = (s.proc j).context ∨
      st = .used ∧ (s'.proc j).context = .forkret ∨
      st = .zombie ∧ (s'.proc j).context = .zombieExit := by
  cases h with
  | keep hp hc =>
    have hs : (s.proc j).state = st :=
      ProcState.eq_of_phase hp.symm hj (by rcases hst with rfl | rfl <;> decide)
    exact .inl ⟨hs, hc (hs ▸ hst)⟩
  | create hs hk hs' hc => exact .inr (.inl ⟨hj.symm.trans hs', hc⟩)
  | die st' he hk hk' hs' hc => exact .inr (.inr ⟨hj.symm.trans hs', hc⟩)
  | discard hk hk' hs' | publish pid src hk hk' hs' | reap sel addr hk hs hs'
  | stop pid hk hs hs' => simp [← hj, hs'] at hst

theorem MakeInv.work (M : MakeInv s) (I : SchedInv s.proc s.cpus)
    (hok : StopsOnly stoppable s (c, a)) (h : Section s c a p k k' s') : MakeInv s' := by
  have hme := h.thread_self
  have hrun := h.running I
  have hthread := fun {q k₂} (ht : Thread s'.proc s'.cpus q k₂) =>
    h.thread I hok (fun np => M.used p k np hme) ht
  -- a thread that has just become one that can be switched to creates nothing
  have hnew : ∀ q, (s.proc q).state = .used ∨ (s.proc q).state = .zombie →
      (s.proc q).context.newProc = none := by
    rintro q (hq | hq)
    · rw [M.fresh q hq]; rfl
    · rw [M.dead q hq]; rfl
  -- so a thread that creates something is the one that moved or an old one
  have hold : ∀ q k₂ np, Thread s'.proc s'.cpus q k₂ → k₂.newProc = some np →
      q = p ∧ k₂ = k' ∨ q ≠ p ∧ Thread s.proc s.cpus q k₂ := by
    intro q k₂ np ht hnp
    rcases hthread ht with h | ⟨hq, ht | ⟨rfl, hs⟩⟩
    · exact .inl h
    · exact .inr ⟨hq, ht⟩
    · rw [hnew q hs] at hnp
      cases hnp
  have hother : ∀ q k₂ np, q ≠ p → Thread s.proc s.cpus q k₂ → k₂.newProc = some np →
      k'.newProc ≠ some np := by
    intro q k₂ np hq ht hnp hk'
    rcases h.work.newProc with hn | hn | ⟨j, hn, hu, -⟩
    · rw [hn] at hk'
      cases hk'
    · exact hq (M.unique q p k₂ k np ht hme hnp (hn ▸ hk'))
    · rw [hk', Option.some.injEq] at hn
      have := M.used q k₂ np ht hnp
      rw [hn, hu] at this
      cases this
  constructor
  · intro q k₂ np ht hnp
    rcases hold q k₂ np ht hnp with ⟨rfl, rfl⟩ | ⟨hq, ht⟩
    · rcases h.work.newProc with hn | hn | ⟨j, hn, -, hu⟩
      · rw [hn] at hnp
        cases hnp
      · have hu := M.used q k np hme (hn ▸ hnp)
        rcases (h.change I hok np).used hrun hu with h | ⟨-, h⟩
        · exact h
        · rw [h] at hnp
          cases hnp
      · rw [hnp, Option.some.injEq] at hn
        rw [hn, hu]
    · have hu := M.used q k₂ np ht hnp
      rcases (h.change I hok np).used hrun hu with h | ⟨hk, -⟩
      · exact h
      · exact absurd (M.unique q p k₂ k np ht hme hnp hk) hq
  · intro q q' k₂ k₂' np ht ht' hnp hnp'
    rcases hold q k₂ np ht hnp with ⟨rfl, rfl⟩ | ⟨hq, ht⟩ <;>
      rcases hold q' k₂' np ht' hnp' with ⟨rfl, rfl⟩ | ⟨hq', ht'⟩
    · rfl
    · exact absurd hnp (hother q' k₂' np hq' ht' hnp')
    · exact absurd hnp' (hother q k₂ np hq ht hnp)
    · exact M.unique q q' k₂ k₂' np ht ht' hnp hnp'
  · intro j hj
    rcases (h.change I hok j).context (.inl rfl) hj with ⟨hs, hc⟩ | ⟨-, hc⟩ | ⟨hs, -⟩
    · rw [hc]
      exact M.fresh j hs
    · exact hc
    · cases hs
  · intro j hj
    rcases (h.change I hok j).context (.inr rfl) hj with ⟨hs, hc⟩ | ⟨hs, -⟩ | ⟨-, hc⟩
    · rw [hc]
      exact M.dead j hs
    · cases hs
    · exact hc

/-! ## The invariant of the process table -/

/-- **The invariant of the process table.** -/
structure Inv (s : Kernel) : Prop where
  sched : SchedInv s.proc s.cpus
  make : MakeInv s

theorem boot_proc (root : ℕ) (init : AddrSpace) (hj : j ≠ 0) :
    (boot root init).proc j = zeroed := by
  simp [boot, hj]

theorem boot_context (root : ℕ) (init : AddrSpace) (j : Slot) :
    ((boot root init).proc j).context = .forkret :=
  update_keeps context (T := fun _ => zeroed) (P := userinit root) rfl j

theorem Inv.boot (root : ℕ) (init : AddrSpace) : Inv (boot root init) := by
  have hstate : ∀ j, ((Kernel.boot root init).proc j).state = .unused ∨
      ((Kernel.boot root init).proc j).state = .runnable := by
    intro j
    by_cases hj : j = 0
    · subst hj
      exact .inr rfl
    · exact .inl (by simp [Kernel.boot, hj, zeroed])
  have hctx := boot_context root init
  have hthread : ∀ p k, Thread (Kernel.boot root init).proc (Kernel.boot root init).cpus p k →
      k.newProc = none := by
    rintro p k (⟨c, hc, -⟩ | ⟨-, rfl⟩)
    · cases hc
    · rw [hctx]
      rfl
  have hlock : ∀ j, ((Kernel.boot root init).proc j).lock = none := update_keeps lock rfl
  constructor
  · constructor
    · exact fun c _ => rfl
    · exact fun c j hm => by cases hm
    · exact fun c hm => by rcases hm with hm | hm <;> cases hm
    · exact fun c => by simp [Kernel.boot, Pc.mode]
    · intro j c
      rw [hlock]
      simp [Kernel.boot]
    · exact fun c p hc => by cases hc
    · intro p hp
      rcases hstate p with h | h <;> rw [h] at hp <;> cases hp
    · exact fun c c' p hc => by cases hc
    · intro j _ _
      rw [hctx]
      rfl
  · constructor
    · intro p k np ht hnp
      rw [hthread p k ht] at hnp
      cases hnp
    · intro p p' k k' np ht _ hnp
      rw [hthread p k ht] at hnp
      cases hnp
    · exact fun j _ => hctx j
    · intro j hj
      rcases hstate j with h | h <;> rw [h] at hj <;> cases hj

/-- What a processor executes for a process creates a slot that is `USED`. -/
theorem Inv.used (I : Inv s) (hcur : (s.cpus c).proc = some p)
    (hnp : (s.cpus c).pc.newProc = some np) : (s.proc np).state = .used := by
  cases hm : (s.cpus c).pc.mode with
  | code => exact I.make.used p _ np (thread_of_current hcur (.inl hm)) hnp
  | locked => exact I.make.used p _ np (thread_of_current hcur (.inr hm)) hnp
  | idle =>
    rw [I.sched.idle c hm] at hcur
    cases hcur
  | bad => exact absurd hm (I.sched.good c)
  | back =>
    rw [Pc.eq_of_mode_back hm] at hnp
    cases hnp

/-- **The invariant is kept by every step**, if `sigstop` finds its target
stoppable. -/
theorem Inv.step {l : Label} (I : Inv s) (hok : StopsOnly stoppable s l)
    (h : step s l = some s') : Inv s' := by
  have hs := step_cases h
  refine ⟨I.sched.step hok (fun c p np hcur hnp => I.used hcur hnp) hs, ?_⟩
  rcases hs.silent_or_work I.sched with hsil | ⟨p, k, k', hw⟩
  · exact I.make.silent hsil
  · exact I.make.work I.sched hok hw

/-- What a section fills is `USED`. -/
theorem Section.used (I : Inv s) (h : Section s c a p k k' s')
    (hk : k.newProc = some np) : (s.proc np).state = .used :=
  I.make.used p k np h.thread_self hk

/-- **The threads after a section**, in a state in which the invariant holds: a thread that has
become one that can be switched to is at the start of `forkret` or at the end of `exit`. -/
theorem Section.threads (I : Inv s) (hok : StopsOnly stoppable s (c, a))
    (h : Section s c a p k k' s') (ht : Thread s'.proc s'.cpus q k₂) :
    q = p ∧ k₂ = k' ∨ q ≠ p ∧ (Thread s.proc s.cpus q k₂ ∨
      (s.proc q).state = .used ∧ k₂ = .forkret ∨
      (s.proc q).state = .zombie ∧ k₂ = .zombieExit) := by
  refine (h.thread I.sched hok (fun _ => h.used I) ht).imp_right (And.imp_right (Or.imp_right ?_))
  rintro ⟨rfl, hs | hs⟩
  · exact .inl ⟨hs, I.make.fresh q hs⟩
  · exact .inr ⟨hs, I.make.dead q hs⟩

/-- **It holds in every state of a run.** -/
theorem Inv.of_runs (h : Lts.Runs Kernel.step (StopsOnly stoppable) (Kernel.boot root init) s) :
    Inv s :=
  h.invariant (Inv.boot root init) (fun _ _ _ I hok hs => I.step hok hs)

/-- **The rule for further invariants of the table**: a property that silent
steps keep and that the sections of a process keep holds in every state of a
run. -/
theorem Inv.rule {ok : Kernel → Label → Prop} {J : Kernel → Prop}
    (h : Lts.Runs Kernel.step ok (Kernel.boot root init) s)
    (hok : ∀ s l, ok s l → StopsOnly stoppable s l) (h₀ : J (Kernel.boot root init))
    (hsilent : ∀ s s', Inv s → J s → Silent s s' → J s')
    (hwork : ∀ s s' c a p k k', Inv s → Inv s' → J s → ok s (c, a) →
      Section s c a p k k' s' → J s') : J s := by
  refine (h.invariant (I := fun s => Inv s ∧ J s) ⟨Inv.boot root init, h₀⟩ ?_).2
  rintro s l s' ⟨I, hJ⟩ hl hs
  have I' := I.step (hok s l hl) hs
  refine ⟨I', ?_⟩
  rcases (step_cases hs).silent_or_work I.sched with hsil | ⟨p, k, k', hw⟩
  · exact hsilent s s' I hJ hsil
  · exact hwork s s' l.1 l.2 p k k' I I' hJ hl hw

/-! ## One processor per process -/

/-- **In a run in which `sigstop` never hits a process that is `RUNNING` or
still under construction, no process is current on two processors, and a
process that is current and whose lock is free is `RUNNING`.** -/
theorem current_unique_and_running {root : ℕ} {init : AddrSpace}
    (h : Lts.Runs Kernel.step (StopsOnly stoppable) (Kernel.boot root init) s) :
    (∀ c c' p, (s.cpus c).proc = some p → (s.cpus c').proc = some p → c = c') ∧
      ∀ c p, (s.cpus c).proc = some p → (s.proc p).lock = none → (s.proc p).state = .running := by
  have I := (Inv.of_runs h).sched
  refine ⟨I.unique, fun c p hcur hl => ?_⟩
  by_contra hne
  exact I.not_current hl hne c hcur

/-- Processor 0 runs the first process, which forks a child with pid 2 and
returns to user code. -/
def forkChild : List Label :=
  [(0, .go), (0, .go), (0, .call .fork), (0, .go), (0, .go), (0, .go), (0, .go), (0, .go)]

/-- Processor `c` picks the child of `forkChild`, in slot 1, and runs it. -/
def runChild (c : CpuId) : List Label := [(c, .go), (c, .go), (c, .go)]

/-- The process of processor 0 makes a system call that looks for the process
in slot 1 and returns. -/
def callOnSlot1 (sc : Syscall) : List Label :=
  [(0, .call sc), (0, .go), (0, .go), (0, .go)]

/-- The theorem at work in a run with a `sigstop`: of a child that is
`RUNNABLE`. -/
theorem current_unique_and_running_stopped :
    ∃ s, Lts.Runs step (StopsOnly stoppable) (boot 0 empty) s ∧
      (s.proc 1).state = .sleeping ∧ (s.cpus 0).proc = some 0 ∧
      (∀ c, (s.cpus c).proc = some 0 → c = 0) ∧ (s.proc 0).state = .running := by
  obtain ⟨s, hrun, hsl, hcur, hl⟩ : ∃ s ∈ Lts.runIf step (StopsOnly stoppable) (boot 0 empty)
      (forkChild ++ callOnSlot1 (.sigstop 2)), (s.proc 1).state = .sleeping ∧
      (s.cpus 0).proc = some 0 ∧ (s.proc 0).lock = none := by decide +kernel
  replace hrun := Lts.runs_of_runIf hrun
  have h := current_unique_and_running hrun
  exact ⟨s, hrun, hsl, hcur, fun c hc => h.1 c 0 0 hc hcur, h.2 0 0 hcur hl⟩

/-- **`sigstop` of a child that another processor is running** leaves a current
process that is `SLEEPING` with its lock free, and a `sigcont` later a third
processor picks the same process. -/
theorem sigstop_running_current_twice : (∃ s, Lts.Runs step (fun _ _ => True) (boot 0 empty) s ∧
      (s.cpus 1).proc = some 1 ∧ (s.proc 1).lock = none ∧ (s.proc 1).state = .sleeping) ∧
    ∃ s, Lts.Runs step (fun _ _ => True) (boot 0 empty) s ∧
      (s.cpus 1).proc = some 1 ∧ (s.cpus 2).proc = some 1 := by
  constructor
  · exact Lts.exists_runs (forkChild ++ runChild 1 ++ callOnSlot1 (.sigstop 2)) (by decide +kernel)
  · exact Lts.exists_runs (forkChild ++ runChild 1 ++ callOnSlot1 (.sigstop 2) ++
      callOnSlot1 (.sigcont 2) ++ runChild 2) (by decide +kernel)

end Kernel

end Xv6
