import OsProject.SchedInvariant

/-!
# Kernel threads

The code of a process continues on the processor the process is current on,
and while it is on none, from the context saved in its slot. `Thread T C p k`
says that the thread of process `p` is at the control point `k`, wherever that
is recorded.

A switch moves a thread from the one place to the other without changing where
it is, so an invariant about threads need not mention switching. For each way
in which a step changes the table and the processors, the lemmas below say
which threads there are afterwards: those there were before, except that the
process that moved is at its new point.
-/

namespace Xv6

open Proc ProcState

open Function (update update_of_ne update_self)

namespace Kernel

variable {T : Slot → Proc} {C : CpuId → Cpu}
variable {s s' : Kernel} {c : CpuId} {p q j : Slot} {a : Act} {k k' : Pc} {P : Proc}

/-- The thread of process `p` is at `k`. -/
def Thread (T : Slot → Proc) (C : CpuId → Cpu) (p : Slot) (k : Pc) : Prop :=
  (∃ c, (C c).proc = some p ∧ (C c).pc = k ∧ (k.mode = .code ∨ k.mode = .locked)) ∨
    (((T p).state = .sleeping ∨ (T p).state = .runnable) ∧ (T p).context = k)

/-- What a processor executes for its current process is that process's
thread. -/
theorem thread_of_current (hcur : (C c).proc = some p)
    (hm : (C c).pc.mode = .code ∨ (C c).pc.mode = .locked) : Thread T C p (C c).pc :=
  .inl ⟨c, hcur, rfl, hm⟩

namespace SchedInv

/-- A process whose code runs is not also waiting in its slot. -/
theorem not_saved (I : SchedInv T C) (hcur : (C c).proc = some p)
    (hm : (C c).pc.mode = .code ∨ (C c).pc.mode = .locked) :
    ¬ ((T p).state = .sleeping ∨ (T p).state = .runnable) := by
  have hrun := I.running c p hcur (by rcases hm with h | h <;> rw [h] <;> simp)
  rw [hrun]
  simp

end SchedInv

/-- Moving a processor changes the thread of its current process only. -/
theorem Thread.of_setPc (I : SchedInv T C)
    (hm : (C c).pc.mode = .idle ∨ (C c).pc.mode = .code ∨ (C c).pc.mode = .locked)
    (h : Thread T (update C c { C c with pc := k' }) q k) :
    (C c).proc = some q ∧ k = k' ∨ (C c).proc ≠ some q ∧ Thread T C q k := by
  rcases h with ⟨c', hc', hk, hmk⟩ | ⟨hs, hk⟩
  · by_cases e : c' = c
    · subst e
      simp only [update_self] at hc' hk
      exact .inl ⟨hc', hk.symm⟩
    · simp only [update_of_ne e] at hc' hk
      refine .inr ⟨fun hc => e (I.unique c' c q hc' hc), .inl ⟨c', hc', hk, hmk⟩⟩
  · refine .inr ⟨fun hc => ?_, .inr ⟨hs, hk⟩⟩
    rcases hm with hm | hm
    · rw [I.idle c hm] at hc
      cases hc
    · exact I.not_saved hc hm hs

/-- Writing a slot changes threads only if the slot becomes one that can be
switched to. -/
theorem Thread.of_setProc (h : Thread (update T j P) C q k) :
    Thread T C q k ∨ q = j ∧ (P.state = .sleeping ∨ P.state = .runnable) ∧ P.context = k := by
  rcases h with hcpu | ⟨hs, hk⟩
  · exact .inl (.inl hcpu)
  · by_cases e : q = j
    · subst e
      simp only [update_self] at hs hk
      exact .inr ⟨rfl, hs, hk⟩
    · simp only [update_of_ne e] at hs hk
      exact .inl (.inr ⟨hs, hk⟩)

/-- The threads when a slot and a processor are written: on that processor or on another
one, in that slot or in another one. -/
theorem Thread.of_update {D : Cpu} (h : Thread (update T j P) (update C c D) q k) :
    D.proc = some q ∧ D.pc = k ∧ (k.mode = .code ∨ k.mode = .locked) ∨
    (∃ c', c' ≠ c ∧ (C c').proc = some q ∧ (C c').pc = k ∧ (k.mode = .code ∨ k.mode = .locked)) ∨
    q = j ∧ (P.state = .sleeping ∨ P.state = .runnable) ∧ P.context = k ∨
    q ≠ j ∧ ((T q).state = .sleeping ∨ (T q).state = .runnable) ∧ (T q).context = k := by
  rcases h with ⟨c', h⟩ | h
  · by_cases e : c' = c
    · subst e
      rw [update_self] at h
      exact .inl h
    · rw [update_of_ne e] at h
      exact .inr (.inl ⟨c', e, h⟩)
  · by_cases e : q = j
    · subst e
      rw [update_self] at h
      exact .inr (.inr (.inl ⟨rfl, h⟩))
    · rw [update_of_ne e] at h
      exact .inr (.inr (.inr ⟨e, h⟩))

/-- Switching to a process keeps every thread. -/
theorem Thread.of_dispatch (hr : (T j).state = .runnable)
    (h : Thread (update T j { T j with state := .running, lock := some c }) (update C c
        { proc := some j, pc := (T j).context, context := .schedulerBack j }) q k) :
    Thread T C q k := by
  rcases h.of_update with ⟨hc, hk, -⟩ | ⟨c', -, h⟩ | ⟨-, hs, -⟩ | ⟨-, h⟩
  · cases hc
    exact .inr ⟨.inr hr, hk⟩
  · exact .inl ⟨c', h⟩
  · simp at hs
  · exact .inr h

/-- So does the release of its lock by the scheduler. -/
theorem Thread.of_release (h : Thread (update T j { T j with lock := none })
      (update C c { C c with proc := none, pc := k' }) q k) : Thread T C q k := by
  rcases h.of_update with ⟨hc, -⟩ | ⟨c', -, h⟩ | ⟨rfl, h⟩ | ⟨-, h⟩
  · cases hc
  · exact .inl ⟨c', h⟩
  · exact .inr h
  · exact .inr h

/-- Switching from a process saves its thread. -/
theorem Thread.of_switchOut (I : SchedInv T C) (hcur : (C c).proc = some p)
    (hm : (C c).pc.mode = .code) (h : Thread (update T p { P with lock := some c, context := k' })
      (update C c { C c with pc := (C c).context }) q k) :
    q = p ∧ k = k' ∧ (P.state = .sleeping ∨ P.state = .runnable) ∨ q ≠ p ∧ Thread T C q k := by
  obtain ⟨_, _, hctx⟩ := I.code c (.inl hm)
  rcases h.of_update with ⟨-, hk, hmk⟩ | ⟨c', e, hc', h⟩ | ⟨hq, hs, hk⟩ | ⟨hq, h⟩
  · rw [← hk, hctx] at hmk
    simp [Pc.mode] at hmk
  · refine .inr ⟨?_, .inl ⟨c', hc', h⟩⟩
    rintro rfl
    exact e (I.unique c' c q hc' hcur)
  · exact .inl ⟨hq, hk.symm, hs⟩
  · exact .inr ⟨hq, .inr h⟩

/-- A process that was switched to goes on. -/
theorem Thread.of_resume (I : SchedInv T C) (hcur : (C c).proc = some p)
    (hm : (C c).pc.mode = .locked) (hs : P.state = (T p).state)
    (h : Thread (update T p P) (update C c { C c with pc := k' }) q k) :
    q = p ∧ k = k' ∨ q ≠ p ∧ Thread T C q k := by
  rcases h.of_update with ⟨hc, hk, -⟩ | ⟨c', e, hc', h⟩ | ⟨-, hst, -⟩ | ⟨hq, h⟩
  · exact .inl ⟨Option.some.inj (hc.symm.trans hcur), hk.symm⟩
  · refine .inr ⟨?_, .inl ⟨c', hc', h⟩⟩
    rintro rfl
    exact e (I.unique c' c q hc' hcur)
  · rw [hs] at hst
    exact absurd hst (I.not_saved hcur (.inr hm))
  · exact .inr ⟨hq, .inr h⟩

/-! ## Silent steps

Scheduling, switching, waking and interrupts change which thread runs where,
and nothing else. -/

end Kernel

/-- What a state means to everyone but the scheduler. -/
inductive Phase where
  | unused | used | live | zombie
  deriving DecidableEq

/-- The three states of a process that has been created and has not exited are
one phase. -/
def ProcState.phase : ProcState → Phase
  | .unused => .unused
  | .used => .used
  | .zombie => .zombie
  | .sleeping | .runnable | .running => .live

/-- A phase other than `live` is one state. -/
theorem ProcState.eq_of_phase {st st' t : ProcState} (h : st.phase = st'.phase) (ht : st' = t)
    (hne : t.phase ≠ .live) : st = t := by
  subst ht
  cases st <;> cases st' <;> simp_all [phase]

/-- The part of a slot that scheduling does not write. -/
structure Data where
  phase : Phase
  killed : Bool
  xstate : ℤ
  pid : ℤ
  parent : Option Slot
  sz : ℕ
  pagetable : Bool
  trapframe : Option Trapframe
  ofile : Fin NOFILE → Option ℕ
  cwd : Option ℕ

/-- The part of a slot that scheduling does not write. -/
def Proc.data (P : Proc) : Data :=
  { P with phase := P.state.phase }

namespace Kernel

/-- **A silent step**: no slot's data changes, nothing at all changes in a slot
that is not live, and every thread executes what it executed before. -/
structure Silent (s s' : Kernel) : Prop where
  data : ∀ j, (s'.proc j).data = (s.proc j).data
  rest : ∀ j, (s'.proc j).state.phase ≠ .live →
    (s'.proc j).chan = (s.proc j).chan ∧ (s'.proc j).context = (s.proc j).context
  umem : s'.umem = s.umem
  nextpid : s'.nextpid = s.nextpid
  initproc : s'.initproc = s.initproc
  thread : ∀ q k', Thread s'.proc s'.cpus q k' →
    ∃ k, Thread s.proc s.cpus q k ∧ k.base = k'.base

/-- A process with a thread has been created and has not exited. -/
theorem SchedInv.thread_live (I : SchedInv T C) {q : Slot} {k : Pc} (h : Thread T C q k) :
    (T q).state.phase = .live := by
  rcases h with ⟨c, hc, rfl, hm⟩ | ⟨hs | hs, -⟩
  · rw [I.running c q hc (by rcases hm with h | h <;> rw [h] <;> simp)]
    rfl
  · rw [hs]
    rfl
  · rw [hs]
    rfl

/-- **A process that has been created and has not exited has a thread.** -/
theorem SchedInv.exists_thread (I : SchedInv T C) {q : Slot} (h : (T q).state.phase = .live) :
    ∃ k, Thread T C q k := by
  cases hs : (T q).state with
  | running =>
    obtain ⟨_, hc, hm⟩ := I.current q hs
    exact ⟨_, thread_of_current hc hm⟩
  | sleeping => exact ⟨_, .inr ⟨.inl hs, rfl⟩⟩
  | runnable => exact ⟨_, .inr ⟨.inr hs, rfl⟩⟩
  | unused | used | zombie =>
    rw [hs] at h
    cases h

theorem Silent.phase (h : Silent s s') (j : Slot) :
    (s'.proc j).state.phase = (s.proc j).state.phase :=
  congrArg Data.phase (h.data j)

theorem Silent.pid (h : Silent s s') (j : Slot) : (s'.proc j).pid = (s.proc j).pid :=
  congrArg Data.pid (h.data j)

theorem Silent.parent (h : Silent s s') (j : Slot) : (s'.proc j).parent = (s.proc j).parent :=
  congrArg Data.parent (h.data j)

/-- A slot that is not live stays in its state. -/
theorem Silent.state_iff (h : Silent s s') {j : Slot} {st : ProcState} (hst : st.phase ≠ .live) :
    (s'.proc j).state = st ↔ (s.proc j).state = st :=
  ⟨fun hj => eq_of_phase (h.phase j).symm hj hst, fun hj => eq_of_phase (h.phase j) hj hst⟩

/-- Moving a processor is silent if its thread executes the same as before. -/
theorem Silent.of_setPc (I : SchedInv s.proc s.cpus) {k' : Pc} (hm : (s.cpus c).pc.mode = .idle ∨
      (s.cpus c).pc.mode = .code ∧ (s.cpus c).pc.base = k'.base) (w : Option CpuId) :
    Silent s ({ s with waitLock := w }.goto c k') := by
  refine ⟨fun j => rfl, fun _ _ => ⟨rfl, rfl⟩, rfl, rfl, rfl, fun q k ht => ?_⟩
  rcases Thread.of_setPc I (hm.imp_right (fun h => .inl h.1)) ht with ⟨hq, rfl⟩ | ⟨-, ht⟩
  · rcases hm with hm | ⟨hm, hb⟩
    · rw [I.idle c hm] at hq
      cases hq
    · exact ⟨_, thread_of_current hq (.inl hm), hb⟩
  · exact ⟨k, ht, rfl⟩

/-- So is giving up the processor. -/
theorem Silent.of_switchOut (I : SchedInv s.proc s.cpus) {P : Proc} {k' : Pc}
    (hcur : (s.cpus c).proc = some p) (hm : (s.cpus c).pc.mode = .code)
    (hb : (s.cpus c).pc.base = k'.base) (hd : P.data = (s.proc p).data)
    (w : Option CpuId) : Silent s (s.switchOut c p P k' w) := by
  have hlive : (s.proc p).state = .running := I.running c p hcur (by rw [hm]; simp)
  have hphase : P.state.phase = .live := by
    have hph := congrArg Data.phase hd
    rwa [Proc.data, Proc.data, hlive] at hph
  refine ⟨fun j => update_keeps Proc.data (P := { P with lock := some c, context := k' }) hd j,
    fun j hu => ?_, rfl, rfl, rfl, fun q k ht => ?_⟩
  · have hj : j ≠ p := by
      rintro rfl
      rw [switchOut, goto_proc, setProc_proc, update_self] at hu
      exact hu hphase
    rw [switchOut, goto_proc, setProc_proc, update_of_ne hj]
    exact ⟨rfl, rfl⟩
  · rcases Thread.of_switchOut I hcur hm ht with ⟨rfl, rfl, -⟩ | ⟨-, ht⟩
    · exact ⟨_, thread_of_current hcur (.inl hm), hb⟩
    · exact ⟨k, ht, rfl⟩

/-- So is going on after having been switched to. -/
theorem Silent.of_resume (I : SchedInv s.proc s.cpus) {P : Proc} {k' : Pc}
    (hcur : (s.cpus c).proc = some p) (hm : (s.cpus c).pc.mode = .locked)
    (hb : (s.cpus c).pc.base = k'.base) (hs : P.state = (s.proc p).state)
    (hd : P.data = (s.proc p).data) :
    Silent s ((s.setProc p P).goto c k') := by
  have hlive : (s.proc p).state = .running := I.running c p hcur (by rw [hm]; simp)
  refine ⟨update_keeps Proc.data hd, fun j hu => ?_, rfl, rfl, rfl, fun q k ht => ?_⟩
  · have hj : j ≠ p := by
      rintro rfl
      rw [goto_proc, setProc_proc, update_self, hs, hlive] at hu
      exact hu rfl
    rw [goto_proc, setProc_proc, update_of_ne hj]
    exact ⟨rfl, rfl⟩
  · rcases Thread.of_resume I hcur hm hs ht with ⟨rfl, rfl⟩ | ⟨-, ht⟩
    · exact ⟨_, thread_of_current hcur (.inr hm), hb⟩
    · exact ⟨k, ht, rfl⟩

/-- Making a sleeper runnable is silent. -/
theorem Silent.of_wake {j : Slot} (hs : (s.proc j).state = .sleeping) :
    Silent s (s.setProc j { s.proc j with state := .runnable }) := by
  refine ⟨update_keeps Proc.data ?_, fun i _ =>
      ⟨update_keeps Proc.chan (by rfl) i, update_keeps Proc.context (by rfl) i⟩, rfl, rfl, rfl,
    fun q k ht => ⟨k, ?_, rfl⟩⟩
  · simp [Proc.data, ProcState.phase, hs]
  · rcases ht.of_setProc with ht | ⟨rfl, -, rfl⟩
    · exact ht
    · exact .inr ⟨.inl hs, rfl⟩

/-- Two silent steps. -/
theorem Silent.trans {s₁ s₂ s₃ : Kernel} (h : Silent s₁ s₂) (h' : Silent s₂ s₃) : Silent s₁ s₃ := by
  refine ⟨fun j => (h'.data j).trans (h.data j), fun j hu => ?_, h'.umem.trans h.umem,
    h'.nextpid.trans h.nextpid, h'.initproc.trans h.initproc, fun q k₃ ht => ?_⟩
  · have h₂ := h'.rest j hu
    have h₁ := h.rest j (by rwa [h'.phase j] at hu)
    exact ⟨h₂.1.trans h₁.1, h₂.2.trans h₁.2⟩
  · obtain ⟨k₂, ht₂, hb₂⟩ := h'.thread q k₃ ht
    obtain ⟨k₁, ht₁, hb₁⟩ := h.thread q k₂ ht₂
    exact ⟨k₁, ht₁, hb₁.trans hb₂⟩

/-- The processor of a `wakeup` loop is in the scheduler or in the code of a
process, and stays there. -/
theorem SchedInv.mode_wakeup (I : SchedInv T C) {ch : Option Chan} {i : ℕ} {k : Pc}
    (hpc : (C c).pc = .wakeup ch i k) :
    (C c).pc.mode = k.mode ∧ (k.mode = .idle ∨ k.mode = .code) := by
  have hgood := I.good c
  rw [hpc] at hgood ⊢
  cases hk : k.mode <;> simp_all [Pc.mode]

/-- **A step that is no section of the table's own code is silent.** -/
theorem Step.silent_or_work (I : SchedInv s.proc s.cpus) (h : Step s c a s') :
    Silent s s' ∨ ∃ p k k', Section s c a p k k' s' := by
  have hgood := I.good c
  cases h with
  | schedule i i' f f' hpc => exact .inl (Silent.of_setPc I (.inl (by rw [hpc]; rfl)) _)
  | dispatch j f hpc hl hr =>
    refine .inl ⟨update_keeps data ?_, fun i _ =>
      ⟨update_keeps chan (by rfl) i, update_keeps context (by rfl) i⟩,
      rfl, rfl, rfl, fun q k ht => ⟨k, Thread.of_dispatch hr ht, rfl⟩⟩
    simp [data, phase, hr]
  | back =>
    exact .inl ⟨update_keeps data (by rfl), fun i _ =>
      ⟨update_keeps chan (by rfl) i, update_keeps context (by rfl) i⟩,
      rfl, rfl, rfl, fun q k ht => ⟨k, Thread.of_release ht, rfl⟩⟩
  | intr x hk =>
    refine .inl (Silent.of_setPc I ?_ _)
    rcases Pc.mode_of_interruptible hk with h | h | h
    · exact .inl h
    · exact .inr ⟨h, rfl⟩
    · exact absurd h hgood
  | wakeNext ch j k hpc | wakeEnd ch i k hpc =>
    obtain ⟨hm, hk⟩ := I.mode_wakeup hpc
    refine .inl (Silent.of_setPc I ?_ _)
    rw [hm]
    exact hk.imp_right fun h => ⟨h, by rw [hpc]; rfl⟩
  | wakeOne ch j k hpc hl hs =>
    obtain ⟨hm, hk⟩ := I.mode_wakeup hpc
    refine .inl ((Silent.of_wake hs).trans (Silent.of_setPc ?_ ?_ _))
    · exact I.setState hl rfl (by simp [hs]) (by simp)
        (fun _ => I.context j (by simp [hs]) (by simp [hs]))
    · rw [setProc_cpus, hm]
      exact hk.imp_right fun h => ⟨h, by rw [hpc]; rfl⟩
  | yield p hcur hk =>
    have hm := I.code_of_interruptible hcur hk
    refine .inl (Silent.of_switchOut I hcur hm (by rfl) ?_ _)
    simp [data, phase, I.running c p hcur (by rw [hm]; simp)]
  | block p x hcur hk =>
    have hm := Pc.mode_of_canBlock hk
    refine .inl (Silent.of_switchOut I hcur hm (by rfl) ?_ _)
    simp [data, phase, I.running c p hcur (by rw [hm]; simp)]
  | resume p k₀ k hcur hpc hk =>
    refine .inl (Silent.of_resume I hcur ?_ ?_ rfl rfl) <;>
      rcases hk with rfl | ⟨rfl, rfl⟩ <;> simp_all [Pc.mode, Pc.base]
  | sleepRet p lk k hcur hpc =>
    refine .inl (Silent.of_resume I hcur ?_ ?_ rfl rfl)
    · simp_all [Pc.mode]
    · cases lk <;> simp [hpc]
  | reacquire p k hcur hpc =>
    refine .inl (Silent.of_setPc I (.inr ⟨?_, ?_⟩) _)
    · simp_all [Pc.mode]
    · simp [hpc]
  | work s' p k k' hcur hpc h => exact .inr ⟨p, k, k', hcur, hpc, h⟩

end Kernel

end Xv6
