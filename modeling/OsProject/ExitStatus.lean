import OsProject.SlotHygiene

/-!
# Exit statuses

A process passes a status to `exit`, and whoever waits for it gets the status.
In between, the status travels through the code of `exit`, lies in the slot of
the zombie, and is copied to the caller of `wait` or `waitpid` right before the
slot is freed. The two reapers scan the same table by different keys, several
of them at a time, while slots are freed and taken again.

To say that no status is lost, delivered twice or confused with another one,
the runs are extended by a log of the two calls concerned (`event`): which
process has called `exit`, with which status, and what the calls that found a
zombie returned and left at the caller's address. The invariant relates the log
to the table (`Ledger`). A process whose pid is logged as exited is on its way
through `exit`, a zombie, or gone, and the status logged for it is the one it
carries; a pid that was returned once belongs to no slot any more, and pids are
never handed out again.

The runs are those in which `sigstop` is not called: on a zombie it revives the
process inside `exit`.
-/

namespace Xv6

open AddrSpace List Function Option

/-- The status that `exit` was called with, at the points of its code. -/
def Pc.exiting : Pc → Option ℤ
  | .exitFiles st | .exitCwd st | .exitAcquire st | .reparent _ st | .exitZombie st => some st
  | _ => none

/-- What a run records. -/
inductive Event where
  /-- The process with this pid calls `exit`. -/
  | exit (pid status : ℤ)
  /-- `wait` or `waitpid` returns from a zombie it has found, with this value;
  unless the address is 0, `stored` are the four bytes that are there then. -/
  | wait (ret : ℤ) (stored : Option (List (Option UInt8)))
  deriving DecidableEq

namespace Event

/-- The pid of a process that exits. -/
def exited : Event → Option ℤ
  | exit pid _ => some pid
  | wait _ _ => none

/-- The pid that a call returns, if it does not fail. -/
def reaped : Event → Option ℤ
  | exit _ _ => none
  | wait ret _ => if ret = -1 then none else some ret

variable {e : Event} {q : ℤ} {log : List Event}

theorem exited_eq_some : e.exited = some q ↔ ∃ st, e = .exit q st := by
  cases e <;> simp [exited]

theorem reaped_eq_some : e.reaped = some q ↔ q ≠ -1 ∧ ∃ r, e = .wait q r := by
  cases e with
  | exit => simp [reaped]
  | wait ret stored =>
    by_cases h : ret = -1
    · simp only [reaped, if_pos h, wait.injEq]
      exact ⟨nofun, fun ⟨hq, r, hr, _⟩ => absurd (hr ▸ h) hq⟩
    · simp only [reaped, if_neg h, some.injEq, wait.injEq]
      constructor
      · rintro rfl
        exact ⟨h, stored, rfl, rfl⟩
      · exact fun ⟨_, _, hr, _⟩ => hr

theorem mem_exited :
    q ∈ log.filterMap exited ↔ ∃ st, exit q st ∈ log := by
  simp only [mem_filterMap, exited_eq_some]
  exact ⟨fun ⟨_, h, st, he⟩ => ⟨st, he ▸ h⟩, fun ⟨st, h⟩ => ⟨_, h, st, rfl⟩⟩

theorem mem_reaped :
    q ∈ log.filterMap reaped ↔ q ≠ -1 ∧ ∃ r, wait q r ∈ log := by
  simp only [mem_filterMap, reaped_eq_some]
  exact ⟨fun ⟨_, h, hq, r, he⟩ => ⟨hq, r, he ▸ h⟩, fun ⟨hq, r, h⟩ => ⟨_, h, hq, r, rfl⟩⟩

end Event

namespace Kernel

variable {s s' : Kernel} {c : CpuId} {p : Slot} {a : Act} {st pid q : ℤ} {i : ℕ}
  {r : Option (List (Option UInt8))} {x : Kernel × List Event} {l : Label} {ev : List Event}
  {k' k : Pc}

/-- **What a step adds to the log.** A call of `exit` by the first process is
not one a process ends with: it panics. -/
def event (s : Kernel) (l : Label) (s' : Kernel) : List Event :=
  match (s.cpus l.1).proc, (s.cpus l.1).pc, l.2, (s'.cpus l.1).pc with
  | some p, .user, .call (.exit status), _ =>
    if p = s.initproc then [] else [.exit (s.proc p).pid status]
  | some p, .waitVisit _ addr _, .go, .ret v =>
    [.wait v (if addr = 0 then none else some (load (s'.umem p) addr 4))]
  | _, _, _, _ => []

/-- No process calls `sigstop` in this step. -/
def NoSigstop (l : Label) : Prop :=
  match l.2 with
  | .call (.sigstop _) => False
  | _ => True

instance (l : Label) : Decidable (NoSigstop l) := by
  unfold NoSigstop
  split <;> infer_instance

/-! ## What a system call records -/

/-- User code makes a system call, or else it goes on, faults, or is switched
from. -/
theorem call_or_user (I : SchedInv s.proc s.cpus) (hcur : (s.cpus c).proc = some p)
    (hpc : (s.cpus c).pc = .user) (h : step s (c, a) = some s') :
    (∃ sc, a = .call sc ∧ s' = s.syscall c p sc) ∨ (s'.cpus c).pc.base = .user ∨
      (s'.cpus c).pc = .setkilled ∨ (s'.cpus c).pc = .schedulerBack p := by
  obtain ⟨p', hp', hctx⟩ := I.code c (.inl (by rw [hpc]; rfl))
  obtain rfl : p' = p := some.inj (hp'.symm.trans hcur)
  cases a with
  | call sc => exact .inl ⟨sc, rfl, by simpa [step, hpc, hcur, procStep] using h.symm⟩
  | own u =>
    have hs : s' = s.own c p' u := by simpa [step, hpc, hcur, procStep] using h.symm
    exact .inr (.inl (by simp [hs, own, Pc.base]))
  | fault =>
    have hs : s' = s.goto c .setkilled := by simpa [step, hpc, hcur, procStep] using h.symm
    exact .inr (.inr (.inl (by simp [hs])))
  | intr x =>
    have hs : s' = s.goto c (.wakeup (some (.addr x)) 0 .user) := by
      simpa [step, hpc, Pc.interruptible] using h.symm
    exact .inr (.inl (by simp [hs, Pc.base]))
  | timer =>
    have hs : s.yield c p' .user = some s' := by
      simpa [step, hpc, hcur, procStep, Pc.interruptible] using h
    obtain ⟨-, hs⟩ := underLock_eq_some.mp hs
    refine .inr (.inr (.inr ?_))
    simp [← some.inj hs, sched, hctx]
  | block x =>
    have hs : s.sleep c p' (some (.addr x)) .other .user = some s' := by
      simpa [step, hpc, hcur, procStep, Pc.canBlock] using h
    obtain ⟨-, hs⟩ := underLock_eq_some.mp hs
    refine .inr (.inr (.inr ?_))
    simp [← some.inj hs, sched, hctx, releaseLk]
  | _ => simp [step, hpc, hcur, procStep] at h

/-- The point of `exit` is entered by calling it. -/
theorem event_of_callExit (I : SchedInv s.proc s.cpus) (hcur : (s.cpus c).proc = some p)
    (hpc : (s.cpus c).pc = .user) (h : step s (c, a) = some s') (hp : p ≠ s.initproc)
    (hk : (s'.cpus c).pc = .exitFiles st) : event s (c, a) s' = [.exit (s.proc p).pid st] := by
  rcases call_or_user I hcur hpc h with ⟨sc, rfl, _⟩ | hb | hb | hb
  · have hsc : sc = .exit st := by
      cases sc <;> simp_all [syscall, exit]
      all_goals split at hk <;> simp at hk
    simp [event, hcur, hpc, hsc, hp]
  · simp [hk, Pc.base] at hb
  · simp [hk] at hb
  · simp [hk] at hb

/-- **The status a process carries through `exit`** changes only where the call
begins and where it ends. -/
theorem Work.exiting (h : Work s c a p k k' s') :
    k'.base.exiting = k.exiting ∨ (k = .user ∧ ∃ st, k' = .exitFiles st) ∨
      (∃ st, k = .exitZombie st) ∧ k' = .zombieExit := by
  cases h with
  | move k k' ha h =>
    cases h with
    | callExit st => exact .inr (.inl ⟨rfl, st, rfl⟩)
    | _ => exact .inl rfl
  | touch k j P k' ha h | acquire k k' h | release k h => cases h <;> exact .inl rfl
  | exitZombie st => exact .inr (.inr ⟨⟨st, rfl⟩, rfl⟩)
  | _ => exact .inl rfl

/-- The end of `exit`. -/
theorem Work.eq_of_exitZombie (h : Work s c a p (.exitZombie st) k' s') :
    s' = s.switchOut c p { s.proc p with xstate := st, state := .zombie } .zombieExit none := by
  cases h with
  | exitZombie => rfl
  | move _ _ _ hm => cases hm
  | touch _ _ _ _ _ ht => cases ht
  | acquire _ _ ha => cases ha
  | release _ hr => cases hr

/-- **What a section of process `p`, going from `k` to `k'`, records.** -/
inductive Emits (s s' : Kernel) (p : Slot) (k k' : Pc) : List Event → Prop where
  /-- Nothing, and then it is no call of `exit` and finds no zombie. -/
  | none (hk : ∀ st, k = .user → k' ≠ .exitFiles st)
      (hv : ∀ sel addr j, k ≠ .waitVisit sel addr j ∨ (s.proc j).state ≠ .zombie) :
      Emits s s' p k k' []
  | exit (st : ℤ) (hk : k = .user) (hk' : k' = .exitFiles st) (hs : s'.proc = s.proc) :
      Emits s s' p k k' [.exit (s.proc p).pid st]
  | copyFail (sel : Sel) (addr : ℕ) (j : Slot) (hk : k = .waitVisit sel addr j)
      (hz : (s.proc j).state = .zombie) (hs : s'.proc = s.proc)
      (r : Option (List (Option UInt8))) : Emits s s' p k k' [.wait (-1) r]
  | reap (sel : Sel) (addr : ℕ) (j : Slot) (hk : k = .waitVisit sel addr j)
      (hz : (s.proc j).state = .zombie)
      (hs : s'.proc = update s.proc j (s.proc j).freeproc) :
      Emits s s' p k k' [.wait (s.proc j).pid
        (if addr = 0 then Option.none else some ((intBytes (s.proc j).xstate).map some))]

section

variable (hcur : (s.cpus c).proc = some p)
include hcur

variable {addr : ℕ} {sel : Sel} {j : Slot}

/-- A return from a visit is recorded. -/
theorem event_of_visit {v : ℤ} (hpc : (s.cpus c).pc = .waitVisit sel addr j)
    (hv : (s'.cpus c).pc = .ret v) : event s (c, .go) s' =
      [.wait v (if addr = 0 then none else some (load (s'.umem p) addr 4))] := by
  simp [event, hcur, hpc, hv]

/-- What `wait` and `waitpid` record when they look at a slot. -/
theorem waitVisit_emits (hpc : (s.cpus c).pc = .waitVisit sel addr j)
    (h : s.waitVisit c p sel addr j = some s') :
    ∃ k', Work s c .go p (.waitVisit sel addr j) k' s' ∧
      Emits s s' p (.waitVisit sel addr j) k' (event s (c, .go) s') := by
  obtain ⟨hl, h⟩ := underLock_eq_some.mp h
  by_cases hz : (s.proc j).state = .zombie
  swap
  · rw [if_neg hz] at h
    cases h
    refine ⟨_, .move _ _ (fun _ => .inl rfl) (.visitNext sel addr j hz), ?_⟩
    have hev : event s (c, .go) (s.goto c (.waitScan sel addr (j + 1) true)) = [] := by
      simp [event, hcur, hpc]
    rw [hev]
    refine .none nofun fun sel' addr' j' => ?_
    by_cases hj : j' = j
    · exact .inr (hj ▸ hz)
    · exact .inl fun he => hj (Pc.waitVisit.inj he).2.2.symm
  rw [if_pos hz] at h
  -- the slot is freed, and the memory of the caller is `m` then
  have hreap : ∀ m : AddrSpace,
      (addr ≠ 0 → m.load addr 4 = (intBytes (s.proc j).xstate).map some) →
      s' = ((s.setUmem p m).setProc j (s.proc j).freeproc).releaseWait c (s.proc j).pid →
      ∃ k', Work s c .go p (.waitVisit sel addr j) k' s' ∧
        Emits s s' p (.waitVisit sel addr j) k' (event s (c, .go) s') := by
    rintro m hm rfl
    refine ⟨_, .reap sel addr j hl hz m, ?_⟩
    rw [event_of_visit (v := (s.proc j).pid) hcur hpc (by simp [releaseWait])]
    have hload : (if addr = 0 then none else some (m.load addr 4)) =
        if addr = 0 then none else some ((intBytes (s.proc j).xstate).map some) := by
      split
      · rfl
      · next ha => rw [hm ha]
    simp only [releaseWait, goto_umem, setProc_umem, setUmem_umem, update_self]
    rw [hload]
    exact .reap sel addr j rfl hz rfl
  split_ifs at h with ha
  · refine hreap (s.umem p) (absurd ha) ?_
    simpa [setUmem] using (some.inj h).symm
  by_cases hc : (copyout (s.umem p) addr (intBytes (s.proc j).xstate)).2 = true
  · simp only [hc, if_true, some.injEq] at h
    exact hreap _ (fun _ => load_copyout hc) h.symm
  · simp only [hc, Bool.false_eq_true, if_false, some.injEq] at h
    subst h
    refine ⟨_, .copyFail sel addr j hz _, ?_⟩
    rw [event_of_visit (v := -1) hcur hpc (by simp [releaseWait])]
    refine .copyFail sel addr j rfl hz ?_ _
    rfl

end

/-- Nothing else is recorded. -/
theorem event_eq_nil (hv : ∀ sel addr j, (s.cpus c).pc ≠ .waitVisit sel addr j)
    (hcall : ∀ p st, (s.cpus c).proc = some p → (s.cpus c).pc = .user →
      a = .call (.exit st) → p = s.initproc) : event s (c, a) s' = [] := by
  unfold event
  split
  · next hcur hpc ha =>
    exact if_pos (hcall _ _ hcur hpc ha)
  · next hpc _ _ => exact absurd hpc (hv _ _ _)
  · rfl

/-- **What a step records.** -/
theorem event_cases (I : SchedInv s.proc s.cpus) (h : step s (c, a) = some s') :
    Silent s s' ∧ event s (c, a) s' = [] ∨ ∃ p k k', Section s c a p k k' s' ∧
      Emits s s' p k k' (event s (c, a) s') := by
  by_cases hv : ∃ sel addr j, (s.cpus c).pc = .waitVisit sel addr j
  · obtain ⟨sel, addr, j, hpc⟩ := hv
    obtain ⟨p, hcur, -⟩ := I.code c (.inl (by rw [hpc]; rfl))
    -- nothing but `go` moves a process that looks at a slot
    obtain ⟨rfl, hvisit⟩ : a = .go ∧ s.waitVisit c p sel addr j = some s' := by
      cases a <;> simp [step, hpc, hcur, procStep, Pc.interruptible, Pc.canBlock] at h
      exact ⟨rfl, h⟩
    obtain ⟨k', hw, he⟩ := waitVisit_emits hcur hpc hvisit
    exact .inr ⟨p, _, k', ⟨hcur, hpc, hw⟩, he⟩
  by_cases hcall : ∃ p st, (s.cpus c).proc = some p ∧ (s.cpus c).pc = .user ∧
      a = .call (.exit st) ∧ p ≠ s.initproc
  · obtain ⟨p, st, hcur, hpc, rfl, hp⟩ := hcall
    obtain rfl : s' = s.goto c (.exitFiles st) := by
      simpa [step, hpc, hcur, procStep, syscall, exit, hp] using h.symm
    refine .inr ⟨p, .user, .exitFiles st, ⟨hcur, hpc, ?_⟩, ?_⟩
    · exact .move _ _ (absurd rfl) (.callExit st hp)
    · have hk : ((s.goto c (.exitFiles st)).cpus c).pc = .exitFiles st := by simp
      rw [event_of_callExit I hcur hpc h hp hk]
      exact .exit st rfl rfl rfl
  have hnil : event s (c, a) s' = [] :=
    event_eq_nil (fun sel addr j hpc => hv ⟨sel, addr, j, hpc⟩)
      (fun p st hcur hpc ha => by_contra (fun hp => hcall ⟨p, st, hcur, hpc, ha, hp⟩))
  refine (step_cases h).silent_or_work I |>.imp (fun hsil => ⟨hsil, hnil⟩) ?_
  rintro ⟨p, k, k', hcur, hpc, hw⟩
  refine ⟨p, k, k', ⟨hcur, hpc, hw⟩, ?_⟩
  rw [hnil]
  refine .none ?_ fun sel addr j => .inl (fun hk => hv ⟨sel, addr, j, hpc.trans hk⟩)
  rintro st rfl rfl
  cases hw with
  | move _ _ _ hm =>
    cases hm with
    | callExit _ hp =>
      have hk : ((s.goto c (.exitFiles st)).cpus c).pc = .exitFiles st := by simp
      have he := event_of_callExit I hcur hpc h hp hk
      rw [hnil] at he
      cases he
  | touch _ _ _ _ _ ht => cases ht
  | acquire _ _ ha => cases ha

/-! ## Runs without `sigstop` -/

/-- No thread executes `sigstop`. -/
def NoStopper (s : Kernel) : Prop :=
  ∀ q k pid i, Thread s.proc s.cpus q k → k.base ≠ .signal .sigstop pid i

/-- Then `sigstop` hits nobody. -/
theorem NoStopper.stopsOnly (Z : NoStopper s) (I : SchedInv s.proc s.cpus) (l : Label) :
    StopsOnly inactive s l := by
  intro j hj
  unfold signalTarget at hj
  split at hj
  · next sig pid i hpc _ =>
    obtain ⟨p, hcur, -⟩ := I.code l.1 (.inl (by rw [hpc]; rfl))
    split_ifs at hj
    cases hj
    have ht := thread_of_current (T := s.proc) hcur (.inl (by rw [hpc]; rfl))
    rw [hpc] at ht
    exact absurd rfl (Z p _ pid i ht)
  · cases hj

/-- Only a call enters `sigstop`. -/
theorem act_of_sigstop (I : SchedInv s.proc s.cpus) (hcur : (s.cpus c).proc = some p)
    (hpc : (s.cpus c).pc = .user) (h : step s (c, a) = some s')
    (hk : (s'.cpus c).pc = .signal .sigstop pid i) : ∃ pid', a = .call (.sigstop pid') := by
  rcases call_or_user I hcur hpc h with ⟨sc, rfl, rfl⟩ | hb | hb | hb
  · cases sc with
    | sigstop pid' => exact ⟨pid', rfl⟩
    | exit | sigcont => simp only [syscall, exit] at hk; split at hk <;> simp at hk
    | _ => simp [syscall] at hk
  · simp [hk, Pc.base] at hb
  · simp [hk] at hb
  · simp [hk] at hb

/-- A process that executes `sigstop` has just called it or goes on with it. -/
theorem Work.sigstop (h : Work s c a p k k' s') (hk : k'.base = .signal .sigstop pid i) :
    (k = .user ∧ (s'.cpus c).pc = .signal .sigstop pid i) ∨
      ∃ i', k = .signal .sigstop pid i' := by
  cases h with
  | move k k' ha h =>
    cases h with
    | callSignal => exact .inl ⟨rfl, by simpa [Pc.base] using hk⟩
    | signalNext sig pid' i' =>
      obtain ⟨rfl, rfl, -⟩ := Pc.signal.inj hk
      exact .inr ⟨i', rfl⟩
    | _ => simp [Pc.base] at hk
  | touch k j P k' ha h | acquire k k' h => cases h <;> simp [Pc.base] at hk
  | _ => simp [Pc.base] at hk

theorem NoStopper.step (Z : NoStopper s) (I : Inv s) (hl : NoSigstop (c, a))
    (h : Kernel.step s (c, a) = some s') : NoStopper s' := by
  have hok := (Z.stopsOnly I.sched (c, a)).stoppable
  intro q k₂ pid i ht
  rcases (step_cases h).silent_or_work I.sched with hsil | ⟨p, k, k', hw⟩
  · obtain ⟨k, ht, hb⟩ := hsil.thread q k₂ ht
    rw [← hb]
    exact Z q k pid i ht
  rcases hw.threads I hok ht with ⟨rfl, rfl⟩ | ⟨-, ht | ⟨-, rfl⟩ | ⟨-, rfl⟩⟩
  · intro hk
    rcases hw.work.sigstop hk with ⟨rfl, hpc'⟩ | ⟨i', rfl⟩
    · obtain ⟨_, rfl⟩ := act_of_sigstop I.sched hw.cur hw.pc h hpc'
      exact hl
    · exact Z q _ pid i' hw.thread_self rfl
  · exact Z q k₂ pid i ht
  · simp [Pc.base]
  · simp [Pc.base]

/-! ## The ledger -/

/-- **How the log and the table fit together.** -/
structure Ledger (s : Kernel) (log : List Event) : Prop where
  /-- A process inside `exit` has called it with the status it carries. -/
  exiting : ∀ q k st, Thread s.proc s.cpus q k → k.base.exiting = some st →
    .exit (s.proc q).pid st ∈ log
  /-- So has a zombie, whose slot holds the status. -/
  zombie : ∀ j, (s.proc j).state = .zombie → .exit (s.proc j).pid (s.proc j).xstate ∈ log
  /-- A process that has called `exit` does not come back. -/
  stays : ∀ q k st, Thread s.proc s.cpus q k → .exit (s.proc q).pid st ∈ log →
    k.base.exiting ≠ none
  /-- A process under construction has not called it. -/
  used : ∀ j st, (s.proc j).state = .used → .exit (s.proc j).pid st ∉ log
  /-- The pids in the log have been handed out. -/
  range : ∀ q st, .exit q st ∈ log → q < s.nextpid
  /-- A process exits once. -/
  once : (log.filterMap Event.exited).Nodup
  /-- A pid that was returned belongs to nobody any more. -/
  gone : ∀ q r, .wait q r ∈ log → q ≠ -1 →
    q < s.nextpid ∧ ∀ j, (s.proc j).state ≠ .unused → (s.proc j).pid ≠ q
  /-- It was returned once. -/
  reaped : (log.filterMap Event.reaped).Nodup
  /-- What was stored with it is the status passed to `exit`. -/
  stored : ∀ q r, .wait q r ∈ log → q ≠ -1 →
    ∃ st, .exit q st ∈ log ∧ (r = none ∨ r = some ((intBytes st).map some))

theorem Ledger.boot (root : ℕ) (init : AddrSpace) : Ledger (boot root init) [] := by
  refine ⟨?_, ?_, nofun, nofun, nofun, nodup_nil, nofun, nodup_nil, nofun⟩
  · rintro q k st (⟨c, hc, -⟩ | ⟨-, rfl⟩) hk
    · cases hc
    · rw [boot_context] at hk
      cases hk
  · intro j hj
    by_cases h0 : j = 0
    · subst h0
      cases hj
    · rw [boot_proc root init h0] at hj
      cases hj

theorem Ledger.silent {log : List Event} (L : Ledger s log) (h : Silent s s') : Ledger s' log := by
  have hpid := h.pid
  constructor
  · intro q k' st ht hk
    obtain ⟨k, ht, hb⟩ := h.thread q k' ht
    rw [hpid]
    exact L.exiting q k st ht (hb ▸ hk)
  · intro j hj
    have hx : (s'.proc j).xstate = (s.proc j).xstate := congrArg Data.xstate (h.data j)
    rw [hpid, hx]
    exact L.zombie j ((h.state_iff (by decide)).mp hj)
  · intro q k' st ht he
    obtain ⟨k, ht, hb⟩ := h.thread q k' ht
    rw [hpid] at he
    exact hb ▸ L.stays q k st ht he
  · intro j st hj
    rw [hpid]
    exact L.used j st ((h.state_iff (by decide)).mp hj)
  · intro q st he
    rw [h.nextpid]
    exact L.range q st he
  · exact L.once
  · intro q r hr hq
    rw [h.nextpid]
    refine ⟨(L.gone q r hr hq).1, fun j hj => ?_⟩
    rw [hpid]
    exact (L.gone q r hr hq).2 j (fun hu => hj ((h.state_iff (by decide)).mpr hu))
  · exact L.reaped
  · exact L.stored

/-- A section records one event at most. -/
theorem Emits.nodup (h : Emits s s' p k k' ev)
    (f : Event → Option ℤ) : (ev.filterMap f).Nodup := by
  have hone : ∀ e, ([e].filterMap f).Nodup := by
    intro e
    cases hf : f e <;> simp [hf]
  cases h with
  | none => exact nodup_nil
  | exit | copyFail | reap => exact hone _

/-- A section that records an exit is the call. -/
theorem Emits.exit_mem (h : Emits s s' p k k' ev)
    (hq : .exit q st ∈ ev) :
    q = (s.proc p).pid ∧ k = .user ∧ k' = .exitFiles st ∧ s'.proc = s.proc := by
  cases h with
  | none | copyFail | reap => simp at hq
  | exit st' hk hk' hs =>
    obtain ⟨rfl, rfl⟩ : q = (s.proc p).pid ∧ st = st' := by simpa using hq
    exact ⟨rfl, hk, hk', hs⟩

/-- A section that records a pid returned has freed the zombie with that pid. -/
theorem Emits.wait_mem (h : Emits s s' p k k' ev)
    (hq : .wait q r ∈ ev) (hne : q ≠ -1) : ∃ j, (s.proc j).state = .zombie ∧ q = (s.proc j).pid ∧
      s'.proc = update s.proc j (s.proc j).freeproc ∧
      (r = Option.none ∨ r = some ((intBytes (s.proc j).xstate).map some)) := by
  cases h with
  | none | exit => simp at hq
  | copyFail => simp [hne] at hq
  | reap sel addr j hk hz hs =>
    simp only [mem_singleton, Event.wait.injEq] at hq
    obtain ⟨rfl, rfl⟩ := hq
    refine ⟨j, hz, rfl, hs, ?_⟩
    split
    · exact .inl rfl
    · exact .inr rfl

/-- A pid that is in use after a section, and had been handed out before it,
was in use before. -/
theorem Section.pid_old (I : Inv s) (hok : StopsOnly stoppable s (c, a))
    (h : Section s c a p k k' s')
    {j : Slot} (hj : (s'.proc j).state ≠ .unused) (hlt : (s'.proc j).pid < s.nextpid) :
    (s.proc j).state ≠ .unused ∧ (s'.proc j).pid = (s.proc j).pid := by
  rcases h.pid_cases I hok hj with hold | ⟨-, hp, -⟩
  · exact hold
  · exact absurd hp hlt.ne

section Section

variable {log ev : List Event} {k k' k₂ : Pc}

variable (L : Ledger s log)
include L

/-- A process inside `exit` after a section. -/
theorem Ledger.exiting_work (I : Inv s) (I' : Inv s') (hok : StopsOnly inactive s (c, a))
    (h : Section s c a p k k' s')
    (he : Emits s s' p k k' ev) {q : Slot} (ht : Thread s'.proc s'.cpus q k₂)
    (hk : k₂.base.exiting = some st) : .exit (s'.proc q).pid st ∈ log ++ ev := by
  have hme := h.thread_self
  have hlive := I'.sched.thread_live ht
  have hpid : (s.proc q).state ≠ .unused → (s'.proc q).pid = (s.proc q).pid :=
    fun hu => h.work.pid_of_used hu (fun hu' => by rw [hu'] at hlive; cases hlive)
  rcases h.threads I hok.stoppable ht with ⟨rfl, rfl⟩ | ⟨-, ht | ⟨-, rfl⟩ | ⟨hs, -⟩⟩
  · have hq := hpid (by simp [h.running I.sched])
    rw [hq]
    rcases h.work.exiting with hsame | ⟨rfl, st', rfl⟩ | ⟨-, rfl⟩
    · rw [hsame] at hk
      exact mem_append_left _ (L.exiting q k st hme (by rw [h.work.base_eq]; exact hk))
    · cases he with
      | none hno => exact absurd rfl (hno st' rfl)
      | exit => simp_all [Pc.base, Pc.exiting]
      | copyFail _ _ _ hu | reap _ _ _ hu => cases hu
    · cases hk
  · have hlive₀ := I.sched.thread_live ht
    rw [hpid (fun hu => by rw [hu] at hlive₀; cases hlive₀)]
    exact mem_append_left _ (L.exiting q k₂ st ht hk)
  · cases hk
  · exact absurd hlive (h.zombie_not_live I hok hs)

/-- A process that has called `exit` is inside it after a section, too. -/
theorem Ledger.stays_work (I : Inv s) (I' : Inv s') (N' : PidInv s')
    (hok : StopsOnly inactive s (c, a)) (h : Section s c a p k k' s')
    (he : Emits s s' p k k' ev) {q : Slot}
    (ht : Thread s'.proc s'.cpus q k₂) (hmem : .exit (s'.proc q).pid st ∈ log ++ ev) :
    k₂.base.exiting ≠ none := by
  have hme := h.thread_self
  have hlive := I'.sched.thread_live ht
  have hu' : (s'.proc q).state ≠ .unused := fun hu' => by rw [hu'] at hlive; cases hlive
  rcases mem_append.mp hmem with hmem | hmem
  · obtain ⟨-, hq⟩ := h.pid_old I hok.stoppable hu' (L.range _ _ hmem)
    rw [hq] at hmem
    rcases h.threads I hok.stoppable ht with ⟨rfl, rfl⟩ | ⟨-, ht | ⟨hs, -⟩ | ⟨hs, -⟩⟩
    · have hold := L.stays q k st hme hmem
      rw [h.work.base_eq] at hold
      rcases h.work.exiting with hsame | ⟨rfl, st', rfl⟩ | ⟨⟨st', rfl⟩, rfl⟩
      · rwa [hsame]
      · simp [Pc.base, Pc.exiting]
      · -- the thread has ended: its process is a zombie now
        simp [h.work.eq_of_exitZombie, switchOut, ProcState.phase] at hlive
    · exact L.stays q k₂ st ht hmem
    · exact absurd hmem (L.used q st hs)
    · exact absurd hlive (h.zombie_not_live I hok hs)
  · obtain ⟨hq, rfl, rfl, hs⟩ := he.exit_mem hmem
    have hqp : q = p := by
      refine N'.unique q p hu' ?_ ?_
      · simp [hs, h.running I.sched]
      · rw [hq, hs]
    subst hqp
    rcases h.threads I hok.stoppable ht with ⟨-, rfl⟩ | ⟨hne, -⟩
    · simp [Pc.base, Pc.exiting]
    · exact absurd rfl hne

/-- The zombies after a section. -/
theorem Ledger.zombie_work (I : Inv s) (hok : StopsOnly inactive s (c, a))
    (h : Section s c a p k k' s') {j : Slot} (hj : (s'.proc j).state = .zombie) :
    .exit (s'.proc j).pid (s'.proc j).xstate ∈ log := by
  have hrun := h.running I.sched
  cases h.change I.sched hok.stoppable j with
  | keep hp =>
    have hz := ProcState.eq_of_phase hp.symm hj nofun
    rw [h.work.pid_of_used (by simp [hz]) (by simp [hj])]
    rcases h.zombie I hz with ⟨-, hx⟩ | ⟨_, _, -, hf⟩ | ⟨pid, rfl, rfl, hp⟩
    · rw [hx]
      exact L.zombie j hz
    · simp [hf, Proc.freeproc] at hj
    · have hmem := StopsOnly.state_mem hok h.pc hp
      simp [hz] at hmem
  | die st hjp hk =>
    subst hjp hk
    have hx : (s'.proc j).xstate = st := by simp [h.work.eq_of_exitZombie, switchOut]
    rw [h.work.pid_of_used (by simp [hrun]) (by simp [hj]), hx]
    exact L.exiting j _ st h.thread_self rfl
  | create hs hk hs' | discard hk hk' hs' | publish pid src hk hk' hs' | reap sel addr hk hs hs'
  | stop pid hk hs hs' => simp [hj] at hs'

/-- **The ledger is kept by every section of a process.** -/
theorem Ledger.work (I : Inv s) (I' : Inv s') (N : PidInv s) (N' : PidInv s')
    (hok : StopsOnly inactive s (c, a)) (h : Section s c a p k k' s') (he : Emits s s' p k k' ev) :
    Ledger s' (log ++ ev) := by
  have hrun := h.running I.sched
  have hold := fun {j} => h.pid_old (j := j) I hok.stoppable
  have hnext := h.work.nextpid_le
  constructor
  · exact fun q k₂ st ht hk => L.exiting_work I I' hok h he ht hk
  · exact fun j hj => mem_append_left _ (L.zombie_work I hok h hj)
  · exact fun q k₂ st ht hm => L.stays_work I I' N' hok h he ht hm
  · intro j st hj hmem
    rcases mem_append.mp hmem with hmem | hmem
    · obtain ⟨hu, hp⟩ := hold (by simp [hj]) (L.range _ _ hmem)
      rw [hp] at hmem
      cases h.change I.sched hok.stoppable j with
      | keep hph =>
        exact L.used j st (ProcState.eq_of_phase hph.symm hj nofun) hmem
      | create hs => exact hu hs
      | _ => simp_all
    · obtain ⟨hq, rfl, rfl, hs⟩ := he.exit_mem hmem
      have hjp : j = p := by
        refine N'.unique j p (by simp [hj]) ?_ ?_
        · simp [hs, hrun]
        · rw [hq, hs]
      rw [hs, hjp, hrun] at hj
      cases hj
  · intro q st hmem
    rcases mem_append.mp hmem with hmem | hmem
    · exact lt_of_lt_of_le (L.range q st hmem) hnext
    · obtain ⟨rfl, -⟩ := he.exit_mem hmem
      exact lt_of_lt_of_le (N.range p (by simp [hrun])).2 hnext
  · rw [List.filterMap_append, nodup_append]
    refine ⟨L.once, ?_, ?_⟩
    · exact he.nodup Event.exited
    · rintro q hq _ hq' rfl
      obtain ⟨st, hst⟩ := Event.mem_exited.mp hq
      obtain ⟨_, hst'⟩ := Event.mem_exited.mp hq'
      obtain ⟨rfl, rfl, -⟩ := he.exit_mem hst'
      exact L.stays p .user st h.thread_self hst rfl
  · intro q r hmem hq
    rcases mem_append.mp hmem with hmem | hmem
    · obtain ⟨hlt, hno⟩ := L.gone q r hmem hq
      refine ⟨hlt.trans_le hnext, fun j hj hjq => ?_⟩
      obtain ⟨hu, hp⟩ := hold hj (hjq ▸ hlt)
      exact hno j hu (hp ▸ hjq)
    · obtain ⟨j, hz, rfl, hs, -⟩ := he.wait_mem hmem hq
      refine ⟨lt_of_lt_of_le (N.range j (by simp [hz])).2 hnext, fun i hi hij => ?_⟩
      by_cases hne : i = j
      · simp [hs, hne, Proc.freeproc] at hi
      · rw [hs, update_of_ne hne] at hi hij
        exact hne (N.unique i j hi (by simp [hz]) hij)
  · rw [List.filterMap_append, nodup_append]
    refine ⟨L.reaped, ?_, ?_⟩
    · exact he.nodup Event.reaped
    · rintro q hq _ hq' rfl
      obtain ⟨hne, r, hr⟩ := Event.mem_reaped.mp hq
      obtain ⟨-, _, hr'⟩ := Event.mem_reaped.mp hq'
      obtain ⟨j, hz, rfl, -⟩ := he.wait_mem hr' hne
      exact (L.gone _ r hr hne).2 j (by simp [hz]) rfl
  · intro q r hmem hq
    rcases mem_append.mp hmem with hmem | hmem
    · obtain ⟨st, hst, hr⟩ := L.stored q r hmem hq
      exact ⟨st, mem_append_left _ hst, hr⟩
    · obtain ⟨j, hz, rfl, -, hr⟩ := he.wait_mem hmem hq
      exact ⟨_, mem_append_left _ (L.zombie j hz), hr⟩

end Section

/-! ## Whole runs -/

/-- What holds in every state of a run without `sigstop`. -/
structure Recorded (x : Kernel × List Event) : Prop where
  inv : Inv x.1
  pids : PidInv x.1
  quiet : NoStopper x.1
  ledger : Ledger x.1 x.2

theorem Recorded.boot (root : ℕ) (init : AddrSpace) : Recorded (boot root init, []) := by
  refine ⟨Inv.boot root init, PidInv.boot root init, ?_, Ledger.boot root init⟩
  rintro q k pid i (⟨c, hc, -⟩ | ⟨-, rfl⟩)
  · cases hc
  · rw [boot_context]
    simp [Pc.base]

theorem Recorded.step {x' : Kernel × List Event} (R : Recorded x) (hl : NoSigstop l)
    (h : Lts.logged Kernel.step event x l = some x') : Recorded x' := by
  obtain ⟨s, log⟩ := x
  obtain ⟨s', log'⟩ := x'
  obtain ⟨c, a⟩ := l
  obtain ⟨hs, hlog⟩ : Kernel.step s (c, a) = some s' ∧ log' = log ++ event s (c, a) s' :=
    Lts.logged_eq_some.mp h
  subst hlog
  have hok := R.quiet.stopsOnly R.inv.sched (c, a)
  have I' := R.inv.step hok.stoppable hs
  have Z' := R.quiet.step R.inv hl hs
  rcases event_cases R.inv.sched hs with ⟨hsil, hev⟩ | ⟨p, k, k', hw, he⟩
  · refine ⟨I', R.pids.silent hsil, Z', ?_⟩
    rw [hev, append_nil]
    exact R.ledger.silent hsil
  · have N' := R.pids.work R.inv hok.stoppable hw
    exact ⟨I', N', Z', R.ledger.work R.inv I' R.pids N' hok hw he⟩

theorem Recorded.of_runs {root : ℕ} {init : AddrSpace}
    (h : Lts.Runs (Lts.logged Kernel.step event) (fun _ l => NoSigstop l)
      (Kernel.boot root init, []) x) : Recorded x :=
  h.invariant (Recorded.boot root init) (fun _ _ _ R hl hs => R.step hl hs)

/-- A call that returns without having been given a zombie's pid has failed in
`copyout`, and leaves the table as it is. -/
theorem eq_of_wait_failed (I : SchedInv s.proc s.cpus) (h : step s l = some s') (N : PidInv s)
    (hev : event s l s' = [.wait (-1) r]) :
    ∃ sel addr j, (s.cpus l.1).pc = .waitVisit sel addr j ∧ (s.proc j).state = .zombie ∧
      s'.proc = s.proc := by
  obtain ⟨_, _⟩ := l
  rcases event_cases I h with ⟨-, hnil⟩ | ⟨p, k, k', hw, he⟩
  · rw [hnil] at hev
    cases hev
  · rw [hev] at he
    generalize hv : [Event.wait (-1) r] = ev at he
    cases he with
    | copyFail sel addr j hk hz hs => exact ⟨sel, addr, j, hw.pc.trans hk, hz, hs⟩
    | reap sel addr j hk hz =>
      have hp : (s.proc j).pid = -1 := by simp_all
      have hr := (N.range j (by simp [hz])).1
      omega
    | none | exit => simp at hv

/-- **Exit statuses are neither duplicated nor mixed up.** In every run in which
`sigstop` is not called, a process exits once, its pid is returned by at most
one call of `wait` or `waitpid`, and what such a call has stored at its address,
if that is not 0, are the bytes of the status the process passed to `exit`. A
call that fails in `copyout` has found a zombie; it leaves every slot as it is,
and the zombie's slot holds the status passed to `exit`. -/
theorem exit_status_delivered {root : ℕ} {init : AddrSpace} {log : List Event}
    (h : Lts.Runs (Lts.logged step event) (fun _ l => NoSigstop l) (boot root init, []) (s, log)) :
    (log.filterMap Event.exited).Nodup ∧ (log.filterMap Event.reaped).Nodup ∧
      (∀ q r, .wait q r ∈ log → q ≠ -1 →
        ∃ st, .exit q st ∈ log ∧ ∀ bs, r = some bs → bs = (intBytes st).map some) ∧
      ∀ l s' r, step s l = some s' → event s l s' = [.wait (-1) r] →
        ∃ sel addr j, (s.cpus l.1).pc = .waitVisit sel addr j ∧ s'.proc = s.proc ∧
          (s'.proc j).state = .zombie ∧ .exit (s'.proc j).pid (s'.proc j).xstate ∈ log := by
  have R := Recorded.of_runs h
  refine ⟨R.ledger.once, R.ledger.reaped, ?_, ?_⟩
  · intro q r hr hq
    obtain ⟨st, hst, hstored⟩ := R.ledger.stored q r hr hq
    refine ⟨st, hst, fun bs hbs => ?_⟩
    rcases hstored with hn | hs
    · rw [hn] at hbs
      cases hbs
    · exact some.inj (hbs.symm.trans hs)
  · intro l s' r hs hev
    obtain ⟨sel, addr, j, hpc, hz, hproc⟩ := eq_of_wait_failed R.inv.sched hs R.pids hev
    refine ⟨sel, addr, j, hpc, hproc, ?_, ?_⟩
    · rw [hproc]
      exact hz
    · rw [hproc]
      exact R.ledger.zombie j hz

/-- One page of memory that `copyout` may write. -/
def onePage : AddrSpace :=
  update empty 0 (some ⟨PTE_V + PTE_R + PTE_W + PTE_U, fun _ => 0⟩)

/-- The process of processor 0 waits for its child in slot 1, a zombie. -/
def waitChild (addr : ℕ) : List Label :=
  [(0, .call (.wait addr)), (0, .go), (0, .go), (0, .go), (0, .go), (0, .go)]

/-- The theorem at work on a child that exits with status 7, while its parent
first waits with an address that is not mapped and then with one that is. -/
theorem exit_status_delivered_child :
    ∃ s log, Lts.Runs (Lts.logged step event) (fun _ l => NoSigstop l) (boot 0 onePage, [])
        (s, log) ∧ log = [.exit 2 7, .wait (-1) (some [none, none, none, none]),
        .wait 2 (some [some 7, some 0, some 0, some 0])] ∧ (log.filterMap Event.reaped).Nodup := by
  obtain ⟨⟨s, log⟩, hrun, hlog⟩ : ∃ x ∈ Lts.runIf (Lts.logged step event) (fun _ l => NoSigstop l)
      (boot 0 onePage, [])
      (forkChild ++ runChild 1 ++ exitChild 7 ++ waitChild 8192 ++ waitChild 8),
      x.2 = [.exit 2 7, .wait (-1) (some [none, none, none, none]),
        .wait 2 (some [some 7, some 0, some 0, some 0])] := by decide +kernel
  replace hrun := Lts.runs_of_runIf hrun
  exact ⟨s, log, hrun, hlog, (exit_status_delivered hrun).2.1⟩

end Kernel

end Xv6
