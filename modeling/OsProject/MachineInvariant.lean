import OsProject.CallsKeep

/-!
# The machine in order

Between calls, every page of memory has one owner, every reference is counted, and a slot
without a process has nothing open. This is the invariant of the machine: each of its steps
keeps it (`Inv.exec`), so it holds along every run. A step that takes the memory of processes
apart or changes it does so in the code of the virtual memory, and this code does not panic.

A call works on one side of the machine and leaves the other: those on processes open and close
nothing (`Inv.of_same`), and those on files leave every process where it lives
(`Inv.homes_setFiles`). The sides meet in a new process, which has pages of its own and shares
what its parent has open (`Inv.shares`), and in `exit`.
-/

namespace Xv6

open Phys Sysfile Function

namespace System

variable {s : System} {K : Set ℕ}

/-- A process has a page table exactly if it has a home. -/
theorem Sound.table (h : s.Sound K) (q : Slot) :
    (s.proc q).pagetable = (s.homes q).map Home.pagetable := by
  by_cases hq : (s.proc q).state = .unused
  · rw [(h.vacant q hq).pagetable, homes, (h.vacant q hq).home, Option.map_none]
  · obtain ⟨_, ha⟩ := Option.isSome_iff_exists.mp (h.home q hq)
    rw [homes, ha, Option.map_some, (Proc.home_eq_some ha).1]

/-- The descriptors of a process that refer to a file. -/
theorem descriptors_eq_fiber (ofile : Fin NOFILE → Option (Fin NFILE)) (f : Fin NFILE) :
    descriptors ofile f = fiber ofile (some f) := by
  rw [descriptors, fiber, List.countP_eq_length_filter, Fin.univ_def]
  rfl

end System

namespace Machine

variable {M M' : Machine} {s' : System} {p q np : Slot} {t : Sysfile.State} {S : Set ℕ}

/-- **The machine is in order.** -/
structure Inv (M : Machine) : Prop where
  sound : M.sys.Sound M.files.pipes
  balanced : ∃ S, State.Balanced M.sys.homes S [] [] M.files
  /-- Nothing is open in a slot without a process, and an exited process has closed
  everything. -/
  idle : ∀ q, M.sys.Idle q → (∀ fd, (M.sys.proc q).ofile fd = none) ∧ (M.sys.proc q).cwd = none

/-- **What a step leaves**: the machine is in order, and where a pipe was there is one, or the
page is free. -/
abbrev Next (M M' : Machine) : Prop :=
  Inv M' ∧ M.files.pipes ⊆ M'.files.pipes ∪ M'.sys.mem.free

/-- The page of a pipe that has been closed has gone back to the free ones. -/
theorem pipes_subset {L L' : Slot → Option Home} {t' : Sysfile.State}
    (hb : State.Balanced L S [] [] t) (hb' : State.Balanced L' S [] [] t') :
    t.pipes ⊆ t'.pipes ∪ t'.mem.free := by
  rw [Set.union_comm, hb'.stock, ← hb.stock]
  exact Set.subset_union_right

section

variable (h : Inv M)
include h

/-- Nothing has been opened or closed. -/
theorem Inv.of_same (hs : M.sys.Safe s' M.files.pipes) (hfile : s'.file = M.sys.file)
    (hofile : ∀ q, (s'.proc q).ofile = (M.sys.proc q).ofile)
    (hcwd : ∀ q, (s'.proc q).cwd = (M.sys.proc q).cwd) (hheld : s'.fs.Holds M.files.users [])
    (hidle : ∀ q, s'.Idle q → (∀ fd, (M.sys.proc q).ofile fd = none) ∧ (M.sys.proc q).cwd = none) :
    Inv { M with sys := s' } := by
  obtain ⟨_, hb⟩ := h.balanced
  have hfd : ({ M with sys := s' } : Machine).files.fd = M.files.fd := by
    funext z
    exact congrFun (hofile z.1) z.2
  have hcwds : ({ M with sys := s' } : Machine).files.cwds = M.files.cwds := funext hcwd
  refine ⟨hs.sound, ⟨_, fun f => ?_, fun f hf => hb.closed f ?_, fun z f hz => hb.typed z f ?_,
    hb.named, ?_, hb.one, fun pi hpi w => ?_, hs.sound.isolated, rfl, hs.sound.table⟩,
    fun q hq => ?_⟩
  · rw [hfd]
    exact (congrFun hfile f).trans (hb.count f)
  · exact (congrFun hfile f).symm.trans hf
  · rw [← hfd]
    exact hz
  · have husers : ({ M with sys := s' } : Machine).files.users = M.files.users :=
      State.users_congr rfl hcwds
    rw [husers]
    exact hheld
  · exact (congrArg (·.isOpen w) (hs.page pi hpi)).trans (hb.isOpen pi hpi w)
  · obtain ⟨ho, hc⟩ := hidle q hq
    refine ⟨fun fd => ?_, ?_⟩
    · exact (congrFun (hofile q) fd).trans (ho fd)
    · exact (hcwd q).trans hc

/-- A call that keeps what there is. -/
theorem Inv.keeps (hk : M.sys.Keeps s' M.files.pipes M.files.users) : Inv { M with sys := s' } :=
  h.of_same hk.safe hk.file hk.ofile hk.cwd hk.held (fun q hq => h.idle q (hk.idle q hq))

/-- A new process shares what its parent has open. -/
theorem Inv.shares (hs : M.sys.Shares s' M.files.pipes M.files.users p np) :
    Inv { M with sys := s' } := by
  obtain ⟨_, hb⟩ := h.balanced
  obtain ⟨hofile, hcwd⟩ := h.idle np (.inl hs.unused)
  obtain ⟨i, _, hi', hheld⟩ := hs.cwd
  have hother : ∀ q ≠ np, s'.proc q = M.sys.proc q := hs.others
  have hcount : ∀ f, fiber ({ M with sys := s' } : Machine).files.fd (some f) =
      fiber M.files.fd (some f) + System.descriptors (M.sys.proc p).ofile f := by
    intro f
    rw [System.descriptors_eq_fiber]
    refine Fiber.update_row hofile (fun k => ?_) (fun z hz => ?_) f
    · exact congrFun hs.ofile k
    · exact congrFun (congrArg System.Proc.ofile (hother z.1 hz)) z.2
  have hcwds : ({ M with sys := s' } : Machine).files.cwds = update M.files.cwds np (some i) := by
    funext q
    by_cases hq : q = np
    · rw [hq, update_self]
      exact hi'
    · rw [update_of_ne hq]
      exact congrArg System.Proc.cwd (hother q hq)
  refine ⟨hs.safe.sound, ⟨_, fun f => ?_, fun f hf => hb.closed f ?_, fun z f hz => ?_,
    hb.named, hheld.recount (fun j => ?_), hb.one, fun pi hpi w => ?_, hs.safe.sound.isolated,
    rfl, hs.safe.sound.table⟩, fun q hq => ?_⟩
  · rw [hcount f]
    have hf := hb.count f
    change M.sys.file f = _ at hf
    show s'.file f = _
    rw [hs.file f, hf, List.count_nil, add_zero, add_zero]
  · have hf' := hs.file f
    change s'.file f = 0 at hf
    show M.sys.file f = 0
    omega
  · by_cases hz' : z.1 = np
    · have hrow : M.files.fd (p, z.2) = some f := by
        have hn : (s'.proc np).ofile z.2 = some f := hz' ▸ hz
        rwa [hs.ofile] at hn
      exact hb.typed _ f hrow
    · have hrow : M.files.fd z = some f := by
        have hn : (s'.proc z.1).ofile z.2 = some f := hz
        rwa [hother z.1 hz'] at hn
      exact hb.typed z f hrow
  · have hinodes : ({ M with sys := s' } : Machine).files.inodes = M.files.inodes := rfl
    have hcw : M.files.cwds np = none := hcwd
    unfold State.users
    rw [hcwds, hinodes, Fiber.update_some hcw, List.count_singleton]
    simp only [beq_iff_eq, List.count_nil]
    omega
  · exact (congrArg (·.isOpen w) (hs.safe.page pi hpi)).trans (hb.isOpen pi hpi w)
  · by_cases hq' : q = np
    · have hst := hs.state
      rw [System.Idle, hq'] at hq
      rcases hq with hq | hq
      · rw [hst] at hq
        cases hq
      · rw [hst] at hq
        cases hq
    · have hsame := hother q hq'
      rw [System.Idle] at hq
      rw [hsame] at hq ⊢
      exact h.idle q hq

/-! ## Calls on files -/

/-- The homes of the processes after a call on files. -/
theorem Inv.homes_setFiles (hb : State.Balanced M.sys.homes S [] [] t) :
    (M.setFiles t).sys.homes = M.sys.homes := by
  funext q
  have htable : (t.proc q).pagetable = (M.sys.proc q).pagetable := by
    rw [hb.table q, h.sound.table q]
  show (setFilesProc (M.sys.proc q) (t.proc q)).home = (M.sys.proc q).home
  unfold setFilesProc System.Proc.home
  rw [htable]

/-- The files after a call on them are those of a machine in order. -/
theorem Inv.setFiles (hb : State.Balanced M.sys.homes S [] [] t)
    (hidle : ∀ q, M.sys.Idle q → (∀ fd, (t.proc q).ofile fd = none) ∧ (t.proc q).cwd = none) :
    Inv (M.setFiles t) := by
  have hhomes := h.homes_setFiles hb
  refine ⟨⟨?_, fun q hq => ?_, fun q hq => ?_⟩, ⟨S, ?_⟩, hidle⟩
  · rw [hhomes]
    exact hb.isolated
  · obtain ⟨htf, hpt, hsz⟩ := h.sound.vacant q hq
    refine ⟨htf, ?_, hsz⟩
    show (t.proc q).pagetable = none
    rw [hb.table q, ← h.sound.table q, hpt]
  · show ((M.setFiles t).sys.homes q).isSome
    rw [hhomes]
    exact h.sound.home q hq
  · rw [hhomes]
    exact hb

/-- **A call on files**, other than `exit`. -/
theorem Inv.onFiles (hp : ¬ M.sys.Idle p) (ninodes : ℕ) (room : Room) (call : Sysfile.Call) :
    Ensures MemFault (fun x => Next M x.1 ∧ ¬ x.1.sys.Idle p) (M.onFiles ninodes room p call) := by
  obtain ⟨S, hb⟩ := h.balanced
  unfold Machine.onFiles
  split
  · nofun
  · refine (hb.exec ninodes room call).bind fun r hr =>
      ⟨⟨h.setFiles hr.1 (fun q hq => ?_), pipes_subset hb hr.1⟩, hp⟩
    have hne : q ≠ p := fun hc => hp (hc ▸ hq)
    rw [hr.2 q hne]
    exact h.idle q hq

end

/-- A process with another parent, and an exited one. -/
theorem exists_proc_exit (M : Machine) (p q : Slot) (status : ℤ) :
    ∃ o x st, ((M.reparent p).sys.setProc p { (M.reparent p).sys.proc p with
        xstate := status, state := .zombie }).proc q =
      { M.sys.proc q with parent := o, xstate := x, state := st } ∧
      (st = if q = p then .zombie else (M.sys.proc q).state) := by
  have hparent : ∀ q, ∃ o, (M.reparent p).sys.proc q = { M.sys.proc q with parent := o } := by
    intro q
    simp only [Machine.reparent]
    split
    · exact ⟨_, rfl⟩
    · exact ⟨(M.sys.proc q).parent, rfl⟩
  obtain ⟨o, ho⟩ := hparent q
  by_cases hq : q = p
  · subst hq
    rw [System.setProc_proc_self, if_pos rfl, ho]
    exact ⟨o, status, .zombie, rfl, rfl⟩
  · rw [show (System.setProc _ _ _).proc q = (M.reparent p).sys.proc q from
      update_of_ne hq .., if_neg hq, ho]
    exact ⟨o, _, _, rfl, rfl⟩

/-- Only who is whose parent, and who has exited. -/
theorem Inv.exited (h : Inv M) (hp : (M.sys.proc p).state ≠ .unused) (status : ℤ)
    (hopen : (∀ fd, (M.sys.proc p).ofile fd = none) ∧ (M.sys.proc p).cwd = none) :
    Inv { M.reparent p with sys := (M.reparent p).sys.setProc p { (M.reparent p).sys.proc p with
      xstate := status, state := .zombie } } := by
  have hproc := fun q => exists_proc_exit M p q status
  obtain ⟨_, hb⟩ := h.balanced
  obtain ⟨s', hs'⟩ : ∃ s', (M.reparent p).sys.setProc p { (M.reparent p).sys.proc p with
    xstate := status, state := .zombie } = s' := ⟨_, rfl⟩
  have hrest : s'.mem = M.sys.mem ∧ s'.fs = M.sys.fs ∧ s'.file = M.sys.file := by
    rw [← hs']
    exact ⟨rfl, rfl, rfl⟩
  rw [hs'] at hproc ⊢
  have hhomes : s'.homes = M.sys.homes := by
    funext q
    obtain ⟨o, x, st, hq, -⟩ := hproc q
    rw [System.homes, System.homes, hq]
    rfl
  have hstate : ∀ q, (s'.proc q).state = if q = p then .zombie else (M.sys.proc q).state := by
    intro q
    obtain ⟨o, x, st, hq, hst⟩ := hproc q
    rw [hq, hst]
  have hsound : s'.Sound M.files.pipes := by
    refine ⟨?_, fun q hq => ?_, fun q hq => ?_⟩
    · rw [hhomes, hrest.1]
      exact h.sound.isolated
    · have hst := hstate q
      obtain ⟨o, x, st, he, -⟩ := hproc q
      rw [hq] at hst
      split_ifs at hst
      obtain ⟨h1, h2, h3⟩ := h.sound.vacant q hst.symm
      rw [he]
      exact ⟨h1, h2, h3⟩
    · have hused : (M.sys.proc q).state ≠ .unused := by
        rw [hstate q] at hq
        split at hq
        · next hqp => rw [hqp]; exact hp
        · exact hq
      show (s'.homes q).isSome
      rw [hhomes]
      exact h.sound.home q hused
  refine Inv.of_same (M := M) h ⟨hsound, fun x _ => by rw [hrest.1]⟩ hrest.2.2 (fun q => ?_)
    (fun q => ?_) (by rw [hrest.2.1]; exact hb.held) (fun q hq => ?_)
  · obtain ⟨o, x, st, he, -⟩ := hproc q
    rw [he]
  · obtain ⟨o, x, st, he, -⟩ := hproc q
    rw [he]
  · rw [System.Idle, hstate q] at hq
    by_cases hqp : q = p
    · rw [hqp]
      exact hopen
    · rw [if_neg hqp] at hq
      exact h.idle q hq

/-- **`exit`**: the process closes everything and becomes a zombie. -/
theorem Inv.exit (h : Inv M) (hp : ¬ M.sys.Idle p) (status : ℤ) :
    Ensures MemFault (Next M) (M.exit p status) := by
  obtain ⟨S, hb⟩ := h.balanced
  unfold Machine.exit
  split
  · nofun
  · refine hb.exit.bind fun r hr => ?_
    have h₁ : Inv (M.setFiles r.1) := h.setFiles hr.1.1 (fun q hq => by
      rw [hr.1.2 q (fun hc => hp (hc ▸ hq))]
      exact h.idle q hq)
    have hpipes := pipes_subset hb hr.1.1
    exact ⟨h₁.exited (fun hc => hp (.inl hc)) status ⟨hr.2.2, hr.2.1⟩, hpipes⟩

/-! ## Every step -/

/-- The value that a call returns. -/
theorem Inv.syscall {f : Except Fault (Machine × ℤ)}
    (hf : Ensures MemFault (fun x => Next M x.1 ∧ ¬ x.1.sys.Idle p) f) :
    Ensures MemFault (Next M) (Machine.syscall p f) := by
  refine hf.bind ?_
  rintro ⟨_, r⟩ ⟨⟨h₁, hpipes⟩, hp₁⟩
  dsimp only at h₁ hp₁ hpipes ⊢
  obtain ⟨_, hb⟩ := h₁.balanced
  obtain ⟨_, hs', hk, hfree⟩ := h₁.sound.syscallReturn_keeps hp₁ hb.held r
  rw [hs', ok_bind]
  refine ⟨h₁.keeps hk, ?_⟩
  rw [Phys.free, hfree]
  exact hpipes

/-- A call on memory and processes. -/
theorem Inv.onSys (h : Inv M) (hp : ¬ M.sys.Idle p) {f : System → Except Fault (System × ℤ)}
    (hf : Ensures MemFault (fun x => M.sys.Keeps x.1 M.files.pipes M.files.users ∨
      ∃ np, M.sys.Shares x.1 M.files.pipes M.files.users p np) (f M.sys)) :
    Ensures MemFault (fun x => Next M x.1 ∧ ¬ x.1.sys.Idle p) (M.onSys f) := by
  refine hf.bind ?_
  rintro ⟨s', _⟩ (hk | ⟨np, hs⟩)
  · exact ⟨⟨h.keeps hk, Set.subset_union_left⟩, hk.active p hp⟩
  · refine ⟨⟨h.shares hs, Set.subset_union_left⟩, ?_⟩
    have hne : p ≠ np := fun hc => hp (.inl (hc ▸ hs.unused))
    rw [System.Idle, hs.others p hne]
    exact hp

/-- A process that can make a call has not exited. -/
theorem Active.not_idle (hp : M.Active p) : ¬ M.sys.Idle p := by
  rintro (hc | hc) <;> rcases hp with hp | hp <;> cases hp.symm.trans hc

/-- **Every step keeps the machine in order**, and no step panics in the code of the virtual
memory. -/
theorem Inv.exec (h : Inv M) (hp : M.Active p) (ninodes : ℕ) (call : Call) :
    Ensures MemFault (Next M) (call.exec ninodes M p) := by
  have hi := hp.not_idle
  obtain ⟨_, hb⟩ := h.balanced
  have hcwd : ∀ i, (M.sys.proc p).cwd = some i → 0 < M.files.users i :=
    State.Balanced.cwd_pos M.files p
  have hstale : ∀ q, M.sys.Idle q → (M.sys.proc q).ofile = fun _ => none :=
    fun q hq => funext (h.idle q hq).1
  cases call with
  | fork => exact syscall (h.onSys hi (h.sound.fork_keeps hi hb.held hcwd hstale))
  | spawn path => exact syscall (h.onSys hi (h.sound.spawn_keeps hi hb.held hcwd hstale path))
  | sysExec path args =>
    exact syscall (h.onSys hi ((h.sound.sysExec_keeps hi hb.held hcwd path args).mono
      (fun _ hk => .inl hk)))
  | sysSbrk n =>
    exact syscall (h.onSys hi ((h.sound.sysSbrk_keeps hi hb.held n).mono (fun _ hk => .inl hk)))
  | wait addr | waitpid pid addr =>
    exact syscall (h.onSys hi ((h.sound.waitFor_keeps hi hb.held _ addr).mono
      (fun _ hk => .inl hk)))
  | exit status => exact h.exit hi status
  | files call room => exact syscall (h.onFiles hi ninodes room call)
  | store va b =>
    obtain ⟨s', hs', hk⟩ := h.sound.store_keeps hi hb.held va b
    show Ensures _ _ (M.sys.store p va b >>= _)
    rw [hs', ok_bind]
    exact ⟨h.keeps hk, Set.subset_union_left⟩

end Machine

end Xv6
