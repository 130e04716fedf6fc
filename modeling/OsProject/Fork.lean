import OsProject.SpawnForkExec

/-!
# `fork` from end to end

A call of `fork` returns, whatever memory there is. If it returns the number of a
child, the child is the parent: size, memory with its permissions, registers, open
files and current directory, except that `fork` returns 0 in it; its pages were free
before and are nobody else's now, every reference it holds is counted, and the
parent has not changed. If it returns -1, nothing has (`fork_exact`). Freeing the
child gives back what `fork` took (`fork_freeproc`).

The contents follow from what `uvmcopy` does to address spaces. Everything that can
go wrong on the way ends in `freeproc`, which gives back what the slot holds by then
(`ForkEnd`).
-/

namespace Xv6

open Phys Option

namespace Page

/-- A word below the size of a trapframe in a copy of it. -/
theorem word_copy {P Q : Page} (r : Reg) :
    word (fun o => if o.val < trapframeSize then P o else Q o) r.index = word P r.index := by
  have hr : r.ctorIdx < 36 := by
    cases r <;> decide
  have hb : ∀ k : Fin 8, (offset r.index k).val < trapframeSize := by
    intro k
    show 8 * r.ctorIdx + k.val < 288
    omega
  simp only [word, if_pos (hb _)]

end Page

namespace System

variable {s s' s₁ : System} {p np : Slot} {pt tf : ℕ} {A : AddrSpace} {e : Fault} {r pid : ℤ}

/-- The process `c` that `fork` has made for `p`. -/
structure ForkedChild (s s' : System) (p c : Slot) (pid : ℤ) : Prop where
  isNew : s.IsNew s' c pid
  sz : (s'.proc c).sz = (s.proc p).sz
  /-- The same pages are mapped, with the same permissions and bytes. -/
  memory : s'.userMemory c = s.userMemory p
  /-- They are at different places, which were free and no longer are. -/
  fresh : ∃ npt, (s'.proc c).pagetable = some npt ∧
    (∀ v, (s.userMemory p v).isSome →
      s'.mem.frame npt v ∈ s.mem.freelist ∧ s'.mem.frame npt v ∉ s'.mem.freelist) ∧
    ∀ v v', (s.userMemory p v).isSome → (s.userMemory p v').isSome →
      s'.mem.frame npt v = s'.mem.frame npt v' → v = v'
  reg : ∀ r, s'.reg c r = if r = .a0 then 0 else s.reg p r
  ofile : (s'.proc c).ofile = (s.proc p).ofile
  cwd : (s'.proc c).cwd = (s.proc p).cwd
  file : ∀ f, s'.file f = s.file f + descriptors (s.proc p).ofile f
  refs : ∃ i, (s.proc p).cwd = some i ∧ s'.fs.refs = s.fs.refs + Pi.single i 1

/-- Nothing about process `p` has changed: its slot, its page table with the pages it
maps, its memory and its registers. -/
structure SameSelf (s s' : System) (p : Slot) : Prop where
  proc : s'.proc p = s.proc p
  pte : ∀ pt, (s.proc p).pagetable = some pt → ∀ v, s'.mem.pte pt v = s.mem.pte pt v
  memory : s'.userMemory p = s.userMemory p
  reg : ∀ r, s'.reg p r = s.reg p r

/-- What uses free pages only does not change a process. -/
theorem Lives.sameSelf (hl : s.Lives p pt tf A) (hp : s'.proc p = s.proc p)
    (hw : Within s.mem s'.mem s.mem.free) : s.SameSelf s' p := by
  obtain ⟨hs, -, hpte⟩ := hl.space.of_page s'.mem
    (fun x hx => hw.page x (hl.free x (.inr hx)))
  refine ⟨hp, fun pt' hpt' v => ?_, ?_, fun r => ?_⟩
  · rw [hl.pagetable] at hpt'
    cases hpt'
    exact hpte v
  · unfold System.userMemory
    rw [hp, hl.pagetable, elim_some, elim_some, hs.userPages, hl.space.userPages]
  · unfold System.reg
    rw [hp, hl.trapframe, elim_some, elim_some, hw.page tf (hl.free tf (.inl rfl))]

/-- **`fork` returns, unless the caller's files cannot be duplicated.** -/
theorem fork_error (h : s.Ready s.mem.free) (hl : s.Lives p pt tf A)
    (hrun : s.fork p = .error e) : ¬ s.FilesHeld p ∧ (e = .filedup ∨ e = .nullPointer) := by
  obtain ⟨s₁, o, hs₁, -, hsome, -⟩ := h.allocated
  unfold fork at hrun
  rw [hs₁, ok_bind] at hrun
  cases o with
  | none => cases hrun
  | some np =>
    obtain ⟨_, _, ha⟩ := hsome np rfl
    have hp := ha.proc_of_ne (ha.ne h hl)
    have hold : ∀ x ∈ s.mem.owned pt A, x ∉ s.mem.freelist := fun x hx =>
      hl.free x (.inr hx)
    obtain ⟨hs, howned, -⟩ := hl.space.of_page s₁.mem (fun x hx => ha.within.page x (hold x hx))
    obtain ⟨m₂, ok, hm₂, hw₂, -, hno⟩ := ha.owns.uvmcopy hs
      (by rw [howned]; exact fun x hx hc => hold x hx hc.1) hl.spans
    dsimp only at hrun
    rw [hp, hl.pagetable, ha.pagetable_np] at hrun
    simp only [deref, ok_bind] at hrun
    rw [hm₂, ok_bind] at hrun
    cases ok with
    | false =>
      have hw : Within s.mem m₂ s.mem.free :=
        ha.within.trans (hw₂.mono (fun x hx => hx.1))
      obtain ⟨_, hm₃, -⟩ := freeproc_full (s := { s₁ with mem := m₂ }) np
        ha.trapframe_np ha.pagetable_np (hno rfl) (ha.spans_np h) (ha.inRange h hw)
        (fun hc => hc.2 rfl)
      simp only [Bool.false_eq_true, if_false, hm₃, ok_bind] at hrun
      cases hrun
    | true =>
      rw [hl.trapframe, ha.trapframe_np] at hrun
      have hheld := launch_error hrun
      unfold FilesHeld at hheld ⊢
      rwa [hp, ha.file] at hheld

/-- The child of a `fork` that has succeeded. -/
theorem Allocated.forkedChild {ntf npt : ℕ} {m : Phys} (ha : Allocated s s₁ np ntf npt)
    (h : s.Ready s.mem.free) (hl : s.Lives p pt tf A)
    (hstale : (s.proc np).ofile = fun _ => none)
    (ho : m.Owns npt A (procTop s.mem.trampoline ntf) (s.mem.free \ {ntf}))
    (htf : ∃ Q : Page, m.page ntf = Page.setWord
      (fun o => if o.val < trapframeSize then s.mem.page tf o else Q o) Reg.a0.index 0)
    (hrun : System.launch { s₁ with mem := m } p np { s₁.proc np with sz := (s.proc p).sz }
      (safestrcpy (s.proc p).name 16) = .ok (s', pid)) : s.ForkedChild s' p np pid := by
  have hp := ha.proc_of_ne (ha.ne h hl)
  obtain ⟨rfl, rfl, -, ⟨_, _, _⟩, _, hlaunch, hsz, -, hntf, hnpt⟩ :=
    ha.launch hp (show s₁.fs.refs = s.fs.refs by rw [ha.fs]) hrun
  have hnp := hlaunch.proc_np
  have hmem := hl.userMemory
  have hdup := hlaunch.dup
  rw [hstale] at hdup
  obtain ⟨hfile, hofile⟩ := dupFiles_eq hdup
  refine ⟨⟨ha.unused, by rw [hnp, hlaunch.state], by rw [hnp, hlaunch.pid]⟩, by rw [hnp, hsz], ?_,
    ⟨npt, by rw [hnp, hnpt], fun v hv => ?_, fun v v' hv hv' he => ?_⟩, fun r => ?_,
    by rw [hnp, hofile], by rw [hnp, hlaunch.cwd], hfile, hlaunch.refs⟩
  · rw [userMemory, hnp, hnpt, elim_some, ho.toSpace.userPages, hmem]
  · rw [hmem] at hv
    have hown : s'.mem.frame npt v ∈ s'.mem.owned npt A := .inr ⟨v, hv, rfl⟩
    exact ⟨(ho.sub hown).1, fun hc => ((ho.free _).mp hc).2 hown⟩
  · rw [hmem] at hv hv'
    exact ho.inj v v' hv hv' he
  · obtain ⟨_, hQ⟩ := htf
    have hr : s.reg p r = (s.mem.page tf).word r.index := by
      rw [System.reg, hl.trapframe, elim_some]
    rw [System.reg, hnp, hntf, elim_some, hQ, hr]
    by_cases ha0 : r = .a0
    · rw [if_pos ha0, ha0, Page.word_setWord_self _ _ (by decide)]
    · have hne : r.index ≠ Reg.a0.index := by
        intro hc
        have hidx : r.ctorIdx = Reg.a0.ctorIdx := congrArg Fin.val hc
        revert ha0 hidx
        cases r <;> decide
      rw [if_neg ha0, Page.word_setWord_of_ne _ hne, Page.word_copy]

/-- **`fork` from end to end.** It returns for every state of the parent and every
amount of free memory. If it returns a number, there is a child with that number, and
the parent is unchanged; if it returns -1, the process table, the free pages and every
reference count are as before. -/
theorem fork_exact (h : s.Ok p) (hl : s.Lives p pt tf A) (hheld : s.FilesHeld p)
    (hstale : ∀ q, (s.proc q).state = .unused → (s.proc q).ofile = fun _ => none) :
    ∃ s' r, s.fork p = .ok (s', r) ∧ (r ≠ -1 → (∃ c, s.ForkedChild s' p c r) ∧ s.SameSelf s' p) ∧
      (r = -1 → s.Clean s') := by
  cases hrun : s.fork p with
  | error => exact absurd hheld (fork_error h.ready hl hrun).1
  | ok q =>
    obtain ⟨s', r⟩ := q
    refine ⟨s', r, rfl, ?_⟩
    cases fork_cases h.ready hl hrun with
    | noProc hs =>
      obtain ⟨_, _, hs₀, hnone, -⟩ := h.ready.allocated
      rw [hs₀] at hs
      cases hs
      obtain ⟨hpool, hkept, hfs, hfile, -⟩ := hnone rfl
      exact ⟨absurd rfl, fun _ =>
        ⟨hpool.mem, h.slotsKept hkept, by rw [hfs], hfile, by rw [hfs]⟩⟩
    | @noMemory s₁ _ _ _ m ha hm hw =>
      refine ⟨absurd rfl, fun _ => ?_⟩
      exact ha.clean h hm (congrArg Fs.refs ha.fs) (congrArg (fun fs => fs.log.outstanding) ha.fs)
    | @done s₁ _ np ntf npt m _ hs ha ho hw htf hrun =>
      have hp := ha.proc_of_ne (ha.ne h.ready hl)
      have hchild := ha.forkedChild h.ready hl (hstale np ha.unused) ho htf hrun
      obtain ⟨_, hmem, -, -, _, hlaunch, -⟩ :=
        ha.launch hp (show s₁.fs.refs = s.fs.refs by rw [ha.fs]) hrun
      refine ⟨fun _ => ⟨⟨np, hchild⟩, hl.sameSelf ?_ (hmem ▸ hw)⟩, fun hr => ?_⟩
      · rw [hlaunch.proc]
        exact Function.update_of_ne (ha.ne h.ready hl) ..
      · have := h.nextpid
        omega

theorem elfMachine_fork : ∃ s', elfMachine.fork 0 = .ok (s', 2) := by
  obtain ⟨s', hrun, -⟩ := exists_of_returns (x := elfMachine.fork 0) (r := 2) (c := fun _ => true)
    (by decide +kernel)
  exact ⟨s', hrun⟩

/-- The parent has a page of memory and an open file. -/
theorem fork_exact_page_and_file : ∃ s' c, elfMachine.fork 0 = .ok (s', 2) ∧
    elfMachine.userMemory 0 = userPage (fun _ => 7) ∧ (elfMachine.proc 0).ofile 0 = some 0 ∧
    elfMachine.ForkedChild s' 0 c 2 ∧ elfMachine.SameSelf s' 0 := by
  obtain ⟨hok, -, hl⟩ := elfMachine_ok
  obtain ⟨s', hrun⟩ := elfMachine_fork
  obtain ⟨_, _, hs', hdone, -⟩ := fork_exact hok hl (userMachine_filesHeld ..) (fun q hq => by
    have hq0 : q ≠ 0 := by
      rintro rfl
      cases hq
    simp [elfMachine, userMachine, fileMachine, setProc, hq0])
  cases hrun.symm.trans hs'
  obtain ⟨⟨c, hchild⟩, hself⟩ := hdone (by decide)
  exact ⟨s', c, hrun, hl.userMemory, rfl, hchild, hself⟩

/-- **What `fork` takes, `freeproc` gives back.** When the child of a `fork` is freed, the same
pages are free as before the call, each of them once, and no other page has changed. -/
theorem fork_freeproc (h : s.Ok p) (hl : s.Lives p pt tf A) (hrun : s.fork p = .ok (s', r))
    (hr : r ≠ -1) : ∃ c m, s.IsNew s' c r ∧
      s'.freeproc c = .ok { s'.setProc c (s'.proc c).freed with mem := m } ∧ m.freelist.Nodup ∧
      (∀ x, x ∈ m.freelist ↔ x ∈ s.mem.freelist) ∧
      ∀ x, x ∉ s.mem.freelist → m.page x = s.mem.page x := by
  cases fork_cases h.ready hl hrun with
  | noProc | noMemory => exact absurd rfl hr
  | @done s₁ _ np ntf npt _ _ hs ha ho hw htf hlaunch =>
    have hp := ha.proc_of_ne (ha.ne h.ready hl)
    obtain ⟨rfl, rfl, -, ⟨_, _, _⟩, _, hnew, hsz, -, hntf, hnpt⟩ :=
      ha.launch hp (show s₁.fs.refs = s.fs.refs by rw [ha.fs]) hlaunch
    have hnp := hnew.proc_np
    obtain ⟨m, hm, hpool, hw'⟩ := freeproc_full (s := s') np (by rw [hnp, hntf])
      (by rw [hnp, hnpt]) ho (by rw [hnp, hsz]; exact hl.spans) (ha.inRange h.ready hw)
      (fun hc => hc.2 rfl)
    rw [ha.insert_trapframe] at hpool hw'
    exact ⟨np, m, ⟨ha.unused, by rw [hnp, hnew.state], by rw [hnp, hnew.pid]⟩, hm, hpool.nodup,
      hpool.mem, fun x hx => (hw.trans hw').page x hx⟩

/-- The parent has a page of memory and an open file. -/
theorem fork_freeproc_page_and_file : ∃ s' c m, elfMachine.fork 0 = .ok (s', 2) ∧
    elfMachine.IsNew s' c 2 ∧
    s'.freeproc c = .ok { s'.setProc c (s'.proc c).freed with mem := m } ∧
    ∀ x, x ∈ m.freelist ↔ x ∈ elfMachine.mem.freelist := by
  obtain ⟨hok, -, hl⟩ := elfMachine_ok
  obtain ⟨s', hrun⟩ := elfMachine_fork
  obtain ⟨c, m, hnew, hfree, -, hmem, -⟩ := fork_freeproc hok hl hrun (by decide)
  exact ⟨s', c, m, hrun, hnew, hfree, hmem⟩

end System

end Xv6
