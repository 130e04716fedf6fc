import OsProject.MachineInvariant

/-!
# Every run of the machine

The machine starts with the process that `userinit` makes, and no run from there brings it
out of order. For somebody who does not know the invariant this says: no page has two uses
(`memory_isolated`), a page table maps the pages of its process and nothing else
(`page_table_shape`), and the counts in the file table, in the table of inodes and in pipes
are the numbers of those who refer to them (`file_references`).
-/

namespace Xv6

open Phys Sysfile Function Set Machine Option

/-! ## The first process -/

namespace System

variable {m m' : Phys} {pt : ℕ} {T : ℕ → ℕ} {F : Set ℕ} {src : List UInt8}

/-- **`uvmfirst`** maps one page, or loses it. -/
theorem uvmfirst_owns (h : m.Owns pt AddrSpace.empty T F) (hrun : uvmfirst m pt src = .ok m') :
    Within m m' F ∧ ∃ A, ∃ F' ⊆ F, m'.Owns pt A T F' ∧ ((A 0).isSome → F' = F ∧ A.Spans 1) := by
  unfold uvmfirst at hrun
  split_ifs at hrun
  cases hfl : m.freelist with
  | nil =>
    rw [kalloc_nil hfl] at hrun
    cases hrun
  | cons x rest =>
    obtain ⟨m₁, ok, hm₁, hxF, hw₁, -, hyes, hno⟩ := h.mapNew (v := 0) hfl (fun _ => 0)
      (PTE_W ||| PTE_R ||| PTE_X ||| PTE_U) (by decide) rfl ⟨by decide, by decide, by decide⟩
    rw [kalloc_cons hfl] at hrun
    simp only [memset_memset] at hrun
    rw [zero_mul] at hm₁
    rw [memset, hm₁, ok_bind] at hrun
    cases hrun
    have hw₂ : Within m₁ (m₁.write x 0 src) {x} := within_setPage (mem_singleton x) _
    refine ⟨hw₁.trans (hw₂.mono (singleton_subset_iff.mpr hxF)), ?_⟩
    cases ok with
    | true =>
      obtain ⟨ho₂, hframe⟩ := hyes rfl
      have ho₃ := ho₂.writeUser (update_self ..) ((m₁.page x).write 0 src)
      rw [hframe] at ho₃
      refine ⟨_, F, subset_rfl, ho₃, fun _ => ⟨rfl, fun v => ?_⟩⟩
      by_cases hv : v = 0
      · simp [hv]
      · simp [hv, AddrSpace.empty]
    | false =>
      refine ⟨_, _, sdiff_subset, (hno rfl).1.within hw₂ (fun y hy hc => ?_) rfl, (by rintro ⟨⟩)⟩
      exact ((hno rfl).1.sub hc).2 hy

/-- **`userinit`** makes a process in the root directory, which has nothing open. -/
theorem Sound.userinit {s s' : System} {K : Set ℕ} {p : Slot} (h : s.Sound K)
    (hrun : s.userinit src = .ok (s', p)) :
    s.fs.namei none [slash] = .ok (s'.fs, (s'.proc p).cwd) ∧ s'.file = s.file ∧
      (s'.proc p).ofile = (s.proc p).ofile ∧ ¬ s'.Idle p ∧ (∀ q ≠ p, s'.proc q = s.proc q) ∧
      ((s'.userMemory p 0).isSome → Safe s s' K) := by
  obtain ⟨_, r, hs₁, -, hsome, -⟩ := h.ready.allocated
  unfold System.userinit at hrun
  rw [hs₁, ok_bind] at hrun
  obtain ⟨_, hnp, hrun⟩ := exists_of_bind_eq_ok hrun
  cases r with
  | none => cases hnp
  | some =>
    obtain rfl := Except.ok.inj hnp
    obtain ⟨tf, _, ha⟩ := hsome _ rfl
    dsimp only at hrun
    rw [ha.pagetable_np, ha.trapframe_np] at hrun
    simp only [deref, ok_bind] at hrun
    obtain ⟨m₁, hm₁, hrun⟩ := exists_of_bind_eq_ok hrun
    obtain ⟨⟨fs, _⟩, hfs, hrun⟩ := exists_of_bind_eq_ok hrun
    cases hrun
    obtain ⟨hw, A, _, hF, ho, hone⟩ := uvmfirst_owns ha.owns hm₁
    have hw₂ : Within m₁ ((m₁.setEntry tf Reg.epc.index 0).setEntry tf Reg.sp.index PGSIZE) {tf} :=
      (within_setPage (mem_singleton tf) _).trans (within_setPage (mem_singleton tf) _)
    have ho₂ := ho.within hw₂ (fun x hx hc => (hF (ho.sub hc)).2 hx) rfl
    refine ⟨?_, ha.file, ?_, ?_, fun q hq => ?_, fun hmapped => ?_⟩
    · rw [setProc_proc_self, ← ha.fs]
      exact hfs
    · rw [setProc_proc_self, ha.proc_np]
      rfl
    · unfold Idle
      rw [setProc_proc_self]
      rintro (hc | hc) <;> cases hc
    · exact (update_of_ne hq ..).trans (ha.proc_of_ne hq)
    · unfold userMemory at hmapped
      rw [setProc_proc_self] at hmapped
      dsimp only [elim_some] at hmapped
      rw [ho₂.toSpace.userPages] at hmapped
      obtain ⟨rfl, hspan⟩ := hone hmapped
      have hspans : A.Spans (npages PGSIZE) := hspan
      exact ha.safe h ho₂ hspans ((ha.within.trans (hw.mono sdiff_subset)).trans
        (hw₂.mono (singleton_subset_iff.mpr ha.trapframe))) rfl rfl rfl rfl (by rintro ⟨⟩)

end System

namespace Machine

variable {m : Phys} {disk : ℕ → ℕ → DInode} {initcode : List UInt8} {M M' M₀ : Machine}
  {ninodes : ℕ} {l : Label}

/-- **The machine has started**: `kinit` has put different pages on the free list, and the
program of the first process is in its memory. -/
structure Booted (m : Phys) (disk : ℕ → ℕ → DInode) (initcode : List UInt8) (M : Machine) :
    Prop where
  nodup : m.freelist.Nodup
  range : ∀ x ∈ m.freelist, m.InRange x
  trampoline : IsPage m.trampoline
  boot : boot m disk initcode = .ok M
  mapped : (M.sys.userMemory M.initproc 0).isSome

/-- Before `userinit` all pages are free. -/
theorem sound_blank (hnodup : m.freelist.Nodup) (hrange : ∀ x ∈ m.freelist, m.InRange x)
    (htr : IsPage m.trampoline) : (blank m disk).sys.Sound ∅ := by
  have hown : ∀ o x, x ∈ m.owns (blank m disk).sys.homes ∅ o → o = .free ∧ x ∈ m.freelist := by
    rintro (_ | _ | q) x hx
    · exact ⟨rfl, hx⟩
    · cases hx
    · cases hx
  refine ⟨⟨hnodup, htr, fun o x hx => hrange x (hown o x hx).2, ?_, nofun⟩,
    fun q _ => ⟨rfl, rfl, rfl⟩, fun q hq => absurd rfl hq⟩
  intro o o' hne
  refine disjoint_left.mpr fun x hx hx' => hne ?_
  rw [(hown o x hx).1, (hown o' x hx').1]

/-- Nothing refers to inodes either. -/
theorem holds_blank : (blank m disk).sys.fs.Holds (fun _ => 0) [] :=
  ⟨⟨fun _ _ h => absurd h (lt_irrefl 0), fun _ h => absurd h (lt_irrefl 0)⟩, fun _ => rfl⟩

/-- **The machine is in order when it has started.** -/
theorem Booted.inv (h : Booted m disk initcode M) : Inv M := by
  have hs₀ : (blank m disk).sys.Sound ∅ := sound_blank h.nodup h.range h.trampoline
  obtain ⟨⟨s, p⟩, hrun, hM⟩ := exists_of_bind_eq_ok h.boot
  cases hM
  obtain ⟨hnamei, hfile, hofile, hidle, hothers, hsafe⟩ := hs₀.userinit hrun
  have hsound := (hsafe h.mapped).sound
  have hfd : ∀ z : Slot × Fin NOFILE, (s.proc z.1).ofile z.2 = none := by
    intro z
    by_cases hz : z.1 = p
    · rw [hz, hofile]
      rfl
    · rw [hothers _ hz]
      rfl
  have hcwds : (fun q => (s.proc q).cwd) = update (fun _ => none) p (s.proc p).cwd := by
    funext q
    by_cases hq : q = p
    · rw [hq, update_self]
    · rw [update_of_ne hq, hothers q hq]
      rfl
  have hheld := (holds_blank.namei (fun i (hc : none = some i) => nomatch hc) [slash]).of_ok hnamei
  have hpipes : ({ blank m disk with sys := s, initproc := p } : Machine).files.pipes = ∅ :=
    eq_empty_of_forall_notMem (fun x ⟨_, _, hc⟩ => by cases hc)
  refine ⟨hpipes ▸ hsound, ⟨_, fun f => ?_, fun f _ => rfl, fun z f hz => ?_,
    fun f hf => absurd rfl hf, hheld.recount (fun j => ?_), fun e => ?_, ?_,
    hpipes ▸ hsound.isolated, rfl, hsound.table⟩, fun q hq => ?_⟩
  · show s.file f = _
    rw [hfile, Fiber.eq_zero_iff.mpr (fun z hz => ?_)]
    · rfl
    · exact nomatch (hfd z).symm.trans hz
  · exact nomatch (hfd z).symm.trans hz
  · have hinodes : fiber ({ blank m disk with sys := s, initproc := p } : Machine).files.inodes
        (some j) = 0 := Fiber.none_eq_zero j
    rw [State.users, hinodes]
    show _ = 0 + fiber (fun q => (s.proc q).cwd) (some j) + _
    rw [hcwds]
    cases (s.proc p).cwd with
    | none =>
      rw [update_eq_self_iff.mpr rfl, Fiber.none_eq_zero]
      rfl
    | some =>
      rw [Fiber.update_some rfl, Fiber.none_eq_zero]
      simp [List.count_singleton]
  · exact (Fiber.none_eq_zero e).trans_le (Nat.zero_le 1)
  · rw [hpipes]
    nofun
  · have hne : q ≠ p := fun hc => hidle (hc ▸ hq)
    rw [hothers q hne]
    exact ⟨fun _ => rfl, rfl⟩

/-! ## Runs -/

theorem Inv.step (h : Inv M) (hs : step ninodes M l = some M') : Next M M' := by
  unfold Machine.step at hs
  split_ifs at hs with hp
  exact (h.exec hp ninodes l.call).of_ok (eq_ok_of_toOption hs)

theorem Booted.inv_of_runs (h : Booted m disk initcode M₀)
    (hr : Lts.Runs (step ninodes) (fun _ _ => True) M₀ M) : Inv M :=
  hr.invariant h.inv (fun _ _ _ hI _ hs => (hI.step hs).1)

/-- A disk on which every inode is an empty directory. -/
def emptyDirs (_ _ : ℕ) : DInode := ⟨T_DIR, 0, 0, 1, []⟩

/-- The first process makes a pipe and then a child, in a machine with sixteen free pages and an
empty root directory. -/
theorem exists_run_pipe : ∃ M₀ M, Booted (ram 16) emptyDirs [] M₀ ∧
      Lts.Runs (step 1) (fun _ _ => True) M₀ M ∧ (M.sys.proc 1).state = .runnable ∧
      (M.sys.proc 1).sz = PGSIZE ∧ (M.files.file 0).ref = 2 := by
  obtain ⟨M₀, hboot, hinit, M, hr, hM⟩ : ∃ M₀ ∈ (boot (ram 16) emptyDirs []).toOption,
        (M₀.sys.userMemory M₀.initproc 0).isSome = true ∧
        ∃ M ∈ Lts.run (step 1) M₀ [⟨0, .files (.sysPipe 0) (fun _ _ => true)⟩, ⟨0, .fork⟩],
          (M.sys.proc 1).state = .runnable ∧ (M.sys.proc 1).sz = PGSIZE ∧
          (M.files.file 0).ref = 2 := by decide +kernel
  have hpool := pool_ram 16 le_rfl
  exact ⟨M₀, M, ⟨hpool.nodup, hpool.range, by unfold IsPage ram; decide,
    eq_ok_of_toOption hboot, hinit⟩, Lts.runs_of_run hr, hM⟩

/-! ## Pages -/

/-- What a page can be used for: a user page of a process, a page of its page table, its
trapframe, or the buffer of a pipe. -/
inductive Use
  | leaf (q : Slot) (v : ℕ)
  | table (q : Slot)
  | trapframe (q : Slot)
  | pipe

/-- Who has the page. -/
def Use.owner : Use → Owner
  | .leaf q _ | .table q | .trapframe q => .slot q
  | .pipe => .kernel

/-- **What page `x` is used for.** -/
def Uses (M : Machine) (x : ℕ) : Use → Prop
  | .leaf q v => ∃ pt, (M.sys.proc q).pagetable = some pt ∧ (M.sys.userMemory q v).isSome ∧
      M.sys.mem.frame pt v = x
  | .table q => ∃ pt, (M.sys.proc q).pagetable = some pt ∧ x ∈ M.sys.mem.tables pt
  | .trapframe q => (M.sys.proc q).trapframe = some x
  | .pipe => x ∈ M.files.pipes

variable {x : ℕ} {u u' : Use} {p q : Slot}

/-- A process that has memory. -/
theorem Inv.lives (h : Inv M) (hq : (M.sys.proc q).state ≠ .unused) :
    ∃ pt tf A, M.sys.Lives q pt tf A ∧ M.sys.userMemory q = A ∧
      ∀ x ∈ insert tf (M.sys.mem.owned pt A),
        x ∈ M.sys.mem.owns M.sys.homes M.files.pipes (.slot q) := by
  obtain ⟨pt, tf, A, hl, hhome⟩ := h.sound.lives hq
  refine ⟨pt, tf, A, hl, hl.userMemory, fun x hx => ?_⟩
  rw [mem_owns_slot hhome, hl.houses.pagesOf_eq]
  exact hx

/-- Where the pages of a process are. -/
def Use.At (pt tf : ℕ) (A : AddrSpace) (m : Phys) (x : ℕ) : Use → Prop
  | .leaf _ v => (A v).isSome ∧ m.frame pt v = x
  | .table _ => x ∈ m.tables pt
  | .trapframe _ => tf = x
  | .pipe => False

theorem Inv.use_cases (h : Inv M) (hu : M.Uses x u) : u = .pipe ∧ x ∈ M.files.pipes ∨
    ∃ q, u.owner = .slot q ∧ (M.sys.proc q).state ≠ .unused ∧
      ∀ pt tf A, M.sys.Lives q pt tf A → M.sys.userMemory q = A → u.At pt tf A M.sys.mem x := by
  have hused : ∀ q, (M.sys.proc q).state = .unused → (M.sys.proc q).Vacant := h.sound.vacant
  cases u with
  | leaf q =>
    obtain ⟨pt, hpt, hv, hx⟩ := hu
    refine .inr ⟨q, rfl, fun hc => ?_, fun pt' tf A hl hA => ?_⟩
    · rw [(hused q hc).pagetable] at hpt
      cases hpt
    · obtain rfl : pt' = pt := some.inj (hl.pagetable.symm.trans hpt)
      exact ⟨hA ▸ hv, hx⟩
  | table q =>
    obtain ⟨pt, hpt, hx⟩ := hu
    refine .inr ⟨q, rfl, fun hc => ?_, fun pt' tf A hl _ => ?_⟩
    · rw [(hused q hc).pagetable] at hpt
      cases hpt
    · obtain rfl : pt' = pt := some.inj (hl.pagetable.symm.trans hpt)
      exact hx
  | trapframe q =>
    have htf : (M.sys.proc q).trapframe = some x := hu
    refine .inr ⟨q, rfl, fun hc => ?_, fun pt tf A hl _ => ?_⟩
    · rw [(hused q hc).trapframe] at htf
      cases htf
    · exact some.inj (hl.trapframe.symm.trans htf)
  | pipe => exact .inl ⟨rfl, hu⟩

theorem Use.At.eq {pt tf : ℕ} {A : AddrSpace} {T : ℕ → ℕ} (hs : m.Space pt A T)
    (htf : tf ∉ m.owned pt A) (hq : u.owner = u'.owner) (hu : u.At pt tf A m x)
    (hu' : u'.At pt tf A m x) : u = u' := by
  have htable : tf ∉ m.tables pt := fun hc => htf (.inl hc)
  have hleaf : ∀ v, (A v).isSome → m.frame pt v ≠ tf := fun v hv hc => htf (.inr ⟨v, hv, hc⟩)
  have hsep := hs.sep
  have hinj := hs.inj
  cases u <;> cases u' <;> simp only [Use.At, Use.owner, Owner.slot.injEq] at hq hu hu' <;> grind

/-- A page in use belongs to somebody. -/
theorem Inv.mem_owner (h : Inv M) (hu : M.Uses x u) :
    x ∈ M.sys.mem.owns M.sys.homes M.files.pipes u.owner := by
  rcases h.use_cases hu with ⟨rfl, hx⟩ | ⟨q, ho, hq, hat⟩
  · exact hx
  · obtain ⟨pt, tf, A, hl, hA, hown⟩ := h.lives hq
    rw [ho]
    refine hown x ?_
    have hx := hat pt tf A hl hA
    cases u with
    | leaf _ v => exact .inr (.inr ⟨v, hx⟩)
    | table => exact .inr (.inl hx)
    | trapframe => exact .inl hx.symm
    | pipe => cases hx

/-- **A page has one use.** -/
theorem Inv.eq_of_uses (h : Inv M) (hu : M.Uses x u) (hu' : M.Uses x u') : u = u' := by
  have howner := h.sound.isolated.apart.eq (h.mem_owner hu) (h.mem_owner hu')
  rcases h.use_cases hu with ⟨rfl, -⟩ | ⟨q, ho, hq, hat⟩
  · rcases h.use_cases hu' with ⟨rfl, -⟩ | ⟨q, ho, -⟩
    · rfl
    · rw [ho] at howner
      cases howner
  · rcases h.use_cases hu' with ⟨rfl, -⟩ | ⟨q', ho', -, hat'⟩
    · rw [ho] at howner
      cases howner
    · obtain rfl : q = q' := Owner.slot.inj (ho.symm.trans (howner.trans ho'))
      obtain ⟨pt, tf, A, hl, hA, -⟩ := h.lives hq
      exact Use.At.eq hl.space hl.sep howner (hat pt tf A hl hA) (hat' pt tf A hl hA)

/-- A write in user mode stays in the memory of its process. -/
theorem Inv.userMemory_store (h : Inv M) {va : ℕ} {b : UInt8}
    (hs : Machine.step ninodes M ⟨p, .store va b⟩ = some M') (hne : q ≠ p) :
    M'.sys.userMemory q = M.sys.userMemory q := by
  unfold Machine.step at hs
  split_ifs at hs with hp
  have hp : (M.sys.proc p).state ≠ .unused := fun hc => hp.not_idle (.inl hc)
  obtain ⟨_, hst, hM⟩ := exists_of_bind_eq_ok (eq_ok_of_toOption hs)
  cases hM
  obtain ⟨_, m, _, hpt, hm, -, hw⟩ := h.sound.copyout hp va [b]
  unfold System.store at hst
  rw [hpt] at hst
  simp only [deref, ok_bind, hm] at hst
  cases hst
  by_cases hq : (M.sys.proc q).state = .unused
  · simp only [System.userMemory, (h.sound.vacant q hq).pagetable, elim_none]
  · obtain ⟨pt', _, A, hl, hA, hown⟩ := h.lives hq
    have hpage : ∀ x ∈ M.sys.mem.owned pt' A, m.page x = M.sys.mem.page x := by
      intro x hx
      rw [Isolated.reach_eq M.files.pipes] at hw
      refine hw.page x (h.sound.isolated.apart.notMem_together ?_ (hown x (.inr hx)))
      rintro (hc | hc)
      · cases hc
      · exact hne (Owner.slot.inj hc)
    rw [hA, System.userMemory, hl.pagetable, elim_some]
    exact (hl.space.of_page m hpage).1.userPages

/-- **Memory is isolated** in every state that the machine can reach: no page in use is free,
no page has two uses, and what a process writes changes the memory of no other. -/
theorem memory_isolated (h : Booted m disk initcode M₀)
    (hr : Lts.Runs (step ninodes) (fun _ _ => True) M₀ M) :
    (∀ x u, M.Uses x u → x ∉ M.sys.mem.freelist) ∧ (∀ x u u', M.Uses x u → M.Uses x u' → u = u') ∧
      ∀ p va b M', step ninodes M ⟨p, .store va b⟩ = some M' →
        ∀ q, q ≠ p → M'.sys.userMemory q = M.sys.userMemory q := by
  have hI := h.inv_of_runs hr
  refine ⟨fun x u hu hc => ?_, fun x u u' => hI.eq_of_uses, fun p va b M' hs q => ?_⟩
  · exact hI.sound.isolated.not_free (hI.mem_owner hu) (by cases u <;> exact nofun) hc
  · exact hI.userMemory_store hs

/-- The machine has been booted, and its first process has made a pipe and a child: no page of
the pipe is a page table of the child. -/
theorem memory_isolated_pipe : ∃ M₀ M, Booted (ram 16) emptyDirs [] M₀ ∧
    Lts.Runs (step 1) (fun _ _ => True) M₀ M ∧ (M.sys.proc 1).state = .runnable ∧
    (∀ x u, M.Uses x u → x ∉ M.sys.mem.freelist) ∧ ∀ x, M.Uses x .pipe → ¬ M.Uses x (.table 1) := by
  obtain ⟨M₀, M, hb, hr, hst, -⟩ := exists_run_pipe
  obtain ⟨hfree, hone, -⟩ := memory_isolated hb hr
  exact ⟨M₀, M, hb, hr, hst, hfree, fun x hx hc => nomatch hone x _ _ hx hc⟩

/-! ## Page tables -/

/-- **What a page table maps**: the pages of the process up to its size, the trapframe and the
trampoline. -/
theorem Inv.valid_iff (h : Inv M) (hq : (M.sys.proc q).state ≠ .unused) :
    ∃ pt, (M.sys.proc q).pagetable = some pt ∧ ∀ v < NVPN,
      (hasFlag (M.sys.mem.pte pt v) PTE_V = true ↔ v * PGSIZE < PGROUNDUP (M.sys.proc q).sz ∨
        v * PGSIZE = TRAPFRAME ∨ v * PGSIZE = TRAMPOLINE) := by
  obtain ⟨pt, _, A, hl, hhome⟩ := h.sound.lives hq
  have ho := (h.sound.isolated.owns_of_houses hhome hl.houses).1
  have hround := ho.PGROUNDUP_eq hl.spans
  have hlt := ho.spans_lt hl.spans
  refine ⟨pt, hl.pagetable, fun v hv => ?_⟩
  have hflag : ∀ b f, f < 2 ^ 10 → hasFlag (PA2PTE b ||| f) PTE_V = hasFlag f PTE_V :=
    fun b f hf => hasFlag_PA2PTE_or b hf (i := 0) (by decide)
  rw [hround, show TRAPFRAME = UVPN * PGSIZE from rfl,
    show TRAMPOLINE = (MAXVPN - 1) * PGSIZE from rfl, Nat.mul_lt_mul_right (by decide),
    Nat.mul_left_inj (by decide), Nat.mul_left_inj (by decide), ← hl.spans v]
  by_cases hu : v < UVPN
  · have hne : ¬ (v = UVPN ∨ v = MAXVPN - 1) := by
      rintro (hc | hc)
      · exact absurd hu (hc ▸ lt_irrefl _)
      · exact absurd hu (hc ▸ by decide)
    rw [or_iff_left hne]
    cases hA : A v with
    | none =>
      rw [hl.space.absent v hu hA]
      exact iff_of_false nofun nofun
    | some pg =>
      obtain ⟨-, hf, hleaf, -⟩ := hl.space.user v pg hA
      exact iff_of_true (IsLeaf.valid (hf ▸ hleaf)) rfl
  · have hA : ¬ (A v).isSome := fun hc => hu (lt_trans ((hl.spans v).mp hc) hlt)
    rw [or_iff_right hA, hl.space.top v (not_lt.mp hu) hv, procTop]
    by_cases htf : v = UVPN
    · rw [htf, update_self, Nat.or_assoc, hflag _ _ (by decide)]
      exact iff_of_true (by decide) (.inl rfl)
    · rw [update_of_ne htf]
      by_cases htr : v = MAXVPN - 1
      · rw [htr, update_self, Nat.or_assoc, hflag _ _ (by decide)]
        exact iff_of_true (by decide) (.inr rfl)
      · rw [update_of_ne htr]
        exact iff_of_false nofun fun hc => hc.elim htf htr

/-- **The shape of address spaces** in every state that the machine can reach: a page table
maps the pages below the size of its process, `TRAPFRAME` and `TRAMPOLINE`, and nothing else,
and no call panics in the code of the virtual memory. -/
theorem page_table_shape (h : Booted m disk initcode M₀)
    (hr : Lts.Runs (step ninodes) (fun _ _ => True) M₀ M) :
    (∀ q, (M.sys.proc q).state ≠ .unused → ∃ pt, (M.sys.proc q).pagetable = some pt ∧
      ∀ v < NVPN, (hasFlag (M.sys.mem.pte pt v) PTE_V = true ↔
        v * PGSIZE < PGROUNDUP (M.sys.proc q).sz ∨ v * PGSIZE = TRAPFRAME ∨
          v * PGSIZE = TRAMPOLINE)) ∧
      ∀ p (call : Call) e, M.Active p → call.exec ninodes M p = .error e → e.ofMemory = false := by
  have hI := h.inv_of_runs hr
  refine ⟨fun q hq => hI.valid_iff hq, fun p call e hp he => ?_⟩
  exact Bool.eq_false_of_not_eq_true ((hI.exec hp ninodes call).of_error he)

/-- In the same run, the child has the first page of its memory and not the second. -/
theorem page_table_shape_pipe : ∃ M₀ M pt, Booted (ram 16) emptyDirs [] M₀ ∧
    Lts.Runs (step 1) (fun _ _ => True) M₀ M ∧ (M.sys.proc 1).pagetable = some pt ∧
    hasFlag (M.sys.mem.pte pt 0) PTE_V = true ∧ hasFlag (M.sys.mem.pte pt 1) PTE_V = false := by
  obtain ⟨M₀, M, hb, hr, hst, hsz, -⟩ := exists_run_pipe
  obtain ⟨pt, hpt, hv⟩ := (page_table_shape hb hr).1 1 (by rw [hst]; nofun)
  rw [hsz] at hv
  refine ⟨M₀, M, pt, hb, hr, hpt, (hv 0 (by decide)).mpr (by decide), ?_⟩
  exact Bool.eq_false_of_not_eq_true fun hc => absurd ((hv 1 (by decide)).mp hc) (by decide)

/-! ## References -/

/-- **References to files balance** in every state that the machine can reach. The count of a
file is the number of descriptors for it, and a file without any is closed; the references to
inodes are those of open files and current directories; an end of a pipe is open while a file
is for it. A step that closes the last file of a pipe frees its page, and no other step does. -/
theorem file_references (h : Booted m disk initcode M₀)
    (hr : Lts.Runs (step ninodes) (fun _ _ => True) M₀ M) :
    (∀ f, (M.files.file f).ref = fiber M.files.fd (some f) ∧
      ((M.files.file f).ref = 0 → (M.files.file f).type = .none)) ∧ (∀ i, (M.files.fs.inode i).ref =
        fiber M.files.inodes (some i) + fiber M.files.cwds (some i)) ∧
      (∀ pi ∈ M.files.pipes, pi ∉ M.sys.mem.freelist ∧
        (M.sys.mem.page pi).readopen = fiber M.files.ends (some (pi, false)) ∧
        (M.sys.mem.page pi).writeopen = fiber M.files.ends (some (pi, true))) ∧
      ∀ l M', step ninodes M l = some M' → ∀ pi ∈ M.files.pipes,
        (pi ∈ M'.sys.mem.freelist ↔ pi ∉ M'.files.pipes) := by
  have hI := h.inv_of_runs hr
  obtain ⟨_, hb⟩ := hI.balanced
  have hapart : ∀ {M : Machine}, Inv M → ∀ pi ∈ M.files.pipes, pi ∉ M.sys.mem.freelist :=
    fun hI _ => hI.sound.isolated.kernel_not_free
  have hcount := hb.count
  have href := hb.held.ref
  simp only [List.count_nil, add_zero] at hcount href
  refine ⟨fun f => ⟨hcount f, hb.closed f⟩, href, fun pi hpi => ?_, fun l M' hs pi hpi => ?_⟩
  · exact ⟨hapart hI pi hpi, hb.isOpen pi hpi false, hb.isOpen pi hpi true⟩
  · obtain ⟨hI', hsub⟩ := hI.step hs
    exact ⟨fun hf hc => hapart hI' pi hc hf, fun hc => (hsub hpi).resolve_left hc⟩

/-- In the same run, an end of the pipe is open in the parent and in the child. -/
theorem file_references_pipe : ∃ M₀ M, Booted (ram 16) emptyDirs [] M₀ ∧
    Lts.Runs (step 1) (fun _ _ => True) M₀ M ∧ (M.files.file 0).ref = 2 ∧
    fiber M.files.fd (some 0) = 2 := by
  obtain ⟨M₀, M, hb, hr, -, -, href⟩ := exists_run_pipe
  exact ⟨M₀, M, hb, hr, href, ((file_references hb hr).1 0).1.symm.trans href⟩

end Machine

end Xv6
