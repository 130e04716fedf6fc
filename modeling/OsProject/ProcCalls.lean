import OsProject.ProcMem

/-!
# What the calls that create processes come to

`fork`, `exec` and `spawn` can end in few ways, and each way is described once:
which slot was allocated, what became of the free pages, which address space was
built, and what the file-system calls were (`ForkEnd`, `ExecEnd`, `SpawnEnd`). What
the calls guarantee is read off these descriptions.
-/

namespace Xv6

open Phys AddrSpace Function

namespace Fs

/-- A file that `exec` and `spawn` have found and locked. -/
def Opens (fs : Fs) (cwd : Option (Fin NINODE)) (path : List UInt8) (fs' : Fs)
    (ip : Fin NINODE) : Prop :=
  ∃ fs₁ fs₂, fs.beginOp = .ok fs₁ ∧ fs₁.namei cwd path = .ok (fs₂, some ip) ∧
    fs₂.ilock ip = .ok fs'

/-- There is no such file. -/
def Misses (fs : Fs) (cwd : Option (Fin NINODE)) (path : List UInt8) (fs' : Fs) : Prop :=
  ∃ fs₁ fs₂, fs.beginOp = .ok fs₁ ∧ fs₁.namei cwd path = .ok (fs₂, none) ∧ fs₂.endOp = .ok fs'

variable {fs fs₃ : Fs} {cwd : Option (Fin NINODE)} {path : List UInt8} {ip : Fin NINODE}

theorem Opens.fileCalls (h : fs.Opens cwd path fs₃ ip) :
    fs.fileCalls cwd path = (fs₃.iput ip).endOp := by
  obtain ⟨_, fs₂, hb, hn, hl⟩ := h
  unfold Fs.fileCalls
  rw [hb, ok_bind, hn, ok_bind]
  show (fs₂.ilock ip >>= _) = _
  rw [hl, ok_bind]

theorem Misses.fileCalls (h : fs.Misses cwd path fs₃) : fs.fileCalls cwd path = .ok fs₃ := by
  obtain ⟨_, fs₂, hb, hn, he⟩ := h
  unfold Fs.fileCalls
  rw [hb, ok_bind, hn, ok_bind]
  exact he

/-- **How `exec` and `spawn` begin**: a call of the file system does not return, or
there is no such file, or the file is opened. -/
theorem opens_cases {α : Type}
    {none' : Fs → Except Fault α} {some' : Fs → Fin NINODE → Except Fault α} {x : Except Fault α}
    (h : (do
      let fs ← fs.beginOp
      let (fs, r) ← fs.namei cwd path
      match r with
      | none => do
        let fs ← fs.endOp
        none' fs
      | some ip => do
        let fs ← fs.ilock ip
        some' fs ip) = x) :
    (∃ e, fs.fileCalls cwd path = .error e ∧ x = .error e) ∨
    (∃ fs', fs.Misses cwd path fs' ∧ none' fs' = x) ∨
    ∃ fs' ip, fs.Opens cwd path fs' ip ∧ some' fs' ip = x := by
  subst h
  unfold Fs.fileCalls
  cases hb : fs.beginOp with
  | error e => exact .inl ⟨e, rfl, rfl⟩
  | ok fs₁ =>
    simp only [ok_bind]
    cases hn : fs₁.namei cwd path with
    | error e => exact .inl ⟨e, rfl, rfl⟩
    | ok y =>
      obtain ⟨fs₂, r⟩ := y
      simp only [ok_bind]
      cases r with
      | none =>
        dsimp only
        cases he : fs₂.endOp with
        | error e => exact .inl ⟨e, rfl, rfl⟩
        | ok fs' => exact .inr (.inl ⟨fs', ⟨fs₁, fs₂, hb, hn, he⟩, rfl⟩)
      | some ip =>
        dsimp only
        cases hl : fs₂.ilock ip with
        | error e => exact .inl ⟨e, rfl, rfl⟩
        | ok fs' => exact .inr (.inr ⟨fs', ip, ⟨fs₁, fs₂, hb, hn, hl⟩, rfl⟩)

end Fs

namespace System

/-- Process `p` has the page table `pt` for the address space `A` and the
trapframe `tf`, and none of their pages is free. -/
structure Lives (s : System) (p : Slot) (pt tf : ℕ) (A : AddrSpace) : Prop where
  pagetable : (s.proc p).pagetable = some pt
  trapframe : (s.proc p).trapframe = some tf
  space : s.mem.Space pt A (procTop s.mem.trampoline tf)
  spans : A.Spans (npages (s.proc p).sz)
  range : ∀ x ∈ insert tf (s.mem.owned pt A), s.mem.InRange x
  free : ∀ x ∈ insert tf (s.mem.owned pt A), x ∉ s.mem.freelist
  sep : tf ∉ s.mem.owned pt A

/-- The new process as `fork` and `spawn` see it once it has been allocated. -/
structure Allocated (s s₁ : System) (np : Slot) (tf pt : ℕ) : Prop where
  unused : (s.proc np).state = .unused
  proc : s₁.proc = (s.setProc np ((s.proc np).allocated s.nextpid tf pt)).proc
  nextpid : s₁.nextpid = s.nextpid + 1
  fs : s₁.fs = s.fs
  file : s₁.file = s.file
  trapframe : tf ∈ s.mem.freelist
  within : Within s.mem s₁.mem s.mem.free
  owns : s₁.mem.Owns pt empty (procTop s.mem.trampoline tf)
    (s.mem.free \ {tf})

variable {s s' s₁ : System} {p np : Slot} {path name : List UInt8} {argv : List (List UInt8)}
  {pt tf sz : ℕ} {A : AddrSpace} {m m' : Phys} {fs fs' : Fs} {ip : Fin NINODE} {r pid : ℤ}
  {ofile : Fin NOFILE → Option (Fin NFILE)}

/-! ## The new process -/

theorem eq_some_of_deref {α : Type} {o : Option α} {a : α} (h : deref o = .ok a) : o = some a := by
  cases o with
  | none => cases h
  | some => rw [Except.ok.inj h]

namespace Allocated

variable (h : Allocated s s₁ np tf pt)
include h

theorem proc_np : s₁.proc np = (s.proc np).allocated s.nextpid tf pt := by
  rw [h.proc, setProc_proc_self]

theorem pagetable_np : (s₁.proc np).pagetable = some pt := by
  rw [h.proc_np]
  rfl

theorem trapframe_np : (s₁.proc np).trapframe = some tf := by
  rw [h.proc_np]
  rfl

/-- `allocproc` does not touch the current directory of any slot. -/
theorem cwd : (s₁.proc p).cwd = (s.proc p).cwd := by
  rw [h.proc]
  by_cases hp : p = np
  · subst hp
    rw [setProc_proc_self]
    rfl
  · simp [setProc, hp]

/-- The other slots. -/
theorem proc_of_ne (hp : p ≠ np) : s₁.proc p = s.proc p := by
  rw [h.proc]
  exact update_of_ne hp ..

theorem insert_trapframe :
    insert tf (s.mem.free \ {tf}) = s.mem.free := by
  rw [Set.insert_sdiff_singleton]
  exact Set.insert_eq_of_mem h.trapframe

theorem inRange (hr : s.Ready s.mem.free)
    (hw : Within s.mem m s.mem.free) : m.InRange tf :=
  hw.inRange.mpr (hr.pool.range tf h.trapframe)

theorem spans_np (hr : s.Ready s.mem.free) :
    empty.Spans (npages (s₁.proc np).sz) := by
  rw [h.proc_np]
  show empty.Spans (npages (s.proc np).sz)
  rw [(hr.vacant np h.unused).sz, npages_zero]
  exact spans_empty

end Allocated

/-- What `allocproc` does for `fork` and `spawn`. -/
theorem Ready.allocated (h : s.Ready s.mem.free) : ∃ s₁ r, s.allocproc = .ok (s₁, r) ∧
    (r = none → s₁.mem.Pool s.mem.free ∧ s.SlotsKept s₁ ∧ s₁.fs = s.fs ∧
      s₁.file = s.file ∧ Within s.mem s₁.mem s.mem.free) ∧
    (∀ np, r = some np → ∃ tf pt, Allocated s s₁ np tf pt) ∧
    (r.isSome ↔ (∃ q, (s.proc q).state = .unused) ∧ 4 ≤ s.mem.freelist.length) := by
  obtain ⟨s₁, r, hs₁, hw, hfs, hfile, hnone, hsome, hiff⟩ := h.allocproc
  refine ⟨s₁, r, hs₁, fun hr => ?_, fun np hr => ?_, hiff⟩
  · exact ⟨(hnone hr).1, (hnone hr).2, hfs, hfile, hw⟩
  · obtain ⟨hu, hnext, tf, htf, pt, hproc, howns⟩ := hsome np hr
    exact ⟨tf, pt, hu, hproc, hnext, hfs, hfile, htf, hw, howns⟩

/-- A process that has memory is not the slot that is allocated. -/
theorem Allocated.ne (ha : Allocated s s₁ np tf pt) (h : s.Ready s.mem.free)
    {pt' tf' : ℕ} (hl : s.Lives p pt' tf' A) : p ≠ np := by
  rintro rfl
  have hv := (h.vacant p ha.unused).pagetable
  rw [hl.pagetable] at hv
  cases hv

/-- The number of descriptors of a table that refer to file `f`. -/
def descriptors (ofile : Fin NOFILE → Option (Fin NFILE)) (f : Fin NFILE) : ℕ :=
  (List.finRange NOFILE).countP (fun i => decide (ofile i = some f))

/-- The loop over the open files, after the descriptors in `l`. -/
theorem dupFiles_fold {l : List (Fin NOFILE)}
    {r r' : (Fin NFILE → ℕ) × (Fin NOFILE → Option (Fin NFILE))}
    (h : l.foldlM (dupFile ofile) r = .ok r') :
    (∀ f, r'.1 f = r.1 f + l.countP (fun i => decide (ofile i = some f))) ∧
      ∀ i, r'.2 i = if i ∈ l ∧ (ofile i).isSome then ofile i else r.2 i := by
  induction l generalizing r with
  | nil =>
    cases h
    exact ⟨fun f => rfl, fun i => by simp⟩
  | cons i l ih =>
    rw [List.foldlM_cons] at h
    obtain ⟨_, hr₁, h⟩ := exists_of_bind_eq_ok h
    obtain ⟨hfile, hofile⟩ := ih h
    unfold dupFile at hr₁
    cases hi : ofile i with
    | none =>
      rw [hi] at hr₁
      cases hr₁
      refine ⟨fun f => ?_, fun j => ?_⟩
      · rw [hfile, List.countP_cons_of_neg (by simp [hi])]
      · rw [hofile]
        by_cases hj : j = i
        · subst hj
          simp [hi]
        · simp [hj]
    | some g =>
      rw [hi] at hr₁
      dsimp only at hr₁
      split at hr₁
      · cases hr₁
      cases hr₁
      refine ⟨fun f => ?_, fun j => ?_⟩
      · rw [hfile]
        by_cases hf : f = g
        · subst hf
          rw [List.countP_cons_of_pos (by simp [hi])]
          show update r.1 f (r.1 f + 1) f + _ = _
          rw [update_self]
          omega
        · rw [List.countP_cons_of_neg (by simpa [hi] using fun he => hf he.symm)]
          show update r.1 g (r.1 g + 1) f + _ = _
          rw [update_of_ne hf]
      · rw [hofile]
        by_cases hj : j = i
        · subst hj
          simp [hi]
        · simp [hj]

/-- **Duplicating the open files** into an empty table: the table is copied, and
every file has as many references more as it has descriptors. -/
theorem dupFiles_eq {file file' : Fin NFILE → ℕ} {ofile' : Fin NOFILE → Option (Fin NFILE)}
    (h : dupFiles file ofile (fun _ => none) = .ok (file', ofile')) :
    (∀ f, file' f = file f + descriptors ofile f) ∧ ofile' = ofile := by
  obtain ⟨hfile, hofile⟩ := dupFiles_fold h
  refine ⟨hfile, funext (fun i => (hofile i).trans ?_)⟩
  cases hi : ofile i <;> simp

/-- **What `launch` does.** -/
theorem launch_eq {NP : Proc} (h : s.launch p np NP name = .ok (s', pid)) :
    pid = NP.pid ∧ ∃ file ofile i, dupFiles s.file (s.proc p).ofile NP.ofile = .ok (file, ofile) ∧
      (s.proc p).cwd = some i ∧
      s' = { s.setProc np { NP with
              ofile := ofile, cwd := some i, name := name, parent := some p
              state := .runnable } with
            file := file, fs := s.fs.idup i } := by
  obtain ⟨⟨file, ofile⟩, hd, h⟩ := exists_of_bind_eq_ok h
  obtain ⟨i, hi, h⟩ := exists_of_bind_eq_ok h
  cases h
  exact ⟨rfl, file, ofile, i, hd, eq_some_of_deref hi, rfl⟩

/-! ## `fork` -/

/-- **What a call of `fork` comes to**, for a process with the address space `A` and
the trapframe `tf`. -/
inductive ForkEnd (s : System) (p : Slot) (A : AddrSpace) (tf : ℕ) : System → ℤ → Prop
  /-- No slot is unused, or there is no memory for one. -/
  | noProc {s₁ : System} (hs : s.allocproc = .ok (s₁, none)) : ForkEnd s p A tf s₁ (-1)
  /-- The memory of the parent could not be copied. -/
  | noMemory {s₁ : System} {np : Slot} {ntf npt : ℕ} {m : Phys} (ha : Allocated s s₁ np ntf npt)
      (hm : m.Pool s.mem.free) (hw : Within s.mem m s.mem.free) :
      ForkEnd s p A tf { s₁.setProc np (s₁.proc np).freed with mem := m } (-1)
  | done {s₁ s' : System} {np : Slot} {ntf npt : ℕ} {m : Phys} {pid : ℤ}
      (hs : s.allocproc = .ok (s₁, some np)) (ha : Allocated s s₁ np ntf npt)
      (ho : m.Owns npt A (procTop s.mem.trampoline ntf) (s.mem.free \ {ntf}))
      (hw : Within s.mem m s.mem.free)
      (htf : ∃ Q : Page, m.page ntf = Page.setWord
        (fun o => if o.val < trapframeSize then s.mem.page tf o else Q o) Reg.a0.index 0)
      (hrun : launch { s₁ with mem := m } p np { s₁.proc np with sz := (s.proc p).sz }
        (safestrcpy (s.proc p).name 16) = .ok (s', pid)) : ForkEnd s p A tf s' pid

theorem fork_cases (h : s.Ready s.mem.free) (hl : s.Lives p pt tf A)
    (hrun : s.fork p = .ok (s', r)) : ForkEnd s p A tf s' r := by
  obtain ⟨s₁, o, hs₁, -, hsome, -⟩ := h.allocated
  unfold fork at hrun
  rw [hs₁, ok_bind] at hrun
  cases o with
  | none =>
    cases hrun
    exact .noProc hs₁
  | some np =>
    obtain ⟨ntf, npt, ha⟩ := hsome np rfl
    have hp := ha.proc_of_ne (ha.ne h hl)
    have hold : ∀ x ∈ s.mem.owned pt A, x ∉ s.mem.freelist := fun x hx =>
      hl.free x (.inr hx)
    obtain ⟨hs, howned, -⟩ := hl.space.of_page s₁.mem (fun x hx => ha.within.page x (hold x hx))
    obtain ⟨m₂, ok, hm₂, hw₂, hyes, hno⟩ := ha.owns.uvmcopy hs
      (by rw [howned]; exact fun x hx hc => hold x hx hc.1) hl.spans
    have hw : Within s.mem m₂ s.mem.free :=
      ha.within.trans (hw₂.mono (fun x hx => hx.1))
    obtain ⟨_, hdold, hrun⟩ := exists_of_bind_eq_ok hrun
    obtain ⟨_, hdnew, hrun⟩ := exists_of_bind_eq_ok hrun
    rw [hp, hl.pagetable] at hdold
    rw [ha.pagetable_np] at hdnew
    cases hdold
    cases hdnew
    rw [hp, hm₂, ok_bind] at hrun
    cases ok with
    | false =>
      obtain ⟨m₃, hm₃, hpool, hw₃⟩ := freeproc_full (s := { s₁ with mem := m₂ }) np
        ha.trapframe_np ha.pagetable_np (hno rfl) (ha.spans_np h) (ha.inRange h hw)
        (fun hc => hc.2 rfl)
      rw [ha.insert_trapframe] at hpool hw₃
      obtain ⟨_, hs₃, hrun⟩ := exists_of_bind_eq_ok hrun
      rw [hm₃] at hs₃
      cases hs₃
      cases hrun
      show ForkEnd s p A tf { s₁.setProc np (s₁.proc np).freed with mem := m₃ } (-1)
      exact .noMemory ha hpool (hw.trans hw₃)
    | true =>
      obtain ⟨_, hdtf, hrun⟩ := exists_of_bind_eq_ok hrun
      obtain ⟨_, hdntf, hrun⟩ := exists_of_bind_eq_ok hrun
      rw [hl.trapframe] at hdtf
      rw [ha.trapframe_np] at hdntf
      cases hdtf
      cases hdntf
      -- the trapframe of the child is the only page written after the copy
      have ho := hyes rfl
      have hntf : ntf ∉ m₂.owned npt A := fun hc => (ho.sub hc).2 rfl
      have hw₃ : Within m₂ ((m₂.copyTrapframe tf ntf).setEntry ntf Reg.a0.index 0) {ntf} :=
        (within_setPage (Set.mem_singleton ntf) _).trans (within_setPage (Set.mem_singleton ntf) _)
      refine .done hs₁ ha (ho.within hw₃
        (fun x hx hc => hntf ((Set.mem_singleton_iff.mp hx) ▸ hc)) rfl) ?_ ?_ hrun
      · exact hw.trans (hw₃.mono (Set.singleton_subset_iff.mpr ha.trapframe))
      · refine ⟨m₂.page ntf, ?_⟩
        rw [setEntry_page, update_self, copyTrapframe, setPage_page, update_self,
          hw.page tf (hl.free tf (.inl rfl))]

/-! ## `exec` -/

/-- The code at `bad` before there is a local page table. -/
theorem bad_none (h : bad m fs none sz (some ip) = .ok (m', fs')) :
    m' = m ∧ (fs.iput ip).endOp = .ok fs' := by
  have h' : ((fs.iput ip).endOp >>= fun fs => .ok (m, fs)) = .ok (m', fs') := h
  obtain ⟨_, he, heq⟩ := exists_of_bind_eq_ok h'
  cases heq
  exact ⟨rfl, he⟩

/-- **What a call of `exec` comes to.** The inode has been put and the file-system
call ended, whatever happened. -/
inductive ExecEnd (s : System) (p : Slot) (path : List UInt8) (argv : List (List UInt8))
    (tf : ℕ) : System → ℤ → Prop
  /-- With the old program, on any of the ways to `bad` and before. -/
  | failed {m : Phys} {fs : Fs} (hm : m.Pool s.mem.free)
      (hw : Within s.mem m s.mem.free)
      (hfs : s.fs.fileCalls (s.proc p).cwd path = .ok fs) :
      ExecEnd s p path argv tf { s with mem := m, fs := fs } (-1)
  | done {s' : System} {fs₃ fs : Fs} {ip : Fin NINODE} {elf : ElfHdr} {m : Phys}
      {pt sz sp argc : ℕ} {A : AddrSpace} {r : ℤ}
      (hopen : s.fs.Opens (s.proc p).cwd path fs₃ ip) (hend : (fs₃.iput ip).endOp = .ok fs)
      (hload : loadFile (fs₃.inode ip).copy.data argv =
        some { pages := A, sz := sz, entry := elf.entry, sp := sp, argc := argc })
      (ho : m.Owns pt A (procTop s.mem.trampoline tf) s.mem.free)
      (hn : A.Spans (npages sz)) (hw : Within s.mem m s.mem.free)
      (hrun : s.execCommit p m fs path elf tf pt sz sp argc = .ok (s', r)) :
      ExecEnd s p path argv tf s' r

theorem exec_cases (h : s.Ready s.mem.free) (hl : s.Lives p pt tf A)
    (hrun : s.exec p path argv = .ok (s', r)) : ExecEnd s p path argv tf s' r := by
  rcases Fs.opens_cases hrun with ⟨_, -, hrun⟩ | ⟨fs₃, hmiss, hrun⟩ | ⟨fs₃, ip, hopen, hrun⟩
  · cases hrun
  · cases hrun
    exact .failed h.pool Within.refl hmiss.fileCalls
  · unfold execInode at hrun
    cases helf : elfHeader (fs₃.inode ip).copy.data with
    | none =>
      rw [helf] at hrun
      obtain ⟨⟨m₄, _⟩, hbad, hrun⟩ := exists_of_bind_eq_ok hrun
      cases hrun
      obtain ⟨rfl, hend⟩ := bad_none hbad
      exact .failed h.pool Within.refl (hopen.fileCalls.trans hend)
    | some =>
      rw [helf, hl.trapframe] at hrun
      simp only [deref, ok_bind] at hrun
      obtain ⟨m₄, o, hm₄, hw₄, hnone, hsome, -⟩ := h.pool.procPagetable
        (hl.range tf (.inl rfl)).isPage h.trampoline
      rw [hm₄, ok_bind] at hrun
      cases o with
      | none =>
        obtain ⟨⟨m₅, fs₅⟩, hbad, hrun⟩ := exists_of_bind_eq_ok hrun
        cases hrun
        obtain ⟨rfl, hend⟩ := bad_none hbad
        exact .failed (hnone rfl) hw₄ (hopen.fileCalls.trans hend)
      | some pt' =>
        obtain ⟨⟨m₅, fs₅, l⟩, hload, hrun⟩ := exists_of_bind_eq_ok hrun
        cases l with
        | bad =>
          obtain ⟨⟨_, _⟩, hbad, hrun⟩ := exists_of_bind_eq_ok hrun
          cases hrun
          obtain ⟨hpool, hw, hend⟩ := bad_of_loadProgram (hsome pt' rfl) hload hbad
          exact .failed hpool (hw₄.trans hw) (hopen.fileCalls.trans hend)
        | done sz sp argc =>
          obtain ⟨hw₅, _, ho₅, -, hdone⟩ := loadProgram_owns (hsome pt' rfl) hload
          obtain ⟨hn, hend, hfile⟩ := hdone sz sp argc rfl
          exact .done hopen hend (hfile helf) ho₅ hn (hw₄.trans hw₅) hrun

/-! ## `spawn` -/

/-- `spawn` from `goto bad` on frees the trapframe and resets the slot. -/
theorem Allocated.spawnBad (h : Allocated s s₁ np tf pt) {m₂ : Phys} {fs₂ : Fs}
    {q : Option ℕ} {ip : Option (Fin NINODE)}
    (hbad : bad m fs q sz ip = .ok (m₂, fs₂)) (hr : m₂.InRange tf) : s₁.spawnBad np m fs q sz ip =
      .ok ({ s₁.setProc np (s₁.proc np).freed with mem := m₂.kfreed tf, fs := fs₂ }, -1) := by
  unfold System.spawnBad
  rw [hbad, ok_bind]
  dsimp only
  rw [freeproc_cleared (by simp [setProc, h.proc_np, Proc.allocated])
    (by simp [setProc]) (show InRange _ tf from hr), ok_bind]
  simp [setProc, Proc.freed]

/-- **What a call of `spawn` comes to.** -/
inductive SpawnEnd (s : System) (p : Slot) (path : List UInt8) : System → ℤ → Prop
  | noProc {s₁ : System} (hs : s.allocproc = .ok (s₁, none)) : SpawnEnd s p path s₁ (-1)
  | noFile {s₁ : System} {np : Slot} {tf pt : ℕ} {m : Phys} {fs : Fs}
      (ha : Allocated s s₁ np tf pt) (hmiss : s.fs.Misses (s.proc p).cwd path fs)
      (hm : m.Pool s.mem.free) (hw : Within s.mem m s.mem.free) :
      SpawnEnd s p path { s₁.setProc np (s₁.proc np).freed with mem := m, fs := fs } (-1)
  /-- The page table of the new process is lost. -/
  | noHeader {s₁ : System} {np : Slot} {tf pt : ℕ} {fs₃ fs : Fs} {ip : Fin NINODE}
      (hs : s.allocproc = .ok (s₁, some np)) (ha : Allocated s s₁ np tf pt)
      (hopen : s.fs.Opens (s.proc p).cwd path fs₃ ip)
      (hend : (fs₃.iput ip).endOp = .ok fs) (helf : elfHeader (fs₃.inode ip).copy.data = none) :
      SpawnEnd s p path
        { s₁.setProc np (s₁.proc np).freed with mem := s₁.mem.kfreed tf, fs := fs } (-1)
  | badImage {s₁ : System} {np : Slot} {tf pt : ℕ} {m : Phys} {fs₃ fs : Fs} {ip : Fin NINODE}
      {elf : ElfHdr} (ha : Allocated s s₁ np tf pt)
      (hopen : s.fs.Opens (s.proc p).cwd path fs₃ ip)
      (hend : (fs₃.iput ip).endOp = .ok fs) (helf : elfHeader (fs₃.inode ip).copy.data = some elf)
      (hm : m.Pool s.mem.free) (hw : Within s.mem m s.mem.free) :
      SpawnEnd s p path { s₁.setProc np (s₁.proc np).freed with mem := m, fs := fs } (-1)
  | done {s₁ s' : System} {np : Slot} {ntf npt : ℕ} {m : Phys} {fs₃ fs : Fs} {ip : Fin NINODE}
      {elf : ElfHdr} {sz sp argc : ℕ} {A : AddrSpace} {pid : ℤ}
      (hs : s.allocproc = .ok (s₁, some np)) (ha : Allocated s s₁ np ntf npt)
      (hopen : s.fs.Opens (s.proc p).cwd path fs₃ ip) (hend : (fs₃.iput ip).endOp = .ok fs)
      (helf : elfHeader (fs₃.inode ip).copy.data = some elf)
      (hload : loadFile (fs₃.inode ip).copy.data [path] =
        some { pages := A, sz := sz, entry := elf.entry, sp := sp, argc := argc })
      (ho : m.Owns npt A (procTop s.mem.trampoline ntf) (s.mem.free \ {ntf}))
      (hn : A.Spans (npages sz)) (hw : Within s.mem m s.mem.free)
      (hrun : s₁.spawnCommit p np m fs path elf sz sp argc = .ok (s', pid)) :
      SpawnEnd s p path s' pid

theorem spawn_cases (h : s.Ready s.mem.free) (hrun : s.spawn p path = .ok (s', r)) :
    SpawnEnd s p path s' r := by
  obtain ⟨s₁, o, hs₁, -, hsome, -⟩ := h.allocated
  unfold spawn at hrun
  rw [hs₁, ok_bind] at hrun
  cases o with
  | none =>
    cases hrun
    exact .noProc hs₁
  | some np =>
    obtain ⟨_, pt, ha⟩ := hsome np rfl
    have hr := ha.inRange h ha.within
    dsimp only at hrun
    rw [ha.fs, ha.cwd] at hrun
    rcases Fs.opens_cases hrun with ⟨_, -, hrun⟩ | ⟨fs₃, hmiss, hrun⟩ | ⟨fs₃, ip, hopen, hrun⟩
    · cases hrun
    · obtain ⟨m, hm, hpool, hw⟩ := freeproc_full (s := { s₁ with fs := fs₃ }) np
        ha.trapframe_np ha.pagetable_np ha.owns (ha.spans_np h) hr (fun hc => hc.2 rfl)
      rw [ha.insert_trapframe] at hpool hw
      simp only [hm, ok_bind] at hrun
      cases hrun
      show SpawnEnd s p path { s₁.setProc np (s₁.proc np).freed with mem := m, fs := fs₃ } (-1)
      exact .noFile ha hmiss hpool (ha.within.trans hw)
    · unfold spawnInode at hrun
      cases helf : elfHeader (fs₃.inode ip).copy.data with
      | none =>
        rw [helf] at hrun
        have hrun' := hrun
        obtain ⟨⟨m₄, fs₄⟩, hbad, -⟩ := exists_of_bind_eq_ok hrun
        obtain ⟨rfl, hend⟩ := bad_none hbad
        rw [ha.spawnBad hbad hr] at hrun'
        cases hrun'
        exact .noHeader hs₁ ha hopen hend helf
      | some =>
        rw [helf, ha.pagetable_np] at hrun
        simp only [deref, ok_bind] at hrun
        obtain ⟨⟨m₄, fs₄, l⟩, hload, hrun⟩ := exists_of_bind_eq_ok hrun
        cases l with
        | bad sz ip' =>
          have hrun' : s₁.spawnBad np m₄ fs₄ (some pt) sz ip' = .ok (s', r) := hrun
          obtain ⟨⟨m₅, _⟩, hbad, -⟩ := exists_of_bind_eq_ok hrun
          obtain ⟨hpool, hw, hend⟩ := bad_of_loadProgram ha.owns hload hbad
          have hw' : Within s.mem m₅ s.mem.free :=
            ha.within.trans (hw.mono (fun x hx => hx.1))
          have hpool' := hpool.kfree (ha.inRange h hw') (fun hc => hc.2 rfl)
          rw [ha.insert_trapframe] at hpool'
          rw [ha.spawnBad hbad (ha.inRange h hw')] at hrun'
          cases hrun'
          exact .badImage ha hopen hend helf hpool' (hw'.trans (within_kfreed ha.trapframe))
        | done sz sp argc =>
          obtain ⟨hw₄, _, ho₄, -, hdone⟩ := loadProgram_owns ha.owns hload
          obtain ⟨hn, hend, hfile⟩ := hdone sz sp argc rfl
          exact .done hs₁ ha hopen hend helf (hfile helf) ho₄ hn
            (ha.within.trans (hw₄.mono (fun x hx => hx.1))) hrun

end System

end Xv6
