import OsProject.SmallMachine

/-!
# No program file makes the loader panic

The code that `exec` and `spawn` run on a file calls `panic` in `walk`,
`mappages`, `uvmunmap`, `uvmclear`, `freewalk`, `loadseg` and `kfree`. Whatever
the bytes of the file are, and however much memory is free, none of these is
reached: a call of `exec` or `spawn` returns, unless the file-system calls it
makes do not return by themselves (`exec_error`, `spawn_error`). Those have
panics of their own, but none of the memory (`fileCalls_error`).
-/

namespace Xv6

open Phys Set

/-- The panics of `vm.c`, of `loadseg` and of `kfree`, and recursion of
`freewalk` beyond the levels of a page table. -/
def Fault.ofMemory : Fault → Bool
  | .kfree | .walk | .mapNotAligned | .mapSizeNotAligned | .mapSize | .mapRemap
  | .unmapNotAligned | .unmapWalk | .unmapNotMapped | .unmapNotLeaf | .freewalkLeaf
  | .copyNoPte | .copyNotPresent | .clear | .loadseg | .depth => true
  | _ => false

/-- The faults of file-system calls: panics of `fs.c` and `log.c`, a current
directory that is null, and waiting for other calls. -/
def Fault.ofFiles : Fault → Bool
  | .iget | .ilock | .ilockNoType | .dirlookupNotDir | .dirlookupRead | .logCommitting
  | .nullPointer | .blocked => true
  | _ => false

/-! ## Faults of file-system calls -/

namespace Fs

variable {fs : Fs} {i : Fin NINODE} {e : Fault} {path name : List UInt8} {cwd : Option (Fin NINODE)}

theorem ilock_error (h : fs.ilock i = .error e) : e = .ilock ∨ e = .ilockNoType := by
  unfold ilock at h
  dsimp only at h
  split_ifs at h
  · exact .inl (Except.error.inj h).symm
  · exact .inr (Except.error.inj h).symm

theorem dirScan_error {data : List UInt8} {off n : ℕ} (h : dirScan data name off n = .error e) :
    e = .dirlookupRead := by
  induction n generalizing off with
  | zero => cases h
  | succ n ih =>
    unfold dirScan at h
    dsimp only at h
    split_ifs at h
    · exact (Except.error.inj h).symm
    · exact ih h
    · exact ih h

theorem dirlookup_error (h : fs.dirlookup i name = .error e) :
    e = .dirlookupNotDir ∨ e = .dirlookupRead ∨ e = .iget := by
  unfold dirlookup at h
  dsimp only at h
  split_ifs at h
  · exact .inl (Except.error.inj h).symm
  · rcases error_or_of_bind_eq_error h with h | ⟨r, -, h⟩
    · exact .inr (.inl (dirScan_error h))
    · cases r with
      | none => cases h
      | some =>
        rcases error_or_of_bind_eq_error h with h | ⟨a, -, h⟩
        · exact .inr (.inr (iget_error h))
        · cases h

/-- With a round for every character the loop of `namex` does not run out of
rounds. -/
theorem namexLoop_error {nameiparent : Bool} {rounds : ℕ}
    (h : namexLoop nameiparent rounds fs i path name = .error e) (hlen : path.length < rounds) :
    e.ofFiles = true := by
  induction rounds generalizing fs i path name with
  | zero => exact absurd hlen (Nat.not_lt_zero _)
  | succ rounds ih =>
    unfold namexLoop at h
    cases hskip : skipelem path with
    | none =>
      rw [hskip] at h
      split_ifs at h
    | some r =>
      obtain ⟨_, _⟩ := r
      have hrest := length_of_skipelem hskip
      rw [hskip] at h
      rcases error_or_of_bind_eq_error h with h | ⟨fs₁, -, h⟩
      · rcases ilock_error h with rfl | rfl <;> rfl
      · split_ifs at h
        rcases error_or_of_bind_eq_error h with h | ⟨⟨fs₂, next⟩, -, h⟩
        · rcases dirlookup_error h with rfl | rfl | rfl <;> rfl
        · cases next with
          | none => cases h
          | some => exact ih h (by omega)

theorem namei_error (h : fs.namei cwd path = .error e) : e.ofFiles = true := by
  rcases error_or_of_bind_eq_error h with h | ⟨a, -, h⟩
  · unfold namex at h
    split_ifs at h
    · rcases error_or_of_bind_eq_error h with h | ⟨⟨fs₁, j⟩, -, h⟩
      · rw [iget_error h]
        rfl
      · exact namexLoop_error h (Nat.lt_succ_self _)
    · cases cwd with
      | none =>
        cases h
        rfl
      | some => exact namexLoop_error h (Nat.lt_succ_self _)
  · cases h

theorem beginOp_error (h : fs.beginOp = .error e) : e = .blocked := by
  unfold beginOp at h
  split_ifs at h
  · exact (Except.error.inj h).symm
  · exact (Except.error.inj h).symm

theorem endOp_error (h : fs.endOp = .error e) : e = .logCommitting := by
  unfold endOp at h
  split_ifs at h
  exact (Except.error.inj h).symm

theorem fileCalls_error (h : fs.fileCalls cwd path = .error e) : e.ofFiles = true := by
  rcases error_or_of_bind_eq_error h with h | ⟨fs₁, -, h⟩
  · rw [beginOp_error h]
    rfl
  · rcases error_or_of_bind_eq_error h with h | ⟨⟨fs₂, r⟩, -, h⟩
    · exact namei_error h
    · cases r with
      | none =>
        rw [endOp_error h]
        rfl
      | some =>
        rcases error_or_of_bind_eq_error h with h | ⟨fs₃, -, h⟩
        · rcases ilock_error h with rfl | rfl <;> rfl
        · rw [endOp_error h]
          rfl

end Fs

/-! ## Loading -/

namespace System

variable {s s₁ : System} {p np : Slot} {path : List UInt8} {argv : List (List UInt8)}
  {F : Set ℕ} {pt tf tr sz : ℕ} {A : AddrSpace} {m m' : Phys} {fs fs₁ : Fs} {ip : Fin NINODE}
  {elf : ElfHdr} {e : Fault}

/-- Loading does not fail other than by `goto bad`, apart from the end of the
file-system call and the array `ustack`. -/
theorem loadProgram_error (ho : m.Owns pt AddrSpace.empty (procTop tr tf) F)
    (h : loadProgram m fs ip elf pt argv = .error e) :
    (fs.iput ip).endOp = .error e ∨ (e = .ustack ∧ MAXARG ≤ argv.length) := by
  obtain ⟨_, _, ok, _, hm₁, _, ho₁, hl₁, -⟩ := ho.loadSegs
    (fs.inode ip).copy.data (elf.phoff % 2 ^ 32) 0
    (by rw [npages_zero]; exact AddrSpace.Loading.empty)
  unfold loadProgram at h
  rw [hm₁, ok_bind] at h
  cases ok with
  | false => cases h
  | true =>
    rcases error_or_of_bind_eq_error h with h | ⟨fs₁, -, h⟩
    · exact .inl h
    · rcases ho₁.buildStack argv hl₁.spans with ⟨herr, hmax⟩ | ⟨m₂, sz₂, r, A₂, hm₂, -⟩
      · rw [herr] at h
        cases h
        exact .inr ⟨rfl, hmax⟩
      · rw [hm₂, ok_bind] at h
        cases r with
        | none => cases h
        | some => cases h

/-- The code at `bad` does not fail, apart from the end of the file-system
call. -/
theorem bad_error {ip' : Option (Fin NINODE)} (ho : m.Owns pt AddrSpace.empty (procTop tr tf) F)
    (hrun : loadProgram m fs ip elf pt argv = .ok (m', fs₁, .bad sz ip'))
    (h : bad m' fs₁ (some pt) sz ip' = .error e) : (fs.iput ip).endOp = .error e := by
  obtain ⟨-, _, ho', hbad, -⟩ := loadProgram_owns ho hrun
  obtain ⟨hn, hfs⟩ := hbad sz ip' rfl
  obtain ⟨_, hm₃, -⟩ := ho'.procFreepagetable hn
  unfold bad at h
  simp only [hm₃, ok_bind] at h
  rcases hfs with ⟨rfl, rfl⟩ | ⟨rfl, -⟩
  · rcases error_or_of_bind_eq_error h with h | ⟨fs₂, -, h⟩
    · exact h
    · cases h
  · cases h

theorem bad_none_error (h : bad m fs none sz (some ip) = .error e) :
    (fs.iput ip).endOp = .error e := by
  have h' : ((fs.iput ip).endOp >>= fun fs => .ok (m, fs)) = .error e := h
  rcases error_or_of_bind_eq_error h' with h' | ⟨fs₁, -, h'⟩
  · exact h'
  · cases h'

/-- **Committing to the new image frees the old one**, and leaves the new one and
the rest of the trapframe alone. -/
theorem Lives.execCommit {pt' : ℕ} {A' : AddrSpace} {T : ℕ → ℕ} (hl : s.Lives p pt tf A)
    (fs : Fs) (path : List UInt8) (elf : ElfHdr) (sz sp argc : ℕ)
    (ho : m.Owns pt' A' T s.mem.free)
    (hw : Within s.mem m s.mem.free) :
    ∃ m', s.execCommit p m fs path elf tf pt' sz sp argc =
        .ok ({ s.setProc p { s.proc p with
                name := safestrcpy (lastElem path) 16, pagetable := some pt', sz := sz } with
              mem := m', fs := fs }, argc) ∧
      m'.Space pt' A' T ∧ m'.owned pt' A' = m.owned pt' A' ∧
      m'.Pool (m.free ∪ s.mem.owned pt A) ∧
      Within m m' (insert tf (m.free ∪ s.mem.owned pt A)) ∧
      m'.page tf = (((s.mem.page tf).setWord Reg.a1.index sp).setWord Reg.epc.index
        elf.entry).setWord Reg.sp.index sp := by
  have htf : tf ∉ s.mem.freelist := hl.free tf (mem_insert _ _)
  -- the trapframe is written first
  obtain ⟨m₁, hm₁⟩ : ∃ m₁, ((m.setEntry tf Reg.a1.index sp).setEntry tf Reg.epc.index
      elf.entry).setEntry tf Reg.sp.index sp = m₁ := ⟨_, rfl⟩
  have hw₁ : Within m m₁ {tf} := by
    rw [← hm₁]
    exact ((within_setPage (mem_singleton tf) _).trans
      (within_setPage (mem_singleton tf) _)).trans (within_setPage (mem_singleton tf) _)
  have hfree₁ : m₁.freelist = m.freelist := by
    rw [← hm₁]
    rfl
  have hpage : m₁.page tf = (((s.mem.page tf).setWord Reg.a1.index sp).setWord Reg.epc.index
      elf.entry).setWord Reg.sp.index sp := by
    rw [← hm₁]
    simp only [setEntry_page, Function.update_self]
    rw [hw.page tf htf]
  have hsub : ∀ x ∈ m₁.freelist, x ∈ s.mem.freelist := fun x hx =>
    ((ho.free x).mp (hfree₁ ▸ hx)).1
  have hold : ∀ x ∈ s.mem.owned pt A, m₁.page x = s.mem.page x := by
    intro x hx
    have hne : x ∉ ({tf} : Set ℕ) := fun he => hl.sep ((mem_singleton_iff.mp he) ▸ hx)
    rw [hw₁.page x hne, hw.page x (hl.free x (mem_insert_of_mem _ hx))]
  obtain ⟨hs₁, howned, -⟩ := hl.space.of_page m₁ hold
  have ho₁ := hs₁.owns
    ⟨hfree₁ ▸ ho.nodup, fun _ => Iff.rfl, fun x hx =>
      hw₁.inRange.mpr (ho.range x (hsub x hx))⟩
    (by
      rw [howned]
      exact fun x hx =>
        hw₁.inRange.mpr (hw.inRange.mpr (hl.range x (mem_insert_of_mem _ hx))))
    (by
      rw [howned]
      exact fun x hx hc => hl.free x (mem_insert_of_mem _ hx) (hsub x hc))
  obtain ⟨m', hm', hpool', hw'⟩ := ho₁.procFreepagetable hl.spans
  -- the new address space is made of pages that were free and no longer are
  have hnew : ∀ x ∈ m.owned pt' A', m'.page x = m.page x := by
    intro x hx
    have hF : x ∈ s.mem.freelist := ho.sub hx
    have hne : x ∉ ({tf} : Set ℕ) := fun he => htf ((mem_singleton_iff.mp he) ▸ hF)
    rw [hw'.page x, hw₁.page x hne]
    rintro (hc | hc)
    · exact ((ho.free x).mp (hfree₁ ▸ hc)).2 hx
    · rw [howned] at hc
      exact hl.free x (mem_insert_of_mem _ hc) hF
  obtain ⟨hs', howned', -⟩ := ho.toSpace.of_page _ hnew
  refine ⟨m', ?_, hs', howned', ?_, ?_, ?_⟩
  · unfold System.execCommit
    simp only [hl.pagetable, deref, ok_bind]
    rw [hm₁, hm', ok_bind]
  · rwa [howned, Phys.free, hfree₁] at hpool'
  · rw [howned, Phys.free, hfree₁] at hw'
    exact (hw₁.mono (singleton_subset_iff.mpr (mem_insert _ _))).trans
      (hw'.mono (subset_insert _ _))
  · rw [hw'.page tf, hpage]
    rintro (hc | hc)
    · exact htf (hsub tf hc)
    · rw [howned] at hc
      exact hl.sep hc

/-- **`exec` returns, unless its file-system calls do not.** The only other way
to go wrong is an argument vector that does not fit into `ustack`. -/
theorem exec_error (h : s.Ready s.mem.free) (hl : s.Lives p pt tf A)
    (hrun : s.exec p path argv = .error e) :
    s.fs.fileCalls (s.proc p).cwd path = .error e ∨ (e = .ustack ∧ MAXARG ≤ argv.length) := by
  rcases Fs.opens_cases hrun with ⟨_, hfs, he⟩ | ⟨_, -, hrun⟩ | ⟨fs₃, ip, hopen, hrun⟩
  · cases he
    exact .inl hfs
  · cases hrun
  · rw [hopen.fileCalls]
    unfold execInode at hrun
    cases helf : elfHeader (fs₃.inode ip).copy.data with
    | none =>
      rw [helf] at hrun
      rcases error_or_of_bind_eq_error hrun with he | ⟨q, -, hrun⟩
      · exact .inl (bad_none_error he)
      · cases hrun
    | some elf =>
      rw [helf, hl.trapframe] at hrun
      simp only [deref, ok_bind] at hrun
      obtain ⟨_, r, hm₄, hw₄, -, hsome, -⟩ := h.pool.procPagetable
        (hl.range tf (mem_insert _ _)).isPage h.trampoline
      rw [hm₄, ok_bind] at hrun
      cases r with
      | none =>
        rcases error_or_of_bind_eq_error hrun with he | ⟨q, -, hrun⟩
        · exact .inl (bad_none_error he)
        · cases hrun
      | some pt' =>
        rcases error_or_of_bind_eq_error hrun with he | ⟨⟨m₅, fs₅, l⟩, hload, hrun⟩
        · exact loadProgram_error (hsome pt' rfl) he
        cases l with
        | bad =>
          rcases error_or_of_bind_eq_error hrun with he | ⟨q, -, hrun⟩
          · exact .inl (bad_error (hsome pt' rfl) hload he)
          · cases hrun
        | done sz sp argc =>
          obtain ⟨hw₅, _, ho₅, -⟩ := loadProgram_owns (hsome pt' rfl) hload
          obtain ⟨_, hm', -⟩ := hl.execCommit fs₅ path elf sz sp argc ho₅ (hw₄.trans hw₅)
          exact absurd (hrun.symm.trans hm') (by simp)

/-- The current directory and the open files of `p` are there to be duplicated. -/
def FilesHeld (s : System) (p : Slot) : Prop :=
  (s.proc p).cwd ≠ none ∧ ∀ i f, (s.proc p).ofile i = some f → 1 ≤ s.file f

theorem userMachine_filesHeld (data : List UInt8) (free : List ℕ) (user regs : Page) :
    (userMachine data free user regs).FilesHeld 0 := by
  refine ⟨nofun, fun i f hf => ?_⟩
  have hf' : (if i = 0 then some (0 : Fin NFILE) else none) = some f := hf
  split_ifs at hf'
  cases hf'
  exact le_rfl

/-- Duplicating open files only fails for a file without references. -/
theorem dupFiles_error {ofile : Fin NOFILE → Option (Fin NFILE)} {file : Fin NFILE → ℕ}
    {l : List (Fin NOFILE)} {r : (Fin NFILE → ℕ) × (Fin NOFILE → Option (Fin NFILE))}
    (hr : ∀ f, file f ≤ r.1 f) (h : l.foldlM (dupFile ofile) r = .error e) :
    e = .filedup ∧ ∃ i f, ofile i = some f ∧ file f < 1 := by
  induction l generalizing r with
  | nil => cases h
  | cons i l ih =>
    rw [List.foldlM_cons] at h
    unfold dupFile at h
    cases hi : ofile i with
    | none =>
      rw [hi] at h
      exact ih hr h
    | some f =>
      rw [hi] at h
      by_cases hf : r.1 f < 1
      · simp only [if_pos hf] at h
        exact ⟨(Except.error.inj h).symm, i, f, hi, lt_of_le_of_lt (hr f) hf⟩
      · simp only [if_neg hf, ok_bind] at h
        refine ih (fun g => ?_) h
        by_cases hg : g = f
        · subst hg
          simp only [Function.update_self]
          exact Nat.le_succ_of_le (hr g)
        · simp only [Function.update_of_ne hg]
          exact hr g

theorem launch_error {NP : Proc} {name : List UInt8} (h : s.launch p np NP name = .error e) :
    ¬ s.FilesHeld p ∧ (e = .filedup ∨ e = .nullPointer) := by
  rcases error_or_of_bind_eq_error h with hd | ⟨q, -, h⟩
  · obtain ⟨rfl, i, f, hi, hf⟩ := dupFiles_error (fun _ => le_rfl) hd
    exact ⟨fun hheld => absurd (hheld.2 i f hi) (Nat.not_le_of_lt hf), .inl rfl⟩
  · rcases error_or_of_bind_eq_error h with hc | ⟨c, -, h⟩
    · cases hcwd : (s.proc p).cwd with
      | none =>
        rw [hcwd] at hc
        exact ⟨fun hheld => hheld.1 hcwd, .inr (Except.error.inj hc).symm⟩
      | some =>
        rw [hcwd] at hc
        cases hc
    · cases h

/-- **`spawn` returns, unless its file-system calls do not**, or the files of the
caller cannot be duplicated. -/
theorem spawn_error (h : s.Ready s.mem.free) (hl : s.Lives p pt tf A)
    (hrun : s.spawn p path = .error e) : s.fs.fileCalls (s.proc p).cwd path = .error e ∨
      (¬ s.FilesHeld p ∧ (e = .filedup ∨ e = .nullPointer)) := by
  obtain ⟨s₁, r, hs₁, -, hsome, -⟩ := h.allocated
  unfold spawn at hrun
  rw [hs₁, ok_bind] at hrun
  cases r with
  | none => cases hrun
  | some np =>
    obtain ⟨_, _, ha⟩ := hsome np rfl
    have hp := ha.proc_of_ne (ha.ne h hl)
    have hrange := ha.inRange h ha.within
    dsimp only at hrun
    rw [ha.fs, hp] at hrun
    rcases Fs.opens_cases hrun with ⟨_, hfs, he⟩ | ⟨fs₃, -, hrun⟩ | ⟨fs₃, ip, hopen, hrun⟩
    · cases he
      exact .inl hfs
    · obtain ⟨_, hm, -⟩ := freeproc_full (s := { s₁ with fs := fs₃ }) np
        ha.trapframe_np ha.pagetable_np ha.owns (ha.spans_np h) hrange (fun hc => hc.2 rfl)
      simp only [hm, ok_bind] at hrun
      cases hrun
    · rw [hopen.fileCalls]
      unfold spawnInode at hrun
      cases helf : elfHeader (fs₃.inode ip).copy.data with
      | none =>
        rw [helf] at hrun
        have hrun' := hrun
        rcases error_or_of_bind_eq_error hrun with he | ⟨⟨m₄, fs₄⟩, hbad, -⟩
        · exact .inl (bad_none_error he)
        · obtain ⟨rfl, -⟩ := bad_none hbad
          exact absurd (hrun'.symm.trans (ha.spawnBad hbad hrange)) (by simp)
      | some =>
        rw [helf, ha.pagetable_np] at hrun
        simp only [deref, ok_bind] at hrun
        rcases error_or_of_bind_eq_error hrun with he | ⟨⟨m₄, fs₄, l⟩, hload, hrun⟩
        · exact .inl ((loadProgram_error ha.owns he).resolve_right (fun hc =>
            absurd hc.2 (by simp)))
        cases l with
        | bad =>
          have hrun' := hrun
          rcases error_or_of_bind_eq_error hrun with he | ⟨⟨m₅, fs₅⟩, hbad, -⟩
          · exact .inl (bad_error ha.owns hload he)
          · obtain ⟨-, hw, -⟩ := bad_of_loadProgram ha.owns hload hbad
            exact absurd (hrun'.symm.trans (ha.spawnBad hbad (hw.inRange.mpr hrange))) (by simp)
        | done =>
          refine .inr ?_
          unfold spawnCommit at hrun
          rw [hp, hl.trapframe, ha.trapframe_np] at hrun
          have hheld := launch_error hrun
          unfold FilesHeld at hheld ⊢
          rwa [hp, ha.file] at hheld

/-- **No program file can make the loader panic.** For every file and every
amount of free memory, `exec` and `spawn` return unless the file-system calls
they make do not return by themselves, the argument vector has `MAXARG` entries
or more, or the caller's files are not there; none of these is a panic in the
memory code or in `loadseg`. -/
theorem exec_spawn_no_panic (h : s.Ok p) (hl : s.Lives p pt tf A) (path : List UInt8)
    (argv : List (List UInt8)) : (∀ e, s.exec p path argv = .error e → e.ofMemory = false ∧
      (s.fs.fileCalls (s.proc p).cwd path = .error e ∨ MAXARG ≤ argv.length)) ∧
    (∀ e, s.spawn p path = .error e → e.ofMemory = false ∧
      (s.fs.fileCalls (s.proc p).cwd path = .error e ∨ ¬ s.FilesHeld p)) := by
  have hfiles : ∀ e : Fault, e.ofFiles = true → e.ofMemory = false := by
    intro e he
    cases e <;> first | rfl | cases he
  refine ⟨fun e he => ?_, fun e he => ?_⟩
  · rcases exec_error h.ready hl he with hc | ⟨rfl, hmax⟩
    · exact ⟨hfiles e (Fs.fileCalls_error hc), .inl hc⟩
    · exact ⟨rfl, .inr hmax⟩
  · rcases spawn_error h.ready hl he with hc | ⟨hheld, rfl | rfl⟩
    · exact ⟨hfiles e (Fs.fileCalls_error hc), .inl hc⟩
    · exact ⟨rfl, .inr hheld⟩
    · exact ⟨rfl, .inr hheld⟩

/-- A process with a page of memory and an open file, and a file that cannot be loaded. -/
def badMachine : System := userMachine badElf (freePages 12) (fun _ => 0) (fun _ => 0)

theorem badMachine_ok : badMachine.Ok 0 ∧ 0 < badMachine.mem.kend ∧
    badMachine.Lives 0 rootPage 0x87fff000 (userPage fun _ => 0) :=
  userMachine_ok _ _ _ _ (by decide +kernel) (by decide +kernel) (by decide +kernel)
    (by decide +kernel)

/-- The file is found. -/
theorem badMachine_fileCalls :
    (badMachine.fs.fileCalls (badMachine.proc 0).cwd [slash, 97]).isOk = true := by
  decide +kernel

/-- The calls return for a file that cannot be loaded, when pages are already mapped. -/
theorem exec_spawn_no_panic_badElf : (∃ s' r, badMachine.exec 0 [slash, 97] [] = .ok (s', r)) ∧
    ∃ s' r, badMachine.spawn 0 [slash, 97] = .ok (s', r) := by
  obtain ⟨hexec, hspawn⟩ := exec_spawn_no_panic badMachine_ok.1 badMachine_ok.2.2 [slash, 97] []
  have hcalls := badMachine_fileCalls
  constructor
  · cases hrun : badMachine.exec 0 [slash, 97] [] with
    | ok x => exact ⟨x.1, x.2, rfl⟩
    | error e =>
      rcases (hexec e hrun).2 with hc | hc
      · rw [hc] at hcalls
        cases hcalls
      · cases hc
  · cases hrun : badMachine.spawn 0 [slash, 97] with
    | ok x => exact ⟨x.1, x.2, rfl⟩
    | error e =>
      rcases (hspawn e hrun).2 with hc | hc
      · rw [hc] at hcalls
        cases hcalls
      · exact absurd (userMachine_filesHeld ..) hc

end System

end Xv6
