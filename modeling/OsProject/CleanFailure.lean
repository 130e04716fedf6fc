import OsProject.LoaderSafety

/-!
# What a failed `spawn` or `exec` leaves behind

A call that returns -1 should leave the system as it was: the same pages free,
the same process table, the same reference counts, and no file-system call in
progress.

`exec` does (`exec_neg_one_clean`). Its failures meet at one label, where the
page table built so far is freed together with as many pages as its size
says, and at every jump the size is that of the pages mapped by then.

`spawn` does not always. The page table of the new process exists from the
start, but the local variable that is freed at the label is set only after the
ELF header has been checked, and the pointer in the process is then cleared
without having been freed. So the three pages of the empty page table are lost
exactly if the path names a file without an ELF header
(`spawn_neg_one_clean_iff`).
-/

namespace Xv6

open Phys AddrSpace List

/-- The file begins with an ELF header. -/
def HasElfHeader (data : List UInt8) : Prop :=
  elfhdrSize ≤ data.length ∧ field data 0 4 = ELF_MAGIC

instance (data : List UInt8) : Decidable (HasElfHeader data) := inferInstanceAs (Decidable (_ ∧ _))

/-- **The check of the header.** -/
theorem isSome_elfHeader {data : List UInt8} : (elfHeader data).isSome ↔ HasElfHeader data := by
  have hread : readi data 0 elfhdrSize = data.take elfhdrSize := by
    rw [readi, if_neg nofun, drop_zero]
  have hmagic : (ElfHdr.ofBytes (data.take elfhdrSize)).magic = field data 0 4 := by
    show field (data.take 64) 0 4 = field data 0 4
    rw [field, field, drop_zero, drop_zero, take_take]
    rfl
  unfold elfHeader HasElfHeader
  simp only [hread, hmagic, length_take]
  by_cases hlen : elfhdrSize ≤ data.length
  · rw [if_neg (by omega)]
    by_cases hm : field data 0 4 = ELF_MAGIC
    · simp [hm, hlen]
    · simp [hm]
  · rw [if_pos (by omega)]
    simp [hlen]

namespace System

/-- The call has left no trace: the same pages are free, and the process table,
the reference counts of inodes and files and the number of file-system calls in
progress are the same. -/
structure Clean (s s' : System) : Prop where
  free : ∀ x, x ∈ s'.mem.freelist ↔ x ∈ s.mem.freelist
  proc : s'.proc = s.proc
  refs : s'.fs.refs = s.fs.refs
  file : s'.file = s.file
  outstanding : s'.fs.log.outstanding = s.fs.log.outstanding

variable {s s' s₁ : System} {p np : Slot} {path : List UInt8} {argv : List (List UInt8)} {pt tf : ℕ}
  {A : AddrSpace}

/-! ## `spawn` -/

/-- **How a call is clean after the slot has been freed again**: the pool is
back, and the file system and the files are as they were. -/
theorem Allocated.clean (h : Allocated s s₁ np tf pt) (hok : s.Ok p) {m : Phys} {fs : Fs}
    (hpool : m.Pool s.mem.free) (hrefs : fs.refs = s.fs.refs)
    (hout : fs.log.outstanding = s.fs.log.outstanding) :
    s.Clean { s₁.setProc np (s₁.proc np).freed with mem := m, fs := fs } where
  free := hpool.mem
  proc := by
    refine hok.slotsKept (slotsKept_setProc (P := s₁.proc np) h.unused (by rw [h.proc_np]; rfl) ?_)
    show Function.update s₁.proc np _ = Function.update s.proc np _
    rw [h.proc]
    exact Function.update_idem ..
  refs := hrefs
  file := h.file
  outstanding := hout

/-- **The page table of the new process is lost when it is freed through the
cleared pointer**: its root was free before the call. -/
theorem Allocated.not_clean (h : Allocated s s₁ np tf pt)
    (hmem : s'.mem.freelist = tf :: s₁.mem.freelist) : ¬ s.Clean s' := by
  intro hc
  have howned : pt ∈ s₁.mem.owned pt empty := .inl Radix.root_mem_nodes
  obtain ⟨hfree, hne⟩ := h.owns.sub howned
  have hmem' := (hc.free pt).mpr hfree
  rw [hmem, mem_cons] at hmem'
  rcases hmem' with htf | hin
  · exact hne htf
  · exact ((h.owns.free pt).mp hin).2 howned

/-- **A file that cannot be loaded is refused by `spawn`.** -/
theorem spawn_rejected (h : s.Ok p) (hl : s.Lives p pt tf A) {d n : ℕ}
    (hres : s.fs.resolve (s.proc p).cwd path = some (d, n))
    (hload : loadFile (s.fs.disk d n).data [path] = none)
    (hcalls : (s.fs.fileCalls (s.proc p).cwd path).isOk = true) (hheld : s.FilesHeld p) :
    ∃ s', s.spawn p path = .ok (s', -1) := by
  cases hrun : s.spawn p path with
  | error e =>
    rcases spawn_error h.ready hl hrun with hc | hc
    · rw [hc] at hcalls
      cases hcalls
    · exact absurd hheld hc.1
  | ok x =>
    obtain ⟨s', r⟩ := x
    cases spawn_cases h.ready hrun with
    | noProc | noFile | noHeader | badImage => exact ⟨_, rfl⟩
    | done _ _ hopen _ _ hload' =>
      obtain ⟨_, _, hres', hcopy, -⟩ := h.opens hopen
      cases hres.symm.trans hres'
      rw [hcopy, hload] at hload'
      cases hload'

/-- **A failed `spawn` is clean unless it stops at the ELF header.** It gives
everything back if there is no slot or not enough memory for the process, if the
path names nothing, and if loading the file fails after the header; if the file
has no ELF header, pages are lost. -/
theorem spawn_neg_one_clean_iff (h : s.Ok p) (hrun : s.spawn p path = .ok (s', -1)) :
    s.Clean s' ↔ (∀ q, (s.proc q).state ≠ .unused) ∨ s.mem.freelist.length < 4 ∨
      s.fs.resolve (s.proc p).cwd path = none ∨
      ∃ d n, s.fs.resolve (s.proc p).cwd path = some (d, n) ∧
        HasElfHeader (s.fs.disk d n).data := by
  obtain ⟨_, _, hs₀, hnone, -, hiff⟩ := h.ready.allocated
  -- a lookup that found a file leaves only the question of its header
  have hfound : ∀ {fs₃ : Fs} {ip : Fin NINODE}, s.fs.Opens (s.proc p).cwd path fs₃ ip →
      ∃ d n, s.fs.resolve (s.proc p).cwd path = some (d, n) ∧
        (elfHeader (fs₃.inode ip).copy.data).isSome = (elfHeader (s.fs.disk d n).data).isSome := by
    intro fs₃ ip hopen
    obtain ⟨d, n, hres, hcopy, -⟩ := h.opens hopen
    exact ⟨d, n, hres, by rw [hcopy]⟩
  cases spawn_cases h.ready hrun with
  | noProc hs =>
    rw [hs₀] at hs
    cases hs
    obtain ⟨hpool, hkept, hfs, hfile, -⟩ := hnone rfl
    refine iff_of_true ⟨hpool.mem, h.slotsKept hkept, by rw [hfs], hfile, by rw [hfs]⟩ ?_
    by_cases hu : ∃ q, (s.proc q).state = .unused
    · have hlt : ¬ 4 ≤ s.mem.freelist.length := fun h4 => by simpa using hiff.mpr ⟨hu, h4⟩
      exact .inr (.inl (by omega))
    · exact .inl fun q hq => hu ⟨q, hq⟩
  | noFile ha hmiss hm =>
    obtain ⟨_, _, hb, hn, hend⟩ := hmiss
    obtain ⟨-, hres, hrefs, hout⟩ := h.fs.lookup_none h.cwd hb hn hend
    exact iff_of_true (ha.clean h hm hrefs hout) (.inr (.inr (.inl hres)))
  | noHeader hs ha hopen _ helf =>
    refine iff_of_false (ha.not_clean rfl) ?_
    rw [hs₀] at hs
    cases hs
    obtain ⟨hu, h4⟩ := hiff.mp rfl
    obtain ⟨d, n, hres, hsame⟩ := hfound hopen
    rintro (hall | hlt | hc | ⟨d', n', hres', helf'⟩)
    · obtain ⟨q, hq⟩ := hu
      exact hall q hq
    · omega
    · rw [hres] at hc
      cases hc
    · rw [hres] at hres'
      cases hres'
      rw [← isSome_elfHeader, ← hsame, helf] at helf'
      cases helf'
  | badImage ha hopen hend helf hm _ =>
    obtain ⟨hrefs, hout⟩ := h.closes hopen hend
    obtain ⟨d, n, hres, hsame⟩ := hfound hopen
    refine iff_of_true (ha.clean h hm hrefs hout) (.inr (.inr (.inr ⟨d, n, hres, ?_⟩)))
    rw [← isSome_elfHeader, ← hsame, helf]
    rfl
  | done hs ha hopen hend helf hload ho hn hw hrun =>
    -- a process that was created has a positive number
    exfalso
    obtain ⟨_, -, hrun⟩ := exists_of_bind_eq_ok hrun
    obtain ⟨_, -, hrun⟩ := exists_of_bind_eq_ok hrun
    have hpid : (-1 : ℤ) = s.nextpid := by
      rw [(launch_eq hrun).1]
      rw [ha.proc_np]
      rfl
    have := h.nextpid
    omega

/-- The second segment of the file cannot be loaded, and the pages of the first one are
freed again. -/
theorem spawn_badElf_clean : ∃ s', badMachine.spawn 0 [slash, 97] = .ok (s', -1) ∧
    badMachine.Clean s' := by
  obtain ⟨hok, -, hl⟩ := badMachine_ok
  have hres : badMachine.fs.resolve (badMachine.proc 0).cwd [slash, 97] = some (ROOTDEV, 2) := by
    decide +kernel
  obtain ⟨s', hrun⟩ := spawn_rejected hok hl hres (by decide +kernel) badMachine_fileCalls
    (userMachine_filesHeld ..)
  exact ⟨s', hrun, (spawn_neg_one_clean_iff hok hrun).mpr
    (.inr (.inr (.inr ⟨_, _, hres, by decide +kernel⟩)))⟩

/-- Four pages that are not part of the process of `fileMachine`. -/
def fourPages : List ℕ := [0x87ff8000, 0x87ff9000, 0x87ffa000, 0x87ffb000]

/-- **`spawn` of an empty file loses the page table of the process**: of four
free pages one is left. -/
theorem spawn_empty_file_leaks : ∃ s', (fileMachine [] fourPages).Ok 0 ∧
    (fileMachine [] fourPages).mem.freelist = fourPages ∧
    (fileMachine [] fourPages).spawn 0 [slash, 97] = .ok (s', -1) ∧
    s'.mem.freelist = [0x87ff8000] ∧ ¬ (fileMachine [] fourPages).Clean s' := by
  have hok := (fileMachine_ok [] fourPages (by decide) (by decide)).1
  have hbefore : (fileMachine [] fourPages).mem.freelist = fourPages := by decide +kernel
  obtain ⟨s', hrun, hfree⟩ := exists_of_returns
    (x := (fileMachine [] fourPages).spawn 0 [slash, 97])
    (r := -1) (c := fun s' => s'.mem.freelist = [0x87ff8000]) (by decide +kernel)
  have hafter : s'.mem.freelist = [0x87ff8000] := of_decide_eq_true hfree
  refine ⟨s', hok, hbefore, hrun, hafter, fun hc => ?_⟩
  have hmem := (hc.free 0x87ff9000).mpr (by rw [hbefore]; decide)
  rw [hafter] at hmem
  exact absurd hmem nofun

/-! ## `exec` -/

/-- The memory of a process is not touched by what uses free pages only. -/
theorem Lives.of_within (h : s.Lives p pt tf A) (hp : s'.proc p = s.proc p)
    (hw : Within s.mem s'.mem s.mem.free)
    (hfree : ∀ x, x ∈ s'.mem.freelist ↔ x ∈ s.mem.freelist) : s'.Lives p pt tf A := by
  obtain ⟨hs, ho, -⟩ := h.space.of_page s'.mem
    (fun x hx => hw.page x (h.free x (.inr hx)))
  refine ⟨by rw [hp, h.pagetable], by rw [hp, h.trapframe], ?_, by rw [hp]; exact h.spans, ?_, ?_,
    by rw [ho]; exact h.sep⟩
  · rw [hw.trampoline]
    exact hs
  · rw [ho]
    exact fun x hx => hw.inRange.mpr (h.range x hx)
  · rw [ho]
    exact fun x hx hc => h.free x hx ((hfree x).mp hc)

/-- **A failed `exec` is clean.** The process table, the free pages, the
reference counts and the log are as before; the process still has its address
space and its trapframe, and no page that was in use has changed. -/
theorem exec_neg_one_clean (h : s.Ok p) (hl : s.Lives p pt tf A)
    (hrun : s.exec p path argv = .ok (s', -1)) :
    s.Clean s' ∧ s'.Lives p pt tf A ∧ ∀ x, x ∉ s.mem.freelist → s'.mem.page x = s.mem.page x := by
  cases exec_cases h.ready hl hrun with
  | failed hm hw hfs =>
    obtain ⟨hrefs, hout⟩ := h.fileCalls hfs
    exact ⟨⟨hm.mem, rfl, hrefs, rfl, hout⟩, hl.of_within rfl hw hm.mem, hw.page⟩
  | done hopen hend hload ho hn hw hrun =>
    -- a program that was loaded returns its number of arguments
    exfalso
    obtain ⟨_, -, hrun⟩ := exists_of_bind_eq_ok hrun
    obtain ⟨_, -, hrun⟩ := exists_of_bind_eq_ok hrun
    obtain ⟨-, _⟩ := Prod.mk.inj (Except.ok.inj hrun)
    omega

/-- **A file that cannot be loaded is refused by `exec`.** -/
theorem exec_rejected (h : s.Ok p) (hl : s.Lives p pt tf A) {d n : ℕ}
    (hres : s.fs.resolve (s.proc p).cwd path = some (d, n))
    (hload : loadFile (s.fs.disk d n).data argv = none)
    (hcalls : (s.fs.fileCalls (s.proc p).cwd path).isOk = true) (hargs : argv.length < MAXARG) :
    ∃ s', s.exec p path argv = .ok (s', -1) := by
  cases hrun : s.exec p path argv with
  | error e =>
    rcases exec_error h.ready hl hrun with hc | ⟨-, hmax⟩
    · rw [hc] at hcalls
      cases hcalls
    · exact absurd hargs hmax.not_gt
  | ok x =>
    obtain ⟨s', r⟩ := x
    cases exec_cases h.ready hl hrun with
    | failed => exact ⟨_, rfl⟩
    | done hopen _ hload' =>
      obtain ⟨_, _, hres', hcopy, -⟩ := h.opens hopen
      cases hres.symm.trans hres'
      rw [hcopy, hload] at hload'
      cases hload'

/-- The second segment of the file cannot be loaded. The caller, which has a page of memory
and an open file, goes on with what it had. -/
theorem exec_badElf_clean : ∃ s', badMachine.exec 0 [slash, 97] [] = .ok (s', -1) ∧
    badMachine.Clean s' ∧ s'.Lives 0 rootPage 0x87fff000 (userPage fun _ => 0) := by
  obtain ⟨hok, -, hl⟩ := badMachine_ok
  obtain ⟨s', hrun⟩ : ∃ s', badMachine.exec 0 [slash, 97] [] = .ok (s', -1) :=
    exec_rejected (d := ROOTDEV) (n := 2) hok hl (by decide +kernel) (by decide +kernel)
      badMachine_fileCalls (by decide)
  obtain ⟨hclean, hlives, -⟩ := exec_neg_one_clean hok hl hrun
  exact ⟨s', hrun, hclean, hlives⟩

end System

end Xv6
