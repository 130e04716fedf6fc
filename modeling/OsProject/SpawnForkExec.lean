import OsProject.CleanFailure

/-!
# `spawn` agrees with `fork` and `exec`

`spawn` is the bodies of `fork` and `exec` put together by hand, in another
order. When all three succeed, the process that `spawn` makes and the child that
`fork` makes, once it has called `exec`, are the same as far as a user can tell:
size, memory and permissions, the registers that `exec` sets, name, open files,
current directory and parent (`spawn_eq_fork_exec`).

The page tables are not the same pages, so the comparison is of what they
represent. Both calls refine `AddrSpace.loadFile`, and both look at the same
file, since `fork` changes no file.
-/

namespace Xv6

open Function (update update_idem update_of_ne update_self)

open Phys AddrSpace Page Option

/-- The user pages that the page table at `pt` maps, with their flags and
bytes. -/
def Phys.userPages (m : Phys) (pt : ℕ) : AddrSpace := fun v =>
  if v < UVPN ∧ hasFlag (m.pte pt v) PTE_V = true then
    some ⟨PTE_FLAGS (m.pte pt v), m.page (m.frame pt v)⟩
  else none

theorem Phys.Space.userPages {m : Phys} {pt : ℕ} {A : AddrSpace} {T : ℕ → ℕ}
    (h : Space m pt A T) : m.userPages pt = A := by
  funext v
  unfold Phys.userPages
  cases hA : A v with
  | some pg =>
    obtain ⟨hv, hfl, hleaf, hbytes⟩ := h.user v pg hA
    rw [if_pos ⟨hv, (hfl ▸ hleaf : IsLeaf (PTE_FLAGS _)).valid⟩, hfl, hbytes]
  | none =>
    refine if_neg fun hc => ?_
    rw [h.absent v hc.1 hA] at hc
    exact absurd hc.2 (by decide)

namespace Page

/-- A word that has been written does not depend on the page before. -/
theorem word_setWord_congr (P Q : Page) (i : Fin 512) (w : ℕ) :
    word (setWord P i w) i = word (setWord Q i w) i := by
  have hb : ∀ k : Fin 8, setWord P i w (offset i k) = setWord Q i w (offset i k) := by
    intro k
    have hk : (offset i k).val / 8 = i := by
      simp only [offset]
      omega
    simp only [setWord, hk, if_true]
  simp only [word, hb]

/-- Two pages that agree on a word still do after the same word has been
written in both. -/
theorem word_setWord_eq {P Q : Page} {i j : Fin 512} {w : ℕ}
    (h : j ≠ i → word P j = word Q j) : word (setWord P i w) j = word (setWord Q i w) j := by
  by_cases hj : j = i
  · subst hj
    exact word_setWord_congr P Q j w
  · rw [word_setWord_of_ne P hj, word_setWord_of_ne Q hj, h hj]

end Page

/-- The number of arguments of a program that was loaded. -/
theorem argc_lt_of_loadFile {data : List UInt8} {argv : List (List UInt8)} {img : Image}
    (h : loadFile data argv = some img) : img.argc < MAXARG := by
  unfold loadFile at h
  split at h
  · cases h
  split at h
  · cases h
  split at h
  · cases h
  rename_i hb
  cases h
  unfold AddrSpace.buildStack at hb
  dsimp only at hb
  split at hb
  · cases hb
  split_ifs at hb with hmax
  obtain ⟨-, heq⟩ := Prod.mk.inj (some.inj hb)
  obtain ⟨-, heq⟩ := Prod.mk.inj heq
  cases heq
  exact Nat.lt_of_not_le hmax

namespace System

/-- The memory that a process sees. -/
def userMemory (s : System) (p : Slot) : AddrSpace :=
  (s.proc p).pagetable.elim empty s.mem.userPages

/-- A saved register of a process. -/
def reg (s : System) (p : Slot) (r : Reg) : ℕ :=
  (s.proc p).trapframe.elim 0 (fun tf => (s.mem.page tf).word r.index)

/-- Slot `c` has become a process with the number `pid`. -/
structure IsNew (s s' : System) (c : Slot) (pid : ℤ) : Prop where
  before : (s.proc c).state = .unused
  after : (s'.proc c).state = .runnable
  pid : (s'.proc c).pid = pid

/-- Process `c` is the same in both states as far as a user can tell. -/
structure SameProcess (s s' : System) (c : Slot) : Prop where
  sz : (s.proc c).sz = (s'.proc c).sz
  memory : s.userMemory c = s'.userMemory c
  epc : s.reg c .epc = s'.reg c .epc
  sp : s.reg c .sp = s'.reg c .sp
  a0 : s.reg c .a0 = s'.reg c .a0
  a1 : s.reg c .a1 = s'.reg c .a1
  name : (s.proc c).name = (s'.proc c).name
  ofile : (s.proc c).ofile = (s'.proc c).ofile
  cwd : (s.proc c).cwd = (s'.proc c).cwd
  parent : (s.proc c).parent = (s'.proc c).parent

variable {s s' s₁ s₂ s₃ s₄ : System} {p np c : Slot} {path name : List UInt8}
  {argv : List (List UInt8)} {pt tf sz : ℕ} {A : AddrSpace} {pid r : ℤ} {P : Proc}

theorem Lives.userMemory (hl : s.Lives p pt tf A) : s.userMemory p = A := by
  rw [System.userMemory, hl.pagetable, elim_some, hl.space.userPages]

/-! ## The calls that succeed -/

/-- What `fork` and `spawn` give the new process besides its memory. -/
structure Launched (s s' : System) (p np : Slot) (P : Proc) : Prop where
  dup : dupFiles s.file (s.proc p).ofile (s.proc np).ofile = .ok (s'.file, P.ofile)
  cwd : P.cwd = (s.proc p).cwd
  parent : P.parent = some p
  state : P.state = .runnable
  pid : P.pid = s.nextpid
  proc : s'.proc = (s.setProc np P).proc
  refs : ∃ i, (s.proc p).cwd = some i ∧ s'.fs.refs = s.fs.refs + Pi.single i 1

theorem Launched.proc_np (h : Launched s s' p np P) : s'.proc np = P := by
  rw [h.proc, setProc_proc_self]

/-- The new process is the one that has been launched. -/
theorem Launched.eq_of_isNew (h : Launched s s' p np P) (hc : s.IsNew s' c pid) : c = np := by
  by_contra hne
  have hsame : s'.proc c = s.proc c := by
    rw [h.proc]
    exact update_of_ne hne ..
  have hafter := hc.after
  rw [hsame, hc.before] at hafter
  cases hafter

/-- **The end of `fork` and `spawn`.** -/
theorem Allocated.launch {ntf npt : ℕ} {m : Phys} {fs : Fs} (ha : Allocated s s₁ np ntf npt)
    (hp : s₁.proc p = s.proc p) (hrefs : fs.refs = s.fs.refs)
    (hrun : { s₁ with mem := m, fs := fs }.launch p np { s₁.proc np with sz := sz } name =
      .ok (s', pid)) :
    pid = s.nextpid ∧ s'.mem = m ∧ s'.nextpid = s.nextpid + 1 ∧
      (∃ i, (s.proc p).cwd = some i ∧ s'.fs = fs.idup i) ∧
      ∃ P, Launched s s' p np P ∧ P.sz = sz ∧ P.name = name ∧ P.trapframe = some ntf ∧
        P.pagetable = some npt := by
  obtain ⟨rfl, file, ofile, i, hd, hi, rfl⟩ := launch_eq hrun
  have hcwd : (s.proc p).cwd = some i := hp ▸ hi
  have hnp := ha.proc_np
  have hdup : dupFiles s.file (s.proc p).ofile (s.proc np).ofile = .ok (file, ofile) := by
    have hd' : dupFiles s₁.file (s₁.proc p).ofile (s₁.proc np).ofile = .ok (file, ofile) := hd
    rwa [ha.file, hp, hnp] at hd'
  refine ⟨by rw [hnp]; rfl, rfl, ha.nextpid, ⟨i, hcwd, rfl⟩,
    { s₁.proc np with
      sz := sz, ofile := ofile, cwd := some i, name := name, parent := some p, state := .runnable },
    ⟨hdup, hcwd.symm, rfl, rfl, by rw [hnp]; rfl, ?_, i, hcwd, ?_⟩, rfl, rfl, by rw [hnp]; rfl,
    by rw [hnp]; rfl⟩
  · rw [ha.proc]
    exact update_idem ..
  · rw [show (fs.idup i).refs = fs.refs + Pi.single i 1 from Fs.refs_setInode rfl, hrefs]

/-- **A `spawn` that succeeds.** -/
theorem spawn_done (h : s.Ok p) (hl : s.Lives p pt tf A) (hrun : s.spawn p path = .ok (s', pid))
    (hpid : pid ≠ -1) :
    pid = s.nextpid ∧ ∃ s₁ np ntf npt d n img P, s.allocproc = .ok (s₁, some np) ∧
      Allocated s s₁ np ntf npt ∧ s.fs.resolve (s.proc p).cwd path = some (d, n) ∧
      loadFile (s.fs.disk d n).data [path] = some img ∧ img.sz ≤ PHYSTOP ∧ Launched s s' p np P ∧
      P.sz = img.sz ∧ P.name = safestrcpy (lastElem path) 16 ∧ P.trapframe = some ntf ∧
      P.pagetable = some npt ∧ s'.mem.userPages npt = img.pages ∧
      ∃ Q : Page, s'.mem.page ntf = (((setWord Q Reg.a1.index img.sp).setWord Reg.epc.index
        img.entry).setWord Reg.sp.index img.sp).setWord Reg.a0.index img.argc := by
  cases spawn_cases h.ready hrun with
  | noProc | noFile | noHeader | badImage =>
    exact absurd rfl hpid
  | @done s₁ _ np ntf npt m₄ _ _ _ _ _ _ _ A' _ hs ha hopen hend helf hload ho hn hw hrun =>
    have hp := ha.proc_of_ne (ha.ne h.ready hl)
    obtain ⟨d, n, hres, hcopy, -⟩ := h.opens hopen
    obtain ⟨hrefs, -⟩ := h.closes hopen hend
    unfold spawnCommit at hrun
    rw [hp, hl.trapframe, ha.trapframe_np] at hrun
    obtain ⟨rfl, hmem, -, -, P, hlaunch, hsz, hname, htf, hpt⟩ := ha.launch hp hrefs hrun
    -- only the trapframe of the new process has been written since
    have hntf : ntf ∉ m₄.owned npt A' := fun hc => (ho.sub hc).2 rfl
    refine ⟨rfl, s₁, np, ntf, npt, d, n, _, P, hs, ha, hres, hcopy ▸ hload, ho.sz_le hn, hlaunch,
      hsz, hname, htf, hpt, ?_, ?_⟩
    · refine (ho.toSpace.of_page s'.mem (fun x hx => ?_)).1.userPages
      have hne : x ≠ ntf := fun he => hntf (he ▸ hx)
      simp only [hmem, setEntry_page, copyTrapframe, setPage_page, update_of_ne hne]
    · simp only [hmem, setEntry_page, update_self]
      exact ⟨_, rfl⟩

/-- **An `exec` that succeeds.** -/
theorem exec_done (h : s.Ok p) (hl : s.Lives p pt tf A) (hrun : s.exec p path argv = .ok (s', r))
    (hr : r ≠ -1) :
    ∃ d n img pt', s.fs.resolve (s.proc p).cwd path = some (d, n) ∧
      loadFile (s.fs.disk d n).data argv = some img ∧ img.sz ≤ PHYSTOP ∧ r = img.argc ∧
      s'.proc = (s.setProc p { s.proc p with
        name := safestrcpy (lastElem path) 16, pagetable := some pt', sz := img.sz }).proc ∧
      s'.file = s.file ∧ s'.fs.refs = s.fs.refs ∧ (∃ T, s'.mem.Space pt' img.pages T) ∧
      s'.mem.owned pt' img.pages ⊆ s.mem.free ∧
      ∃ Q : Page, s'.mem.page tf = ((setWord Q Reg.a1.index img.sp).setWord Reg.epc.index
        img.entry).setWord Reg.sp.index img.sp := by
  cases exec_cases h.ready hl hrun with
  | failed => exact absurd rfl hr
  | @done _ fs₃ fs ip elf m pt' sz sp argc A' _ hopen hend hload ho hn hw hrun =>
    obtain ⟨d, n, hres, hcopy, -⟩ := h.opens hopen
    obtain ⟨hrefs, -⟩ := h.closes hopen hend
    obtain ⟨m', hm', hspace, howned, -, -, hpage⟩ := hl.execCommit fs path elf sz sp argc ho hw
    rw [hm'] at hrun
    cases hrun
    have hsub : m'.owned pt' A' ⊆ s.mem.free := howned ▸ ho.sub
    exact ⟨d, n, _, pt', hres, hcopy ▸ hload, ho.sz_le hn, rfl, rfl, rfl, hrefs, ⟨_, hspace⟩, hsub,
      _, hpage⟩

/-- **A `fork` that succeeds.** The child has the address space of the parent,
and could make a system call. -/
theorem fork_done (h : s.Ok p) (hl : s.Lives p pt tf A) (hrun : s.fork p = .ok (s', pid))
    (hpid : pid ≠ -1) : pid = s.nextpid ∧ ∃ s₁ np ntf npt P, s.allocproc = .ok (s₁, some np) ∧
      Allocated s s₁ np ntf npt ∧ Launched s s' p np P ∧ P.trapframe = some ntf ∧
      (∃ i, (s.proc p).cwd = some i ∧ s'.fs = s.fs.idup i) ∧ s'.Ok np ∧ s'.Lives np npt ntf A := by
  cases fork_cases h.ready hl hrun with
  | noProc | noMemory => exact absurd rfl hpid
  | @done s₁ _ np ntf npt m _ hs ha ho hw _ hrun =>
    have hp := ha.proc_of_ne (ha.ne h.ready hl)
    obtain ⟨rfl, rfl, hnext, ⟨i, hi, hfs⟩, P, hlaunch, hsz, -, htf, hpt⟩ :=
      ha.launch hp (show s₁.fs.refs = s.fs.refs by rw [ha.fs]) hrun
    rw [ha.fs] at hfs
    have hpos : 0 < (s.fs.inode i).ref := h.cwd i hi
    have hnp := hlaunch.proc_np
    refine ⟨rfl, s₁, np, ntf, npt, P, hs, ha, hlaunch, htf, ⟨i, hi, hfs⟩,
      ⟨?_, ?_, ?_, ?_, ?_, ?_⟩, ⟨?_, ?_, ?_, ?_, ?_, ?_, ?_⟩⟩
    · exact ⟨ho.nodup, fun _ => Iff.rfl, fun x hx => ho.range x ((ho.free x).mp hx).1⟩
    · rw [hw.trampoline]
      exact h.trampoline
    · intro q hq
      have hqn : q ≠ np := by
        rintro rfl
        rw [hnp, hlaunch.state] at hq
        cases hq
      rw [hlaunch.proc] at hq ⊢
      simp only [setProc, update_of_ne hqn] at hq ⊢
      exact h.blank q hq
    · rw [hfs]
      exact (h.fs.idup hpos).1
    · rw [hnp, hlaunch.cwd, hi, hfs]
      rintro j hj
      cases hj
      simp [Fs.idup, Fs.setInode]
    · rw [hnext]
      have := h.nextpid
      omega
    · rw [hnp, hpt]
    · rw [hnp, htf]
    · rw [hw.trampoline]
      exact ho.toSpace
    · rw [hnp, hsz]
      exact hl.spans
    · rintro x (rfl | hx)
      · exact ha.inRange h.ready hw
      · exact ho.range x (ho.sub hx)
    · rintro x (rfl | hx) hc
      · exact ((ho.free _).mp hc).1.2 rfl
      · exact ((ho.free x).mp hc).2 hx
    · exact fun hc => (ho.sub hc).2 rfl

/-! ## Agreement -/

/-- Looking up a path does not depend on reference counts. -/
theorem resolve_idup (fs : Fs) (i : Fin NINODE) (cwd : Option (Fin NINODE)) (path : List UInt8) :
    (fs.idup i).resolve cwd path = fs.resolve cwd path := by
  unfold Fs.resolve
  congr 2
  funext j
  by_cases hj : j = i
  · subst hj
    simp [Fs.idup, Fs.setInode]
  · simp [Fs.idup, Fs.setInode, hj]

/-- **`spawn` agrees with `fork` and `exec`.** Let `spawn` of a path succeed, and
let `fork` succeed from the same state and then the child's `exec` of the same
path, with the path as only argument. Then the new process is the same in both
cases, and so are the reference counts of files and inodes. -/
theorem spawn_eq_fork_exec (h : s.Ok p) (hl : s.Lives p pt tf A)
    (hspawn : s.spawn p path = .ok (s₁, pid)) (hpid : pid ≠ -1) {pid' : ℤ}
    (hfork : s.fork p = .ok (s₂, pid')) (hpid' : pid' ≠ -1) (hc : s.IsNew s₂ c pid') (P : Page)
    (hexec : (s₂.trap c P).exec c path [path] = .ok (s₃, r)) (hr : r ≠ -1)
    (hret : s₃.syscallReturn c r = .ok s₄) :
    pid = pid' ∧ s.IsNew s₁ c pid ∧ s₁.SameProcess s₄ c ∧ s₁.file = s₄.file ∧
      s₁.fs.refs = s₄.fs.refs := by
  obtain ⟨rfl, _, _, _, _, _, _, img, _, hall, _, hres, hfile, -, hl₁, hsz, hname, htf,
    hpt, hpages, Q₁, hQ₁⟩ := spawn_done h hl hspawn hpid
  obtain ⟨rfl, _, _, ntf', _, P₂, hall', -, hl₂, htf₂, ⟨_, _, hfs₂⟩, hok₂, hlives₂⟩ :=
    fork_done h hl hfork hpid'
  -- both have allocated the same slot
  rw [hall] at hall'
  obtain ⟨rfl, hslot⟩ := Prod.mk.inj (Except.ok.inj hall')
  cases hslot
  obtain rfl := hl₂.eq_of_isNew hc
  obtain ⟨_, _, img', pt', hres', hfile', -, rfl, hproc₃, hfile₃, hrefs₃, ⟨_, hspace₃⟩, hsub₃,
    Q₃, hQ₃⟩ := exec_done (hok₂.trap P) (hlives₂.trap P) hexec hr
  obtain ⟨htproc, htfs, htfile⟩ := trap_eq P
  -- the same file is loaded
  rw [htfs, htproc, hl₂.proc_np, hl₂.cwd, hfs₂, resolve_idup, hres] at hres'
  cases hres'
  rw [htfs, hfs₂] at hfile'
  obtain rfl : img = img' := some.inj (hfile.symm.trans hfile')
  have hproc₃' : s₃.proc c = { P₂ with
      name := safestrcpy (lastElem path) 16, pagetable := some pt', sz := img.sz } := by
    rw [hproc₃, setProc_proc_self, htproc, hl₂.proc_np]
  -- the return from the system call
  have hargc : ((img.argc : ℤ) % 2 ^ 64).toNat = img.argc := by
    have hlt := argc_lt_of_loadFile hfile
    have hlt' : img.argc < 32 := hlt
    omega
  have htf₃ : (s₃.proc c).trapframe = some ntf' := by rw [hproc₃']; exact htf₂
  unfold syscallReturn at hret
  rw [htf₃, hargc] at hret
  cases hret
  have hpages₄ : (s₃.mem.setEntry ntf' Reg.a0.index img.argc).userPages pt' = img.pages := by
    refine (hspace₃.of_page _ (fun x hx => ?_)).1.userPages
    have hne : x ≠ ntf' := fun he =>
      (hlives₂.trap P).free ntf' (.inl rfl) (hsub₃ (he ▸ hx))
    rw [setEntry_page, update_of_ne hne]
  -- the registers are read off the two trapframe pages
  have hreg₁ : ∀ r, s₁.reg c r = ((((setWord Q₁ Reg.a1.index img.sp).setWord Reg.epc.index
      img.entry).setWord Reg.sp.index img.sp).setWord Reg.a0.index img.argc).word r.index := by
    intro r
    rw [reg, hl₁.proc_np, htf, elim_some, hQ₁]
  have hreg₄ : ∀ r, reg { s₃ with mem := s₃.mem.setEntry ntf' Reg.a0.index img.argc } c r =
      ((((setWord Q₃ Reg.a1.index img.sp).setWord Reg.epc.index
        img.entry).setWord Reg.sp.index img.sp).setWord Reg.a0.index img.argc).word r.index := by
    intro r
    rw [reg, htf₃, elim_some, setEntry_page, update_self, hQ₃]
  have hdup := hl₁.dup
  rw [hl₂.dup] at hdup
  obtain ⟨hfiles, hofile⟩ := Prod.mk.inj (Except.ok.inj hdup)
  obtain ⟨_, hi₁, hrefs₁⟩ := hl₁.refs
  obtain ⟨_, hi₂, hrefs₂⟩ := hl₂.refs
  refine ⟨rfl, ⟨hc.before, by rw [hl₁.proc_np, hl₁.state], by rw [hl₁.proc_np, hl₁.pid]⟩,
    ⟨?_, ?_, ?_, ?_, ?_, ?_, ?_, ?_, ?_, ?_⟩, ?_, ?_⟩
  · rw [hl₁.proc_np, hproc₃', hsz]
  · rw [userMemory, userMemory, hl₁.proc_np, hpt, elim_some, hpages]
    rw [hproc₃', elim_some, hpages₄]
  · rw [hreg₁, hreg₄]
    exact word_setWord_eq (fun _ => word_setWord_eq (fun _ =>
      word_setWord_congr _ _ _ _))
  · rw [hreg₁, hreg₄]
    exact word_setWord_eq fun _ => word_setWord_congr _ _ _ _
  · rw [hreg₁, hreg₄]
    exact word_setWord_congr _ _ _ _
  · rw [hreg₁, hreg₄]
    exact word_setWord_eq (fun _ => word_setWord_eq (fun _ =>
      word_setWord_eq (fun _ => word_setWord_congr _ _ _ _)))
  · rw [hl₁.proc_np, hproc₃', hname]
  · rw [hl₁.proc_np, hproc₃', hofile]
  · rw [hl₁.proc_np, hproc₃', hl₁.cwd]
    exact hl₂.cwd.symm
  · rw [hl₁.proc_np, hproc₃', hl₁.parent]
    exact hl₂.parent.symm
  · rw [← hfiles]
    exact (hfile₃.trans htfile).symm
  · rw [hrefs₁]
    rw [hrefs₃, htfs, hrefs₂]
    rw [hi₁] at hi₂
    rw [some.inj hi₂]

/-! ## A run of the three calls -/

/-- `exec` up to the commit, for a process with the trapframe `tf`. -/
def loadOnly (s : System) (p : Slot) (tf : ℕ) (path : List UInt8) (argv : List (List UInt8)) :
    Except Fault Load := do
  let fs ← s.fs.beginOp
  let (fs, r) ← fs.namei (s.proc p).cwd path
  let ip ← deref r
  let fs ← fs.ilock ip
  let elf ← deref (elfHeader (fs.inode ip).copy.data)
  let (m, pt) ← s.mem.procPagetable tf
  let pt ← deref pt
  let (_, _, l) ← loadProgram m fs ip elf pt argv
  .ok l

/-- Committing cannot fail. -/
theorem exec_of_loadOnly {sp argc : ℕ} (h : s.Ok p) (hl : s.Lives p pt tf A)
    (hload : s.loadOnly p tf path argv = .ok (.done sz sp argc)) :
    ∃ s', s.exec p path argv = .ok (s', argc) := by
  obtain ⟨_, hb, hload⟩ := exists_of_bind_eq_ok hload
  obtain ⟨⟨fs₂, _⟩, hn, hload⟩ := exists_of_bind_eq_ok hload
  obtain ⟨ip, hip, hload⟩ := exists_of_bind_eq_ok hload
  obtain ⟨_, hk, hload⟩ := exists_of_bind_eq_ok hload
  obtain ⟨elf, helf, hload⟩ := exists_of_bind_eq_ok hload
  obtain ⟨⟨_, _⟩, hm, hload⟩ := exists_of_bind_eq_ok hload
  obtain ⟨pt', hpt', hload⟩ := exists_of_bind_eq_ok hload
  obtain ⟨⟨m₅, fs₅, _⟩, hprog, hload⟩ := exists_of_bind_eq_ok hload
  cases hload
  obtain rfl := eq_some_of_deref hip
  obtain rfl := eq_some_of_deref hpt'
  obtain ⟨_, _, hm₄, hw₄, -, hsome, -⟩ := h.pool.procPagetable
    (hl.range tf (.inl rfl)).isPage h.trampoline
  cases hm₄.symm.trans hm
  obtain ⟨hw₅, _, ho₅, -⟩ := loadProgram_owns (hsome pt' rfl) hprog
  obtain ⟨_, hm', -⟩ := hl.execCommit fs₅ path elf sz sp argc ho₅ (hw₄.trans hw₅)
  have hrun : s.exec p path argv = s.execCommit p m₅ fs₅ path elf tf pt' sz sp argc := by
    unfold exec
    rw [hb, ok_bind, hn, ok_bind]
    show (fs₂.ilock ip >>= _) = _
    rw [hk, ok_bind, execInode, eq_some_of_deref helf]
    simp only [hl.trapframe, deref, ok_bind, hm, hprog]
  exact ⟨_, hrun.trans hm'⟩

/-- A process with a page of memory and an open file, and a program with a segment. -/
def elfMachine : System := userMachine (oneByteElf 0) (freePages 19) (fun _ => 7) (fun _ => 0)

theorem elfMachine_ok : elfMachine.Ok 0 ∧ 0 < elfMachine.mem.kend ∧
    elfMachine.Lives 0 rootPage 0x87fff000 (userPage fun _ => 7) :=
  userMachine_ok _ _ _ _ (by decide +kernel) (by decide +kernel) (by decide +kernel)
    (by decide +kernel)

/-- The program is spawned, and executed by a child. -/
theorem spawn_eq_fork_exec_oneByteElf : ∃ s₁ s₂ s₃ s₄,
    elfMachine.spawn 0 [slash, 97] = .ok (s₁, 2) ∧ elfMachine.fork 0 = .ok (s₂, 2) ∧
    (s₂.trap 1 (fun _ => 0)).exec 1 [slash, 97] [[slash, 97]] = .ok (s₃, 1) ∧
    s₃.syscallReturn 1 1 = .ok s₄ ∧ s₁.SameProcess s₄ 1 ∧ s₁.file = s₄.file := by
  obtain ⟨hok, -, hl⟩ := elfMachine_ok
  obtain ⟨s₁, hspawn, -⟩ := exists_of_returns
    (x := elfMachine.spawn 0 [slash, 97]) (r := 2) (c := fun _ => true)
    (by decide +kernel)
  obtain ⟨s₂, hfork, hcheck⟩ := exists_of_returns (x := elfMachine.fork 0)
    (r := 2) (c := fun s₂ => decide ((s₂.proc 1).state = .runnable ∧ (s₂.proc 1).pid = 2) &&
      (s₂.proc 1).trapframe.any fun tf =>
        loads ((s₂.trap 1 (fun _ => 0)).loadOnly 1 tf [slash, 97] [[slash, 97]]) 1)
    (by decide +kernel)
  rw [Bool.and_eq_true, decide_eq_true_eq] at hcheck
  obtain ⟨⟨hstate, hpid⟩, hcheck⟩ := hcheck
  obtain ⟨-, _, np, ntf, _, _, -, _, hlaunch, -, -, hok₂, hl₂⟩ := fork_done hok hl hfork
    (by decide)
  have hnp : np = 1 := by
    by_contra hne
    have hsame : s₂.proc 1 = elfMachine.proc 1 := by
      rw [hlaunch.proc]
      exact update_of_ne (fun he => hne he.symm) ..
    rw [hsame] at hstate
    cases hstate
  subst hnp
  rw [hl₂.trapframe, Option.any_some] at hcheck
  obtain ⟨_, _, hload⟩ := exists_of_loads hcheck
  obtain ⟨s₃, hexec⟩ := exec_of_loadOnly (hok₂.trap _) (hl₂.trap _) hload
  obtain ⟨_, _, _, _, -, -, -, -, hproc, -⟩ := exec_done (hok₂.trap _) (hl₂.trap _) hexec
    (by decide)
  have htf₃ : (s₃.proc 1).trapframe = some ntf := by
    rw [hproc, setProc_proc_self]
    exact (hl₂.trap _).trapframe
  have hret : s₃.syscallReturn 1 1 =
      .ok { s₃ with mem := s₃.mem.setEntry ntf Reg.a0.index 1 } := by
    rw [syscallReturn, htf₃]
    rfl
  obtain ⟨-, -, hsame, hfile, -⟩ := spawn_eq_fork_exec hok hl hspawn (by decide) hfork (by decide)
    ⟨rfl, hstate, hpid⟩ _ hexec (by decide) hret
  exact ⟨s₁, s₂, s₃, _, hspawn, hfork, hexec, hret, hsame, hfile⟩

end System

end Xv6
