import OsProject.FileCalls
import OsProject.Fork
import OsProject.SysExec

/-!
# What the calls on processes keep

`fork`, `spawn`, `exec`, `sbrk`, `wait` and `waitpid` work on memory, and the first three on
files as well: they open a program file and put it again, and a new process shares what its
parent has open. `Keeps` is what holds of all of them except for a `fork` or a `spawn` that
succeeds: the memory stays in order, and nobody has opened or closed anything. `Shares` is
what a new process adds to this.
-/

namespace Xv6

open Phys List

namespace Fs.Holds

variable {fs fs₃ : Fs} {r : Fin NINODE → ℕ} {l : List (Fin NINODE)} {cwd : Option (Fin NINODE)}
  {path : List UInt8} {ip : Fin NINODE}

/-- The calls that `exec` and `spawn` make. -/
theorem fileCalls (h : Holds r l fs) (hcwd : ∀ i, cwd = some i → 0 < r i) (path : List UInt8) :
    Ensures MemFault (Holds r l) (fs.fileCalls cwd path) := by
  refine h.beginOp.bind fun fs₁ h₁ => (h₁.namei hcwd path).bind ?_
  rintro ⟨_, _ | ip⟩ h₂
  · exact endOp h₂
  · exact Ensures.bind (ilock h₂ ip) fun fs₃ h₃ => h₃.iput.endOp

end Fs.Holds

namespace System

variable {s s' s'' : System} {p q np : Slot} {K : Set ℕ} {r : ℤ} {u : Fin NINODE → ℕ}
  {path : List UInt8} {argv : List (List UInt8)} {m : Phys} {P : Proc} {pages : List ℕ}

/-- A slot without a process, or with one that has exited. -/
abbrev Idle (s : System) (q : Slot) : Prop :=
  (s.proc q).state = .unused ∨ (s.proc q).state = .zombie

/-- **Nobody has opened or closed anything**, and the memory is in order. `K` are the pages
of the kernel, and `u` counts the references to inodes. -/
structure Keeps (s s' : System) (K : Set ℕ) (u : Fin NINODE → ℕ) : Prop where
  safe : Safe s s' K
  file : s'.file = s.file
  ofile : ∀ q, (s'.proc q).ofile = (s.proc q).ofile
  cwd : ∀ q, (s'.proc q).cwd = (s.proc q).cwd
  held : s'.fs.Holds u []
  idle : ∀ q, s'.Idle q → s.Idle q
  /-- A process that can make calls stays one. -/
  active : ∀ q, ¬ s.Idle q → ¬ s'.Idle q

theorem Keeps.trans (h : Keeps s s' K u) (h' : Keeps s' s'' K u) : Keeps s s'' K u :=
  ⟨h.safe.trans h'.safe, h'.file.trans h.file, fun q => (h'.ofile q).trans (h.ofile q),
    fun q => (h'.cwd q).trans (h.cwd q), h'.held, fun q hq => h.idle q (h'.idle q hq),
    fun q hq => h'.active q (h.active q hq)⟩

/-- What there is to show, slot by slot. -/
theorem Keeps.of_slots (hs : Safe s s' K) (hfile : s'.file = s.file) (hheld : s'.fs.Holds u [])
    (hq : ∀ q, (s'.proc q).ofile = (s.proc q).ofile ∧ (s'.proc q).cwd = (s.proc q).cwd ∧
      (s'.Idle q ↔ s.Idle q)) : Keeps s s' K u :=
  ⟨hs, hfile, fun q => (hq q).1, fun q => (hq q).2.1, hheld, fun q => (hq q).2.2.mp,
    fun q => (hq q).2.2.not.mpr⟩

theorem Sound.keeps_refl (h : s.Sound K) (hu : s.fs.Holds u []) : Keeps s s K u :=
  .of_slots ⟨h, fun _ _ => rfl⟩ rfl hu fun _ => ⟨rfl, rfl, Iff.rfl⟩

/-- Slots that were unused and have been reset. -/
theorem SlotsKept.keeps (hk : s.SlotsKept s') (hs : Safe s s' K) (hfile : s'.file = s.file)
    (hheld : s'.fs.Holds u []) : Keeps s s' K u := by
  refine .of_slots hs hfile hheld fun q => ?_
  rcases hk q with he | ⟨hu, he⟩
  · rw [Idle, Idle, he]
    exact ⟨rfl, rfl, Iff.rfl⟩
  · rw [Idle, Idle, he]
    exact ⟨rfl, rfl, fun _ => .inl hu, fun _ => .inl rfl⟩

/-- Only the memory has changed. -/
theorem Safe.keeps (hs : Safe s { s with mem := m } K) (hheld : s.fs.Holds u []) :
    Keeps s { s with mem := m } K u :=
  .of_slots hs rfl hheld fun _ => ⟨rfl, rfl, Iff.rfl⟩

/-- The slot of a process has changed, but not what it has open. -/
theorem Safe.keeps_setProc (fs : Fs) (hs : Safe s { s.setProc p P with mem := m, fs := fs } K)
    (hofile : P.ofile = (s.proc p).ofile) (hcwd : P.cwd = (s.proc p).cwd)
    (hstate : P.state = .unused ∨ P.state = .zombie ↔ s.Idle p) (hheld : fs.Holds u []) :
    Keeps s { s.setProc p P with mem := m, fs := fs } K u := by
  refine .of_slots hs rfl hheld fun q => ?_
  show ((s.setProc p P).proc q).ofile = _ ∧ ((s.setProc p P).proc q).cwd = _ ∧
    ((s.setProc p P).Idle q ↔ _)
  by_cases hqp : q = p
  · rw [Idle, hqp, setProc_proc_self]
    exact ⟨hofile, hcwd, hstate⟩
  · rw [Idle, show (s.setProc p P).proc q = s.proc q from Function.update_of_ne hqp ..]
    exact ⟨rfl, rfl, Iff.rfl⟩

/-! ## Opening a program -/

/-- **`exec`** closes nothing: the new program has what the old one had open. -/
theorem Sound.exec_keeps (h : s.Sound K) (hp : ¬ s.Idle p) (hu : s.fs.Holds u [])
    (hcwd : ∀ i, (s.proc p).cwd = some i → 0 < u i) (path : List UInt8) (argv : List (List UInt8)) :
    Ensures MemFault (fun x => Keeps s x.1 K u) (s.exec p path argv) := by
  have hused : (s.proc p).state ≠ .unused := fun hc => hp (.inl hc)
  obtain ⟨_, _, _, hl, -⟩ := h.lives hused
  have hcalls := hu.fileCalls hcwd path
  cases hrun : s.exec p path argv with
  | error =>
    rcases exec_error h.ready hl hrun with hc | ⟨rfl, -⟩
    · exact hcalls.of_error hc
    · exact (by decide : ¬ MemFault .ustack)
  | ok x =>
    obtain ⟨_, _⟩ := x
    have hs := h.exec hused hrun
    cases exec_cases h.ready hl hrun with
    | failed hm hw hfs =>
      exact .of_slots hs rfl (hcalls.of_ok hfs) fun _ => ⟨rfl, rfl, Iff.rfl⟩
    | @done _ fs₃ fs ip elf m pt' sz sp argc A' _ hopen hend _ ho hn hw hrun =>
      obtain ⟨_, hm', -⟩ := hl.execCommit fs path elf sz sp argc ho hw
      rw [hm'] at hrun
      cases hrun
      exact hs.keeps_setProc _ rfl rfl Iff.rfl (hcalls.of_ok (hopen.fileCalls.trans hend))

/-! ## New processes -/

/-- **The process `np` shares what `p` has open**, and the memory is in order. -/
structure Shares (s s' : System) (K : Set ℕ) (u : Fin NINODE → ℕ) (p np : Slot) : Prop where
  safe : Safe s s' K
  unused : (s.proc np).state = .unused
  others : ∀ q ≠ np, s'.proc q = s.proc q
  state : (s'.proc np).state = .runnable
  file : ∀ f, s'.file f = s.file f + descriptors (s.proc p).ofile f
  ofile : (s'.proc np).ofile = (s.proc p).ofile
  cwd : ∃ i, (s.proc p).cwd = some i ∧ (s'.proc np).cwd = some i ∧ s'.fs.Holds u [i]

/-- What `launch` adds. -/
theorem Launched.shares {fs : Fs} (hlaunch : Launched s s' p np P) (hs : Safe s s' K)
    (hunused : (s.proc np).state = .unused) (hstale : (s.proc np).ofile = fun _ => none)
    (hheld : fs.Holds u []) (hcwd : ∀ i, (s.proc p).cwd = some i → 0 < u i)
    (hfs : ∃ i, (s.proc p).cwd = some i ∧ s'.fs = fs.idup i) : Shares s s' K u p np := by
  have hnp := hlaunch.proc_np
  have hdup := hlaunch.dup
  rw [hstale] at hdup
  obtain ⟨hfile, hofile⟩ := dupFiles_eq hdup
  obtain ⟨i, hi, hfs⟩ := hfs
  refine ⟨hs, hunused, fun q hq => ?_, by rw [hnp, hlaunch.state], hfile, by rw [hnp, hofile],
    i, hi, by rw [hnp, hlaunch.cwd, hi], ?_⟩
  · rw [hlaunch.proc]
    exact Function.update_of_ne hq ..
  · rw [hfs]
    refine hheld.idup ?_
    rw [hheld.ref i]
    exact Nat.add_pos_left (hcwd i hi) _

section NewProcess

variable (h : s.Sound K) (hp : ¬ s.Idle p) (hu : s.fs.Holds u [])
  (hcwd : ∀ i, (s.proc p).cwd = some i → 0 < u i)
  (hstale : ∀ q, s.Idle q → (s.proc q).ofile = fun _ => none) {s₁ : System}

include h hu in
/-- There is no slot, or no memory for one. -/
theorem Sound.noProc_keeps (hs : s.allocproc = .ok (s₁, none)) : Keeps s s₁ K u := by
  have hsafe := h.noProc hs
  obtain ⟨_, _, hs₂, hnone, -⟩ := h.ready.allocated
  rw [hs] at hs₂
  cases hs₂
  obtain ⟨-, hk, hfs, hfile, -⟩ := hnone rfl
  exact hk.keeps hsafe hfile (by rw [hfs]; exact hu)

/-- The slot that had been taken is given up. -/
theorem Allocated.keeps {fs : Fs} {tf pt : ℕ} (ha : Allocated s s₁ np tf pt)
    (hs : Safe s { s₁.setProc np (s₁.proc np).freed with mem := m, fs := fs } K)
    (hheld : fs.Holds u []) :
    Keeps s { s₁.setProc np (s₁.proc np).freed with mem := m, fs := fs } K u :=
  SlotsKept.keeps (ha.slotsKept rfl) hs ha.file hheld

include h hp hu hcwd hstale in
/-- **`fork`.** -/
theorem Sound.fork_keeps :
    Ensures MemFault (fun x => Keeps s x.1 K u ∨ ∃ np, Shares s x.1 K u p np) (s.fork p) := by
  have hused : (s.proc p).state ≠ .unused := fun hc => hp (.inl hc)
  obtain ⟨_, _, _, hl, -⟩ := h.lives hused
  cases hrun : s.fork p with
  | error =>
    rcases (fork_error h.ready hl hrun).2 with rfl | rfl
    · exact (by decide : ¬ MemFault .filedup)
    · exact (by decide : ¬ MemFault .nullPointer)
  | ok x =>
    obtain ⟨_, _⟩ := x
    have hs := h.fork hused hrun
    cases fork_cases h.ready hl hrun with
    | noProc hs₁ => exact .inl (h.noProc_keeps hu hs₁)
    | @noMemory s₁ _ _ _ _ ha hm hw =>
      exact .inl (ha.keeps hs (show s₁.fs.Holds u [] by rw [ha.fs]; exact hu))
    | @done s₁ _ np ntf npt m _ hs₁ ha ho hw _ hrun =>
      have hp₁ := ha.proc_of_ne (ha.ne h.ready hl)
      obtain ⟨-, -, -, hfs, _, hlaunch, -⟩ :=
        ha.launch hp₁ (show s₁.fs.refs = s.fs.refs by rw [ha.fs]) hrun
      rw [ha.fs] at hfs
      exact .inr ⟨np, hlaunch.shares hs ha.unused (hstale np (.inl ha.unused)) hu hcwd hfs⟩

include h hp hu hcwd hstale in
/-- **`spawn`**, which gives the slot up on each of its ways out but the last. -/
theorem Sound.spawn_keeps (path : List UInt8) :
    Ensures MemFault (fun x => Keeps s x.1 K u ∨ ∃ np, Shares s x.1 K u p np) (s.spawn p path) := by
  have hused : (s.proc p).state ≠ .unused := fun hc => hp (.inl hc)
  obtain ⟨_, _, _, hl, -⟩ := h.lives hused
  have hcalls := hu.fileCalls hcwd path
  cases hrun : s.spawn p path with
  | error =>
    rcases spawn_error h.ready hl hrun with hc | ⟨-, rfl | rfl⟩
    · exact hcalls.of_error hc
    · exact (by decide : ¬ MemFault .filedup)
    · exact (by decide : ¬ MemFault .nullPointer)
  | ok x =>
    obtain ⟨_, _⟩ := x
    have hs := h.spawn hused hrun
    cases spawn_cases h.ready hrun with
    | noProc hs₁ => exact .inl (h.noProc_keeps hu hs₁)
    | noFile ha hmiss => exact .inl (ha.keeps hs (hcalls.of_ok hmiss.fileCalls))
    | noHeader hs₁ ha hopen hend =>
      exact .inl (ha.keeps hs (hcalls.of_ok (hopen.fileCalls.trans hend)))
    | badImage ha hopen hend =>
      exact .inl (ha.keeps hs (hcalls.of_ok (hopen.fileCalls.trans hend)))
    | @done s₁ _ np ntf npt m fs₃ fs ip elf sz sp argc A' _ hs₁ ha hopen hend _ _ ho hn hw hrun =>
      have hfs := hcalls.of_ok (hopen.fileCalls.trans hend)
      have hp₁ := ha.proc_of_ne (ha.ne h.ready hl)
      unfold spawnCommit at hrun
      rw [hp₁, hl.trapframe, ha.trapframe_np] at hrun
      obtain ⟨-, -, -, hidup, _, hlaunch, -⟩ :=
        ha.launch hp₁ (funext (fun j => (hfs.ref j).trans (hu.ref j).symm)) hrun
      exact .inr ⟨np, hlaunch.shares hs ha.unused (hstale np (.inl ha.unused)) hfs hcwd hidup⟩

end NewProcess

/-! ## Memory -/

section Memory

variable (h : s.Sound K) (hp : ¬ s.Idle p) (hu : s.fs.Holds u [])

include h hp hu

theorem Sound.sysSbrk_keeps (n : BitVec 32) :
    Ensures MemFault (fun x => Keeps s x.1 K u) (s.sysSbrk p n) := by
  have hused : (s.proc p).state ≠ .unused := fun hc => hp (.inl hc)
  obtain ⟨_, _, _, hrun, hs⟩ := h.sysSbrk hused n
  rw [hrun]
  exact hs.keeps_setProc s.fs rfl rfl Iff.rfl hu

theorem Sound.syscallReturn_keeps (r : ℤ) :
    ∃ s', s.syscallReturn p r = .ok s' ∧ Keeps s s' K u ∧ s'.mem.freelist = s.mem.freelist := by
  obtain ⟨_, hm, hs, hfree⟩ := h.syscallReturn (fun hc => hp (.inl hc)) r
  exact ⟨_, hm, hs.keeps hu, hfree⟩

theorem Sound.store_keeps (va : ℕ) (b : UInt8) :
    ∃ s', s.store p va b = .ok s' ∧ Keeps s s' K u := by
  obtain ⟨pt, m, _, hpt, hm, hs, -⟩ := h.copyout (fun hc => hp (.inl hc)) va [b]
  refine ⟨{ s with mem := m }, ?_, hs.keeps hu⟩
  rw [store, hpt]
  show (s.mem.copyout pt va [b] >>= _) = _
  rw [hm, ok_bind]

/-- Collecting a process that has exited. -/
theorem Sound.reap_keeps (hq : (s.proc q).state = .zombie) (addr : ℕ) :
    Ensures MemFault (fun x => Keeps s x.1 K u) (s.reap p q addr) := by
  have hfree : ∀ m ok, Keeps s { s with mem := m } K u →
      Ensures MemFault (fun x => Keeps s x.1 K u)
        (if ok = true then do
          let s' ← System.freeproc { s with mem := m } q
          .ok (s', (s.proc q).pid)
        else .ok ({ s with mem := m }, -1)) := by
    intro m ok hk
    split
    · obtain ⟨_, hm', hs'⟩ := hk.safe.sound.freeproc (by rw [hq]; nofun)
      rw [hm', ok_bind]
      exact hk.trans (hs'.keeps_setProc s.fs rfl rfl ⟨fun _ => .inr hq, fun _ => .inl rfl⟩ hu)
    · exact hk
  unfold reap
  by_cases haddr : addr ≠ 0
  · obtain ⟨_, m, ok, hpt, hm, hs, -⟩ := h.copyout (fun hc => hp (.inl hc)) addr
      (intBytes (s.proc q).xstate)
    simp only [if_pos haddr, hpt, deref, ok_bind, hm]
    exact hfree m ok (hs.keeps hu)
  · simp only [if_neg haddr]
    exact hfree s.mem true (h.keeps_refl hu)

theorem Sound.waitFor_keeps (sel : Proc → Bool) (addr : ℕ) :
    Ensures MemFault (fun x => Keeps s x.1 K u) (s.waitFor p sel addr) := by
  unfold waitFor
  split
  · next q hfind =>
    have hq := find?_some hfind
    rw [Bool.and_eq_true, decide_eq_true_eq] at hq
    exact h.reap_keeps hp hu hq.2 addr
  · split
    · exact h.keeps_refl hu
    · nofun

end Memory

/-! ## The arguments of `exec` -/

/-- The pages of the arguments belong to the kernel. -/
theorem Sound.of_taken (h : s.Sound K) (ht : Taken s.mem m pages) :
    Sound { s with mem := m } (K ∪ {x | x ∈ pages}) ∧ ∀ x ∈ K, m.page x = s.mem.page x := by
  have hnodup := h.isolated.nodup
  rw [ht.freelist, nodup_append'] at hnodup
  have hpages : ∀ x ∈ pages, x ∈ s.mem.freelist := fun x hx => by
    rw [ht.freelist]
    exact mem_append_left _ hx
  have hrest : ∀ x ∈ m.freelist, x ∈ s.mem.freelist := fun x hx => by
    rw [ht.freelist]
    exact mem_append_right _ hx
  have hapart : ∀ x ∈ K, x ∉ s.mem.freelist := fun _ => h.isolated.kernel_not_free
  refine ⟨⟨h.isolated.kernel ⟨hnodup.2.1, fun _ => Iff.rfl,
    fun x hx => ht.within.inRange.mpr (h.isolated.range .free x (hrest x hx))⟩
      (ht.within.mono (fun x hx => .inl (hpages x hx))) (fun x hx => .inl (hrest x hx)) ?_ ?_,
    h.vacant, h.home⟩, fun x hx => ht.within.page x (fun hc => hapart x hx (hpages x hc))⟩
  · rintro x (hx | hx)
    · exact .inr hx
    · exact .inl (hpages x hx)
  · refine Set.disjoint_left.mpr fun x hx hx' => ?_
    rcases hx' with hx' | hx'
    · exact hapart x hx' (hrest x hx)
    · exact hnodup.2.2 hx' hx

/-- They are free again. -/
theorem Sound.freeArgs (h : s.Sound (K ∪ {x | x ∈ pages})) (hnodup : pages.Nodup)
    (hK : ∀ x ∈ pages, x ∉ K) :
    ∃ m, freeArgs s.mem pages = .ok m ∧ Safe s { s with mem := m } K := by
  have hrange : ∀ x ∈ pages, s.mem.InRange x := fun x hx =>
    h.isolated.range .kernel x (.inr hx)
  obtain ⟨m, hm, hfree, hw⟩ := freeArgs_eq hrange
  have hmem : ∀ x, x ∈ m.freelist ↔ x ∈ pages ∨ x ∈ s.mem.freelist := fun x => by
    rw [hfree, mem_append, mem_reverse]
  refine ⟨m, hm, ⟨h.isolated.kernel (F := m.free) ⟨?_, fun _ => Iff.rfl, ?_⟩
    (hw.mono (fun x hx => .inr (.inr hx))) ?_ (fun x hx => .inr (.inl hx)) ?_,
      h.vacant, h.home⟩, fun x hx => hw.page x (fun hc => hK x hc hx)⟩
  · rw [hfree, nodup_append']
    refine ⟨nodup_reverse.mpr hnodup, h.isolated.nodup, fun x hx hx' => ?_⟩
    exact h.isolated.kernel_not_free (.inr (mem_reverse.mp hx)) hx'
  · intro x hx
    rcases (hmem x).mp hx with hx | hx
    · exact hw.inRange.mpr (hrange x hx)
    · exact hw.inRange.mpr (h.isolated.range .free x hx)
  · intro x hx
    rcases (hmem x).mp hx with hx | hx
    · exact .inr (.inr hx)
    · exact .inl hx
  · refine Set.disjoint_left.mpr fun x hx hx' => ?_
    rcases (hmem x).mp hx with hx | hx
    · exact hK x hx hx'
    · exact h.isolated.kernel_not_free (.inl hx') hx

/-- **`sys_exec`** takes pages for the arguments and frees them, whatever happens. -/
theorem Sound.sysExec_keeps (h : s.Sound K) (hp : ¬ s.Idle p) (hu : s.fs.Holds u [])
    (hcwd : ∀ i, (s.proc p).cwd = some i → 0 < u i) (path : Option (List UInt8))
    (args : List Arg) : Ensures MemFault (fun x => Keeps s x.1 K u) (s.sysExec p path args) := by
  cases path with
  | none => exact h.keeps_refl hu
  | some path =>
    have ht := fetchArgs_taken MAXARG s.mem args
    rcases hf : fetchArgs MAXARG s.mem args with ⟨m, pages, r⟩
    rw [hf] at ht
    obtain ⟨hs₁, hpage₁⟩ := h.of_taken ht
    have hnodup := h.isolated.nodup
    rw [ht.freelist, nodup_append'] at hnodup
    have hK : ∀ x ∈ pages, x ∉ K := fun x hx hc => by
      refine h.isolated.kernel_not_free hc ?_
      rw [ht.freelist]
      exact mem_append_left _ hx
    have hend : ∀ x : System × ℤ, Keeps { s with mem := m } x.1 (K ∪ {x | x ∈ pages}) u →
        Ensures MemFault (fun y => Keeps s y.1 K u)
          (System.freeArgs x.1.mem pages >>= fun m' => .ok ({ x.1 with mem := m' }, x.2)) := by
      rintro ⟨_, _⟩ hk
      obtain ⟨m', hm', hs₃⟩ := hk.safe.sound.freeArgs hnodup.1 hK
      rw [hm', ok_bind]
      refine ⟨⟨hs₃.sound, fun x hx => ?_⟩, hk.file, hk.ofile, hk.cwd, hk.held, hk.idle, hk.active⟩
      rw [hs₃.page x hx, hk.safe.page x (.inl hx), hpage₁ x hx]
    unfold sysExec
    rw [hf]
    cases r with
    | some argv => exact (hs₁.exec_keeps hp hu hcwd path argv).bind hend
    | none => exact hend (_, -1) (hs₁.keeps_refl hu)

end System

end Xv6
