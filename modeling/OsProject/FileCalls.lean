import OsProject.FileTable

/-!
# The calls on files keep the balance

The functions of `sysfile.c`, and `pipealloc`, take references and give them up in many
places, with an exit for each thing that can go wrong. For each of them there is one lemma:
whatever happens, the references are balanced afterwards, none of them is held by anybody
but the processes and the files, and only the process that makes the call has changed
(`Keeps`). None of the calls panics in the code of the virtual memory.

A call holds references of its own while it runs: to files that it has allocated (`x`) and to
inodes that it has looked up (`y`). The proofs follow the code from one exit to the next, and
at each of them these lists are what they were at the beginning: what has been taken has gone
to a descriptor, to a file or to the current directory, or has been given back.
-/

namespace Xv6

open Function (update update_of_ne update_self)

open Phys List Option

namespace Sysfile

/-- An end of a pipe. -/
abbrev File.pipeEnd (ff : File) (pi : ℕ) (w : Bool) : File :=
  { ff with type := .pipe, readable := !w, writable := w, pipe := some pi }

namespace State

/-- Only process `p` has changed. -/
abbrev Others (t : State) (p : Slot) (P : Slot → Proc) : Prop := ∀ q ≠ p, P q = t.proc q

namespace Balanced

variable {t t' : State} {L : Slot → Option Home} {S : Set ℕ} {x : List (Fin NFILE)}
  {y y' : List (Fin NINODE)} {p : Slot} {f f0 f1 : Fin NFILE} {i : Fin NINODE} {fdn : Fin NOFILE}
  {a : Home} {pi : ℕ} {rest : List ℕ} {o : Option (Fin NFILE)}

/-- **The call keeps the balance, and changes no process but `p`.** -/
abbrev Keeps {α : Type} (L : Slot → Option Home) (S : Set ℕ) (x : List (Fin NFILE))
    (y : List (Fin NINODE)) (t : State) (p : Slot) (r : Except Fault (State × α)) : Prop :=
  Ensures MemFault (fun r => Leaves L S x y (t.Others p) r.1) r

/-- The order of the references does not matter. -/
theorem perm {x' : List (Fin NFILE)} (h : Balanced L S x y t) (hp : x.Perm x') :
    Balanced L S x' y t := { h with count := fun f => by rw [h.count f, hp.count_eq] }

/-! ## Pipes -/

/-- The page of a new pipe has both ends open. -/
theorem isOpen_pipePage (P : Page) (w : Bool) : (pipePage P).isOpen w = 1 := by
  have hends := Page.isOpen_setEnds P (le_refl 1) (le_refl 1) w
  rw [ite_self] at hends
  unfold pipePage Page.isOpen Page.readopen Page.writeopen at *
  rw [Page.word_setWord_of_ne _ (by decide)]
  exact hends

/-- **A new pipe**: the two files that have been allocated become its ends. -/
theorem newPipe (h : Balanced L S (f1 :: f0 :: x) y t) (hne : f0 ≠ f1)
    (h0 : (t.file f0).type = .none) (h1 : (t.file f1).type = .none)
    (hpi : t.mem.freelist = pi :: rest) (P : Page)
    (ht' : t' = (t.setMem (({ t.mem with freelist := rest }.memset pi 5).setPage pi
      (pipePage P))).setFile f0 (File.pipeEnd (t.file f0) pi false)) :
    Balanced L S (f0 :: f1 :: x) y (t'.setFile f1 (File.pipeEnd (t'.file f1) pi true)) ∧
      (t'.file f0).type = .pipe := by
  have hnew : pi ∉ t.pipes := fun hc => (h.pipe_inRange hc).2 (hpi ▸ mem_cons_self)
  have hzero : ∀ w, fiber t.ends (some (pi, w)) = 0 := fun w =>
    Nat.eq_zero_of_not_pos (fun hc => hnew (mem_pipes_iff.mpr ⟨w, hc⟩))
  have hstock : {x | x ∈ rest} ∪ insert pi t.pipes = S := by
    rw [← h.stock, Phys.free, hpi]
    ext z
    simp only [Set.mem_union, Set.mem_ofPred_eq, Set.mem_insert_iff, mem_cons]
    tauto
  -- the memory with some page for the pipe
  obtain ⟨m, hm⟩ : ∃ m : Page → Phys, m = fun Q =>
    ({ t.mem with freelist := rest }.memset pi 5).setPage pi Q := ⟨_, rfl⟩
  have hiso : ∀ Q, (m Q).Isolated L (insert pi t.pipes) := fun Q => by
    rw [hm]
    exact h.isolated.kernel_kalloc hpi Q
  have hpage : ∀ Q pi', pi' ≠ pi → (m Q).page pi' = t.mem.page pi' := fun Q pi' hpi' => by
    rw [hm]
    exact (within_kalloc_setPage Q rest).page pi' hpi'
  have hself : ∀ Q, (m Q).page pi = Q := fun Q => by
    rw [hm]
    exact update_self ..
  have hfree : ∀ Q, (m Q).free = {x | x ∈ rest} := fun Q => by
    rw [hm]
    rfl
  -- first a page with one end open, then with both
  have hfirst := (h.perm (List.Perm.swap ..)).setFile_end
    (File.pipeEnd (t.file f0) pi false) h0 rfl rfl (hzero false) (hpage _)
    (fun w => by
      rw [hself, Page.isOpen_setEnds P (le_refl 1) (Nat.zero_le 1), hzero]
      cases w <;> rfl) (hiso _) (by rw [hfree, hstock])
  have hends : t.ends f0 = none := by rw [ends, File.endOf, h0, if_neg (by decide)]
  have hpipes : (t.setFile f0 (File.pipeEnd (t.file f0) pi false)).pipes = insert pi t.pipes :=
    pipes_setFile_end hends rfl
  have hfiber : ∀ w, fiber (t.setFile f0 (File.pipeEnd (t.file f0) pi false)).ends (some (pi, w)) =
      (!w).toNat := fun w => by
    rw [ends_setFile]
    exact (Fiber.update_some hends _ _).trans (by rw [hzero]; cases w <;> simp)
  have hfile : (t.setFile f0 (File.pipeEnd (t.file f0) pi false)).file f1 = t.file f1 :=
    update_of_ne hne.symm ..
  have hpipes₁ : insert pi ((t.setFile f0 (File.pipeEnd (t.file f0) pi false)).setMem
      (m (P.setEnds 1 0))).pipes = insert pi t.pipes := by
    rw [pipes_congr ends_setMem, hpipes, Set.insert_idem]
  have hsecond := (hfirst.perm (List.Perm.swap ..)).setFile_end
    (File.pipeEnd (t.file f1) pi true) ((congrArg File.type hfile).trans h1)
    (show (t.file f1).ref = _ from congrArg File.ref hfile.symm) rfl (hfiber true)
    (fun pi' hpi' => (hpage _ pi' hpi').trans (hpage _ pi' hpi').symm)
    (fun w => by rw [hself, isOpen_pipePage P, ends_setMem, hfiber]; cases w <;> rfl)
    (hpipes₁ ▸ hiso _) (by rw [hpipes₁, hfree, hstock])
  rw [hm] at hsecond
  have hfile' : t'.file f1 = t.file f1 := by
    rw [ht']
    exact hfile
  rw [hfile', ht']
  refine ⟨hsecond.perm (List.Perm.swap ..), ?_⟩
  show (update t.file f0 _ f0).type = _
  rw [update_self]

/-- `pipealloc` returns two files, or none. -/
theorem pipealloc (h : Balanced L S x y t) :
    Ensures MemFault (fun r => (r.2 = none ∧ Leaves L S x y (· = t.proc) r.1) ∨
      ∃ f0 f1, r.2 = some (f0, f1) ∧ (r.1.file f0).type = .pipe ∧ (r.1.file f1).type = .pipe ∧
        Leaves L S (f0 :: f1 :: x) y (· = t.proc) r.1) t.pipealloc := by
  unfold State.pipealloc
  split
  · exact .inl ⟨rfl, h, rfl⟩
  · next t₀ f0 ha0 =>
    obtain ⟨h₀, htype0, -, -, hproc0, -, -⟩ := h.filealloc ha0
    split
    · exact h₀.fileclose.bind fun t₁ h₁ => .inl ⟨rfl, h₁.1, h₁.2.trans hproc0⟩
    · next t₁ f1 ha1 =>
      obtain ⟨h₁, htype1, hx1, -, hproc1, -, hfile1⟩ := h₀.filealloc ha1
      have hne : f0 ≠ f1 := fun hc => hx1 (hc ▸ mem_cons_self)
      cases hfree : t₁.mem.freelist with
      | nil =>
        rw [kalloc_nil hfree]
        refine (h₁.perm (List.Perm.swap ..)).fileclose.bind (fun t₂ h₂ =>
          h₂.1.fileclose.bind (fun t₃ h₃ => .inl ⟨rfl, h₃.1, ?_⟩))
        exact h₃.2.trans (h₂.2.trans (hproc1.trans hproc0))
      | cons =>
        rw [kalloc_cons hfree]
        obtain ⟨hb, htype⟩ := h₁.newPipe hne (by rw [hfile1 f0 hne, htype0]) htype1 hfree _ rfl
        refine .inr ⟨f0, f1, rfl, ?_, ?_, hb, hproc1.trans hproc0⟩
        · exact (congrArg File.type (update_of_ne hne ..)).trans htype
        · simp only [State.setFile, update_self]

/-! ## Descriptors -/

theorem others_setOfile : t.Others p (t.setOfile p fdn o).proc := fun _ hq => update_of_ne hq ..

/-- `fdalloc` fills a descriptor that is free. -/
theorem fdalloc_eq (h : t.fdalloc p f = some (t', fdn)) :
    t' = t.setOfile p fdn (some f) ∧ t.fd (p, fdn) = none := by
  obtain ⟨_, hg, he⟩ := map_eq_some_iff.mp h
  cases he
  have hfound := List.find?_some hg
  exact ⟨rfl, isNone_iff_eq_none.mp hfound⟩

/-- What `argfd` returns is an open descriptor. -/
theorem argfd_eq {n : ℤ} (h : t.argfd p n = some (fdn, f)) : t.fd (p, fdn) = some f := by
  unfold State.argfd at h
  split_ifs at h
  obtain ⟨_, hg, he⟩ := map_eq_some_iff.mp h
  cases he
  exact hg

/-- The order does not matter. -/
theorem filedup_setOfile :
    (t.setOfile p fdn o).filedup f = (t.filedup f >>= fun t' => .ok (t'.setOfile p fdn o)) := by
  unfold State.filedup
  split
  · next h => rw [if_pos (show (t.file f).ref < 1 from h)]; rfl
  · next h => rw [if_neg (show ¬ (t.file f).ref < 1 from h)]; rfl

/-- **`dup`.** The descriptor has been filled before the reference is counted; the balance is
that of the other order. -/
theorem sysDup (h : Balanced L S x y t) (n : ℤ) :
    Keeps L S x y t p (t.sysDup p n) := by
  unfold State.sysDup
  split
  · exact ⟨h, fun _ _ => rfl⟩
  · next _ f hfd =>
    have htyped := h.typed _ _ (argfd_eq hfd)
    split
    · exact ⟨h, fun _ _ => rfl⟩
    · next t' fdn ha =>
      obtain ⟨rfl, hfree⟩ := fdalloc_eq ha
      rw [filedup_setOfile]
      refine Ensures.bind ?_ fun _ hr => hr
      refine (h.filedup f).bind fun t₁ h₁ => ?_
      have hfd₁ : t₁.fd = t.fd := by
        unfold State.fd
        rw [h₁.2.1]
      refine ⟨h₁.1.setOfile_some ?_ ?_, fun q hq => ?_⟩
      · rw [hfd₁, hfree]
      · rw [h₁.2.2]
        exact htyped
      · exact (others_setOfile q hq).trans (congrFun h₁.2.1 q)

/-- **`close`.** The reference of the descriptor is the one that `fileclose` gives up. -/
theorem sysClose (h : Balanced L S x y t) (n : ℤ) :
    Keeps L S x y t p (t.sysClose p n) := by
  unfold State.sysClose
  split
  · exact ⟨h, fun _ _ => rfl⟩
  · next fdn f hfd =>
    refine (h.setOfile_none (argfd_eq hfd)).fileclose.bind fun t₁ h₁ => ⟨h₁.1, fun q hq => ?_⟩
    rw [h₁.2]
    exact others_setOfile q hq

/-- The two files of a pipe are closed again. -/
theorem pipeFail (h : Balanced L S (f0 :: f1 :: x) y t) :
    Ensures MemFault (fun r => Leaves L S x y (· = t.proc) r.1) (t.pipeFail f0 f1) :=
  h.fileclose.bind (fun _ h₁ => h₁.1.fileclose.bind (fun _ h₂ => ⟨h₂.1, h₂.2.trans h₁.2⟩))

section

variable (h : Balanced L S x y t)
include h

/-- Writing to the memory of a process. -/
theorem copyout (ha : L p = some a) (va : ℕ) (bs : List UInt8) :
    ∃ m ok, t.mem.copyout a.pagetable va bs = .ok (m, ok) ∧ Balanced L S x y (t.setMem m) := by
  obtain ⟨_, hh⟩ := h.isolated.housed p a ha
  obtain ⟨m, hm, hi, -, hw, hfree⟩ := h.isolated.copyout ha hh va bs
  exact ⟨m, _, hm, h.setMem hi (fun pi hpi => h.isolated.page_kernel hw hpi) hfree⟩

variable {fd0 fd1 : Fin NOFILE}

/-- The end of `sys_pipe`: the descriptors are cleared unless both have been written. -/
theorem pipeEnd (h0 : t.fd (p, fd0) = some f0) (h1 : t.fd (p, fd1) = some f1) (hne : fd0 ≠ fd1)
    (ok : Bool) :
    Keeps L S x y t p
      (if ok = true then .ok (t, 0)
      else ((t.setOfile p fd0 none).setOfile p fd1 none).pipeFail f0 f1) := by
  split
  · exact ⟨h, fun _ _ => rfl⟩
  · have h₀ := h.setOfile_none h0
    have h1' : (t.setOfile p fd0 none).fd (p, fd1) = some f1 := by
      rw [fd_setOfile, update_of_ne (fun hc => hne (Prod.mk.inj hc).2.symm), h1]
    refine (((h₀.setOfile_none h1').perm (List.Perm.swap ..)).pipeFail).mono fun r hr => ?_
    refine ⟨hr.1, fun q hq => ?_⟩
    rw [hr.2]
    exact (others_setOfile q hq).trans (others_setOfile q hq)

/-- `sys_pipe`, once both files have descriptors. -/
theorem pipeStore (h0 : t.fd (p, fd0) = some f0) (h1 : t.fd (p, fd1) = some f1) (hne : fd0 ≠ fd1)
    (fdarray : ℕ) :
    Keeps L S x y t p
      (match (t.proc p).pagetable with
        | none => .error .nullPointer
        | some pagetable => do
          let (m, ok) ← t.mem.copyout pagetable fdarray (intBytes fd0)
          let (m, ok) ←
            if ok then m.copyout pagetable ((fdarray + 4) % 2 ^ 64) (intBytes fd1)
            else .ok (m, false)
          let s := t.setMem m
          if ok then .ok (s, 0)
          else ((s.setOfile p fd0 none).setOfile p fd1 none).pipeFail f0 f1) := by
  split
  · nofun
  · next pt hpt =>
    rw [h.table p] at hpt
    obtain ⟨_, ha, rfl⟩ := map_eq_some_iff.mp hpt
    obtain ⟨m₁, ok₁, hm₁, h₁⟩ := h.copyout ha fdarray (intBytes fd0)
    rw [hm₁, ok_bind]
    cases ok₁ with
    | false => exact h₁.pipeEnd h0 h1 hne false
    | true =>
      obtain ⟨_, ok₂, hm₂, h₂⟩ := h₁.copyout ha ((fdarray + 4) % 2 ^ 64) (intBytes fd1)
      change m₁.copyout _ _ _ = _ at hm₂
      dsimp only
      rw [if_pos rfl, hm₂, ok_bind]
      exact h₂.pipeEnd h0 h1 hne ok₂

/-- **`sys_pipe`.** -/
theorem sysPipe (fdarray : ℕ) : Keeps L S x y t p (t.sysPipe p fdarray) := by
  refine h.pipealloc.bind ?_
  rintro ⟨t₁, _⟩ (⟨rfl, h₁⟩ | ⟨f0, f1, rfl, ht0, ht1, h₁⟩)
  · exact ⟨h₁.1, fun q _ => congrFun h₁.2 q⟩
  · dsimp only at ht0 ht1 h₁ ⊢
    split
    · exact h₁.1.pipeFail.mono fun r hr => ⟨hr.1, fun q _ => by rw [hr.2, h₁.2]⟩
    · next t₂ fd0 ha0 =>
      obtain ⟨rfl, hfree0⟩ := fdalloc_eq ha0
      have h₂ := h₁.1.setOfile_some hfree0 (by rw [ht0]; nofun)
      have hfd0 : (t₁.setOfile p fd0 (some f0)).fd (p, fd0) = some f0 := by
        rw [fd_setOfile, update_self]
      split
      · refine (h₂.setOfile_none hfd0).pipeFail.mono fun r hr => ⟨hr.1, fun q hq => ?_⟩
        rw [hr.2, ← h₁.2]
        exact (others_setOfile q hq).trans (others_setOfile q hq)
      · next t₃ fd1 ha1 =>
        obtain ⟨rfl, hfree1⟩ := fdalloc_eq ha1
        have h₃ := h₂.setOfile_some hfree1 (by show (t₁.file f1).type ≠ .none; rw [ht1]; nofun)
        have hne : fd0 ≠ fd1 := by
          rintro rfl
          rw [hfd0] at hfree1
          cases hfree1
        refine (h₃.pipeStore ?_ ?_ hne fdarray).mono fun r hr => ⟨hr.1, fun q hq => ?_⟩
        · rw [fd_setOfile, update_of_ne (fun hc => hne (Prod.mk.inj hc).2), hfd0]
        · rw [fd_setOfile, update_self]
        · rw [hr.2 q hq, ← h₁.2]
          exact (others_setOfile q hq).trans (others_setOfile q hq)

end

/-! ## Names -/

/-- The current directory of a process has a reference. -/
theorem cwd_pos (t : State) (p : Slot) (i : Fin NINODE) (hi : (t.proc p).cwd = some i) :
    0 < t.users i := Nat.add_pos_right _ (Fiber.pos_iff.mpr ⟨p, hi⟩)

/-- The file that `open` has allocated gets its descriptor, and the reference to the inode. -/
theorem openFile (trunc : Prop) [Decidable trunc] (ff : File)
    (h : Balanced L S (f :: x) (i :: y) t)
    (htype : (t.file f).type = .none) (hfree : t.fd (p, fdn) = none) (hproc : t.proc = t'.proc)
    (href : ff.ref = (t.file f).ref) (hi : ff.inodeOf = some i) (hend : ff.endOf = none) :
    Leaves L S x y (Others t' p) (((t.setOfile p fdn (some f)).setFile f ff).setFs
      (if trunc then t.fs.modify i (fun d => { d with data := [] }) else t.fs)) := by
  have hset : ff.type ≠ .none := by
    intro hc
    rw [File.inodeOf, hc, if_neg (by decide)] at hi
    cases hi
  have h₁ := (h.setFile_inode htype href hi hend).setOfile_some hfree
    (by simp only [State.setFile, update_self]; exact hset)
  refine ⟨h₁.setFs ?_, fun q hq => (others_setOfile q hq).trans (congrFun hproc q)⟩
  split
  · exact h₁.held.modify_of_pos (h.held.pos mem_cons_self) fun _ => rfl
  · exact h₁.held

/-- `open`, once the inode is found. -/
theorem openInode (h : Balanced L S x (i :: y) t) (omode : BitVec 32) :
    Keeps L S x y t p (t.openInode p i omode) := by
  unfold State.openInode
  dsimp only
  split
  · exact ⟨h.iput, fun _ _ => rfl⟩
  split
  · exact ⟨h.iput, fun _ _ => rfl⟩
  · next t₁ f ha =>
    obtain ⟨h₁, htype, -, -, hproc, -, -⟩ := h.filealloc ha
    split
    · refine h₁.fileclose.bind fun t₂ h₂ => ⟨h₂.1.iput, fun q _ => ?_⟩
      exact congrFun (h₂.2.trans hproc) q
    · next t₂ fdn ha' =>
      obtain ⟨rfl, hfree⟩ := fdalloc_eq ha'
      by_cases hdev : (t.fs.inode i).copy.type = T_DEVICE
      · simp only [if_pos hdev]
        exact h₁.openFile _ _ htype hfree hproc rfl rfl rfl
      · simp only [if_neg hdev]
        exact h₁.openFile _ _ htype hfree hproc rfl rfl rfl

/-- **`open`**, whether it creates the file or looks it up. -/
theorem sysOpen (h : Balanced L S x y t) (ninodes : ℕ) (room : Room) (path : List UInt8)
    (omode : BitVec 32) :
    Keeps L S x y t p (t.sysOpen ninodes room p path omode) := by
  unfold State.sysOpen
  split
  · exact ⟨h, fun _ _ => rfl⟩
  · next path' _ =>
    refine h.inOp fun fs₁ h₁ => ?_
    have hcwd := cwd_pos (t.setFs fs₁) p
    split_ifs
    on_goal 1 => refine (h₁.held.create hcwd ninodes room path' T_FILE 0 0).bind ?_
    on_goal 2 => refine (h₁.held.openNamei hcwd path' omode).bind ?_
    all_goals
      rintro ⟨_, _ | i⟩ hr
      · exact ⟨h₁.setFs hr, fun _ _ => rfl⟩
      · exact (h₁.setFs hr).openInode omode

/-- **`mkdir` and `mknod`** keep no reference to what they create. -/
theorem createPut (h : Balanced L S x y t) (ninodes : ℕ) (room : Room) (path : List UInt8)
    (type : ℕ) (major minor : ℤ) :
    Keeps L S x y t p (t.createPut ninodes room p path type major minor) := by
  refine h.inOp fun fs₁ h₁ => ?_
  split
  · exact ⟨h₁, fun _ _ => rfl⟩
  · next path' _ =>
    refine (h₁.held.create (cwd_pos _ p) ninodes room path' type major minor).bind ?_
    rintro ⟨_, _ | _⟩ hr
    · exact ⟨h₁.setFs hr, fun _ _ => rfl⟩
    · exact ⟨h₁.setFs hr.iput, fun _ _ => rfl⟩

/-- `link` takes back what it has done. -/
theorem linkBad (h : Balanced L S x (i :: y) t) :
    Keeps L S x y t p (t.linkBad i) :=
  (h.held.ilock i).bind (fun _ hfs =>
    ⟨h.setFs (hfs.modify (f := fun d => { d with nlink := toShort (d.nlink - 1) })
      mem_cons_self (fun _ => rfl)).iput, fun _ _ => rfl⟩)

/-- **`link`** has up to two inodes, the file and the directory of its new name, and gives both
back on every path. -/
theorem sysLink (h : Balanced L S x y t) (room : Room) (old new : List UInt8) :
    Keeps L S x y t p (t.sysLink room p old new) := by
  unfold State.sysLink
  split
  · next old' new' _ _ =>
    refine h.inOp fun fs h₁ => ?_
    have hcwd := cwd_pos (t.setFs fs) p
    refine (h₁.held.namei hcwd old').bind ?_
    rintro ⟨_, _ | ip⟩ hf₀
    · exact ⟨h₁.setFs hf₀, fun _ _ => rfl⟩
    · refine Ensures.bind (Fs.Holds.ilock hf₀ ip) fun fs₁ hf₁ => ?_
      split
      · exact ⟨h₁.setFs hf₁.iput, fun _ _ => rfl⟩
      · have hf₂ := hf₁.modify (f := fun d => { d with nlink := toShort (d.nlink + 1) })
          (i := ip) mem_cons_self (fun _ => rfl)
        -- the link count has been raised: from here on an error goes to `bad`
        refine (hf₂.namex hcwd new' true).bind ?_
        rintro ⟨fs₃, _ | ⟨dp, name⟩⟩ hf₃
        · exact (h₁.setFs hf₃).linkBad
        · refine Ensures.bind (Fs.Holds.ilock hf₃ dp) fun fs₄ hf₄ => ?_
          split
          · exact (h₁.setFs hf₄.iput).linkBad
          · refine (hf₄.dirlink mem_cons_self room name _).bind ?_
            rintro ⟨_, r⟩ hf₅
            dsimp only
            split
            · exact (h₁.setFs hf₅.iput).linkBad
            · exact ⟨h₁.setFs hf₅.iput.iput, fun _ _ => rfl⟩
  · exact ⟨h, fun _ _ => rfl⟩

/-- **`unlink`.** -/
theorem sysUnlink (h : Balanced L S x y t) (room : Room) (path : List UInt8) :
    Keeps L S x y t p (t.sysUnlink room p path) := by
  unfold State.sysUnlink
  split
  · exact ⟨h, fun _ _ => rfl⟩
  · next path' _ =>
    refine h.inOp fun fs h₁ => ?_
    refine (h₁.held.namex (cwd_pos _ p) path' true).bind ?_
    rintro ⟨_, _ | ⟨dp, name⟩⟩ hf₀
    · exact ⟨h₁.setFs hf₀, fun _ _ => rfl⟩
    · refine Ensures.bind (Fs.Holds.ilock hf₀ dp) fun fs₁ hf₁ => ?_
      split
      · exact ⟨h₁.setFs hf₁.iput, fun _ _ => rfl⟩
      · refine (hf₁.dirlookup dp name).bind ?_
        rintro ⟨_, _ | _⟩ hf₂
        · exact ⟨h₁.setFs hf₂.iput, fun _ _ => rfl⟩
        · exact (Fs.Holds.unlinkEntry hf₂ room _).bind fun r hr => ⟨h₁.setFs hr, fun _ _ => rfl⟩

/-! ## The current directory -/

/-- The current directory of a process has changed. -/
theorem setCwd {fs : Fs} {c : Option (Fin NINODE)} (h : Balanced L S x y t)
    (hfs : fs.Holds (t.setProc p { t.proc p with cwd := c }).users y') :
    Balanced L S x y' ((t.setFs fs).setProc p { t.proc p with cwd := c }) := by
  have hfd : (t.setProc p { t.proc p with cwd := c }).fd = t.fd := fd_setProc rfl
  refine { h with
    count := fun f => ?_, typed := fun z f hz => ?_, held := hfs, table := fun q => ?_ }
  · show _ = fiber (t.setProc p { t.proc p with cwd := c }).fd (some f) + _
    rw [hfd]
    exact h.count f
  · change (t.setProc p { t.proc p with cwd := c }).fd z = some f at hz
    rw [hfd] at hz
    exact h.typed z f hz
  · rw [← h.table q]
    by_cases hq : q = p
    · simp only [setProc, hq, update_self]
    · simp only [setProc, update_of_ne hq]
      rfl

/-- Who refers to an inode, when the current directory of a process changes. -/
theorem users_setCwd (t : State) (p : Slot) (c : Option (Fin NINODE)) (j : Fin NINODE) :
    (t.setProc p { t.proc p with cwd := c }).users j + (if (t.proc p).cwd = some j then 1 else 0) =
      t.users j + (if c = some j then 1 else 0) := by
  have hu := Fiber.update t.cwds p (some j) c
  have hcwds : (t.setProc p { t.proc p with cwd := c }).cwds = update t.cwds p c :=
    cwds_setProc
  unfold users
  rw [inodes_setProc, hcwds]
  change _ + (if (t.proc p).cwd = some j then 1 else 0) = _ at hu
  omega

/-- **`chdir`** puts the inode it has looked up in the place of the old directory. -/
theorem sysChdir (h : Balanced L S x y t) (path : List UInt8) :
    Keeps L S x y t p (t.sysChdir p path) := by
  refine h.inOp fun fs h₁ => ?_
  split
  · exact ⟨h₁, fun _ _ => rfl⟩
  · next path' _ =>
    refine (h₁.held.namei (cwd_pos _ p) path').bind ?_
    rintro ⟨_, _ | ip⟩ hf₀
    · exact ⟨h₁.setFs hf₀, fun _ _ => rfl⟩
    · refine Ensures.bind (Fs.Holds.ilock hf₀ ip) fun fs₁ hf₁ => ?_
      split
      · exact ⟨h₁.setFs hf₁.iput, fun _ _ => rfl⟩
      · cases hc : ((t.setFs fs).proc p).cwd with
        | none => nofun
        | some old =>
          -- the reference to the old directory goes, the new one stays in its place
          have hf₂ : fs₁.Holds ((t.setFs fs).setProc p
              { (t.setFs fs).proc p with cwd := some ip }).users (old :: y) := by
            refine hf₁.recount fun j => ?_
            have hu := users_setCwd (t.setFs fs) p (some ip) j
            rw [hc] at hu
            simp only [some.injEq] at hu
            simp only [toList_some, cons_append, nil_append, count_cons,
              beq_iff_eq]
            omega
          exact ⟨h₁.setCwd hf₂.iput, fun q hq => update_of_ne hq ..⟩

/-! ## Exit -/

/-- `pipeclose` does not look at descriptors. -/
theorem pipeclose_setOfile {w : Bool} :
    (t.setOfile p fdn o).pipeclose pi w =
      (t.pipeclose pi w >>= fun t' => .ok (t'.setOfile p fdn o)) := by
  unfold State.pipeclose
  have hmem : (t.setOfile p fdn o).mem = t.mem := rfl
  rw [hmem]
  dsimp only
  generalize (if w = true then (t.mem.page pi).setEnds (t.mem.page pi).readopen 0
    else (t.mem.page pi).setEnds 0 (t.mem.page pi).writeopen) = P
  split_ifs
  · cases (t.mem.setPage pi P).kfree pi <;> rfl
  · rfl

/-- Neither does `iput`. -/
theorem iput_setOfile {ip : Option (Fin NINODE)} :
    (t.setOfile p fdn o).inOp (fun s => do
        let s ← s.iput ip
        .ok (s, ())) =
      (t.inOp (fun s => do
        let s ← s.iput ip
        .ok (s, ())) >>= fun r => .ok (r.1.setOfile p fdn o, ())) := by
  unfold State.inOp
  have hfs : (t.setOfile p fdn o).fs = t.fs := rfl
  rw [hfs]
  cases t.fs.beginOp with
  | error => rfl
  | ok fs =>
    cases ip with
    | none => rfl
    | some i =>
      show ((fs.iput i).endOp >>= _) = ((fs.iput i).endOp >>= _) >>= _
      cases (fs.iput i).endOp <;> rfl

/-- Closing a file and clearing the descriptor can be done in either order. -/
theorem fileclose_setOfile :
    (t.setOfile p fdn o).fileclose f =
      (t.fileclose f >>= fun t' => .ok (t'.setOfile p fdn o)) := by
  unfold State.fileclose
  have hfile : (t.setOfile p fdn o).file f = t.file f := rfl
  have hset : ∀ ff, (t.setOfile p fdn o).setFile f ff = (t.setFile f ff).setOfile p fdn o :=
    fun _ => rfl
  simp only [hfile, hset]
  split_ifs
  · rfl
  · rfl
  · cases (t.file f).pipe with
    | none => rfl
    | some => exact pipeclose_setOfile
  · rw [iput_setOfile]
    generalize (t.setFile f _).inOp _ = z
    cases z <;> rfl
  · rfl

/-- **`exit` closes the files** that are left. -/
theorem closeAll (fds : List (Fin NOFILE)) (h : Balanced L S x y t) :
    Ensures MemFault (fun t' => Leaves L S x y (Others t p) t' ∧ (t'.proc p).cwd = (t.proc p).cwd ∧
      ∀ fd, (t'.proc p).ofile fd = if fd ∈ fds then none else (t.proc p).ofile fd)
      (closeAll p fds t) := by
  induction fds generalizing t with
  | nil => exact ⟨⟨h, fun _ _ => rfl⟩, rfl, fun fd => by rw [if_neg not_mem_nil]⟩
  | cons fdn fds ih =>
    rw [State.closeAll]
    split
    · next hfd =>
      refine (ih h).mono fun t₁ h₁ => ⟨h₁.1, h₁.2.1, fun fd => ?_⟩
      rw [h₁.2.2 fd]
      by_cases he : fd = fdn
      · rw [he, hfd, ite_self, ite_self]
      · simp only [mem_cons, he, false_or]
    · next f hfd =>
      have hclose := (h.setOfile_none hfd).fileclose
      rw [fileclose_setOfile] at hclose
      have hstep : (t.fileclose f >>= fun s => State.closeAll p fds (s.setOfile p fdn none)) =
          ((t.fileclose f >>= fun s => .ok (s.setOfile p fdn none)) >>= State.closeAll p fds) := by
        cases t.fileclose f <;> rfl
      rw [hstep]
      refine hclose.bind fun t₁ h₁ => (ih h₁.1).mono (fun t₂ h₂ => ?_)
      have hp₁ : t₁.proc p = { t.proc p with ofile := update (t.proc p).ofile fdn none } :=
        (congrFun h₁.2 p).trans (update_self ..)
      refine ⟨⟨h₂.1.1, fun q hq => ?_⟩, ?_, fun fd => ?_⟩
      · rw [h₂.1.2 q hq, h₁.2]
        exact others_setOfile q hq
      · rw [h₂.2.1, hp₁]
      · rw [h₂.2.2 fd, hp₁]
        by_cases he : fd = fdn
        · simp only [he, update_self, mem_cons_self, if_true, ite_self]
        · simp only [update_of_ne he, mem_cons, he, false_or]

/-- **`exit` leaves nothing open.** -/
theorem exit (h : Balanced L S x y t) :
    Ensures MemFault (fun r => Leaves L S x y (Others t p) r.1 ∧ (r.1.proc p).cwd = none ∧
      ∀ fd, (r.1.proc p).ofile fd = none) (t.exit p) := by
  refine (h.closeAll (List.finRange NOFILE)).bind fun t₁ h₁ => ?_
  have hput : t₁.inOp (fun s => do
      let s ← s.iput (s.proc p).cwd
      .ok (s, ())) = t₁.inOp (fun s => do
      let s ← s.iput (t₁.proc p).cwd
      .ok (s, ())) := rfl
  rw [hput]
  cases hc : (t₁.proc p).cwd with
  | none =>
    exact Ensures.bind (Q := fun _ => False) (h₁.1.1.held.beginOp.bind (fun fs _ =>
      (by decide : ¬ MemFault .nullPointer))) (fun _ hc => hc.elim)
  | some old =>
    have hold : ∀ fs, Fs.Holds t₁.users y fs →
        Fs.Holds (t₁.setProc p { t₁.proc p with cwd := none }).users (old :: y) fs := by
      intro fs hfs
      refine hfs.recount fun j => ?_
      have hu := users_setCwd t₁ p none j
      rw [hc] at hu
      simp only [some.injEq, reduceCtorEq, if_false] at hu
      simp only [count_cons, beq_iff_eq]
      omega
    have hclosed : ∀ fd, (t₁.proc p).ofile fd = none := fun fd => by
      rw [h₁.2.2 fd, if_pos (mem_finRange fd)]
    refine Ensures.bind (Q := fun r => r.1 = t₁.setFs r.1.fs ∧ Fs.Holds
      (t₁.setProc p { t₁.proc p with cwd := none }).users y r.1.fs) ?_ ?_
    · refine h₁.1.1.held.beginOp.bind fun fs hfs => ?_
      exact (hold fs hfs).iput.endOp.bind fun fs' hfs' => ⟨rfl, hfs'⟩
    · rintro ⟨_, _⟩ ⟨h₂, hfs⟩
      dsimp only at h₂ hfs ⊢
      rw [h₂]
      refine ⟨⟨h₁.1.1.setCwd hfs, fun q hq => ?_⟩, ?_, fun fd => ?_⟩
      · exact (update_of_ne hq ..).trans (h₁.1.2 q hq)
      · simp only [setProc, update_self]
      · simp only [setProc, update_self]
        exact hclosed fd

/-- **Every call on files keeps the balance.** -/
theorem exec (h : Balanced L S x y t) (ninodes : ℕ) (room : Room) (call : Call) :
    Keeps L S x y t p (call.exec ninodes room t p) := by
  cases call with
  | sysOpen path omode => exact h.sysOpen ninodes room path omode
  | sysMkdir path => exact h.createPut ninodes room path T_DIR 0 0
  | sysMknod path major minor =>
    exact h.createPut ninodes room path T_DEVICE (toShort major) (toShort minor)
  | sysLink old new => exact h.sysLink room old new
  | sysUnlink path => exact h.sysUnlink room path
  | sysChdir path => exact h.sysChdir path
  | sysDup fd => exact h.sysDup fd
  | sysPipe fdarray => exact h.sysPipe fdarray
  | sysClose fd => exact h.sysClose fd
  | exit => exact h.exit.mono (fun r hr => hr.1)

end Balanced

end State

end Sysfile

end Xv6
