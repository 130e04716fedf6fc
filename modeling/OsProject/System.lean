import OsProject.Loader

/-!
# Creating processes and loading programs

`allocproc`, `freeproc` and `fork` of `proc.c`, and `exec` and `spawn` of
`exec.c`, on the memory of the machine: page tables and trapframes are pages,
open files and directories are entries of the tables with their reference
counts.

Here a system call runs by itself, from one state of the system to the next.
The process table between the steps of concurrent calls is the subject of the
modules on `proc.c`, where memory is given by its contents; here it is given by
the pages it is made of.

The saved context and the kernel stack of a process are left out, and so are the
locks.
-/

namespace Xv6

/-- The place of a register in the trapframe page. -/
def Reg.index (r : Reg) : Fin 512 := ⟨r.ctorIdx, by cases r <;> decide⟩

/-- `sizeof(struct trapframe)`. -/
abbrev trapframeSize : ℕ := 288

/-- The last element of a path: what follows the last slash. -/
def lastElem (path : List UInt8) : List UInt8 :=
  (path.reverse.takeWhile (· ≠ slash)).reverse

/-- `safestrcpy` into a buffer of `n` bytes. -/
def safestrcpy (t : List UInt8) (n : ℕ) : List UInt8 := t.take (n - 1)

/-- The value of a pointer that is used. -/
def deref {α : Type} : Option α → Except Fault α
  | none => .error .nullPointer
  | some a => .ok a

/-- `struct proc`. -/
structure System.Proc where
  state : ProcState
  chan : ℕ
  killed : Bool
  xstate : ℤ
  pid : ℤ
  parent : Option Slot
  sz : ℕ
  pagetable : Option ℕ
  trapframe : Option ℕ
  ofile : Fin NOFILE → Option (Fin NFILE)
  cwd : Option (Fin NINODE)
  name : List UInt8

/-- The memory, the process table, `nextpid`, the file system and the reference
counts of the file table. -/
structure System where
  mem : Phys
  proc : Slot → System.Proc
  nextpid : ℤ
  fs : Fs
  file : Fin NFILE → ℕ

/-- `*dst = *src` for trapframes. -/
def Phys.copyTrapframe (m : Phys) (src dst : ℕ) : Phys :=
  m.setPage dst (fun o => if o.val < trapframeSize then m.page src o else m.page dst o)

namespace System

/-- A slot as `freeproc` leaves it. -/
def Proc.freed (P : Proc) : Proc :=
  { P with
    trapframe := none, pagetable := none, sz := 0, pid := 0, parent := none, name := []
    chan := 0, killed := false, xstate := 0, state := .unused }

/-- Write a slot of the process table. -/
def setProc (s : System) (p : Slot) (P : Proc) : System :=
  { s with proc := Function.update s.proc p P }

/-- `freeproc`. -/
def freeproc (s : System) (p : Slot) : Except Fault System := do
  let m ← match (s.proc p).trapframe with
    | some tf => s.mem.kfree tf
    | none => .ok s.mem
  let m ← match (s.proc p).pagetable with
    | some pt => m.procFreepagetable pt (s.proc p).sz
    | none => .ok m
  .ok { s.setProc p (s.proc p).freed with mem := m }

/-- `allocproc`. -/
def allocproc (s : System) : Except Fault (System × Option Slot) :=
  match (List.finRange NPROC).find? (fun p => decide ((s.proc p).state = .unused)) with
  | none => .ok (s, none)
  | some p =>
    let P := { s.proc p with pid := s.nextpid, state := .used }
    let s := { s with nextpid := s.nextpid + 1 }
    match s.mem.kalloc with
    | (m, none) => do
      let s ← { s.setProc p { P with trapframe := none } with mem := m }.freeproc p
      .ok (s, none)
    | (m, some tf) => do
      let (m, pt) ← m.procPagetable tf
      let s := { s.setProc p { P with trapframe := some tf, pagetable := pt } with mem := m }
      match pt with
      | none => do
        let s ← s.freeproc p
        .ok (s, none)
      | some _ => .ok (s, some p)

/-- The body of the loop that duplicates open files: `filedup` of file `i` of
the parent. The state is the reference counts with the child's table. -/
def dupFile (ofile : Fin NOFILE → Option (Fin NFILE))
    (r : (Fin NFILE → ℕ) × (Fin NOFILE → Option (Fin NFILE))) (i : Fin NOFILE) :
    Except Fault ((Fin NFILE → ℕ) × (Fin NOFILE → Option (Fin NFILE))) :=
  match ofile i with
  | none => .ok r
  | some f =>
    if r.1 f < 1 then .error .filedup
    else .ok (Function.update r.1 f (r.1 f + 1), Function.update r.2 i (some f))

/-- The loop over the open files of the parent. -/
def dupFiles (file : Fin NFILE → ℕ) (ofile npofile : Fin NOFILE → Option (Fin NFILE)) :
    Except Fault ((Fin NFILE → ℕ) × (Fin NOFILE → Option (Fin NFILE))) :=
  (List.finRange NOFILE).foldlM (dupFile ofile) (file, npofile)

/-- The end of `fork` and `spawn`: the child gets the open files and the current
directory of the parent, its name, its parent, and becomes runnable. `s` is the
state with the memory and the file system as they are by then. -/
def launch (s : System) (p np : Slot) (NP : Proc) (name : List UInt8) :
    Except Fault (System × ℤ) := do
  let (file, ofile) ← dupFiles s.file (s.proc p).ofile NP.ofile
  let cwd ← deref (s.proc p).cwd
  .ok ({ s.setProc np { NP with
          ofile := ofile, cwd := some cwd, name := name, parent := some p, state := .runnable } with
        file := file, fs := s.fs.idup cwd }, NP.pid)

/-- `fork`, called by `p`. -/
def fork (s : System) (p : Slot) : Except Fault (System × ℤ) := do
  let (s, r) ← s.allocproc
  match r with
  | none => .ok (s, -1)
  | some np => do
    let old ← deref (s.proc p).pagetable
    let new ← deref (s.proc np).pagetable
    let (m, ok) ← s.mem.uvmcopy old new (s.proc p).sz
    if ok then do
      let tf ← deref (s.proc p).trapframe
      let ntf ← deref (s.proc np).trapframe
      let m := (m.copyTrapframe tf ntf).setEntry ntf Reg.a0.index 0
      { s with mem := m }.launch p np { s.proc np with sz := (s.proc p).sz }
        (safestrcpy (s.proc p).name 16)
    else do
      let s ← { s with mem := m }.freeproc np
      .ok (s, -1)

/-- What loading came to: `goto bad` with the size of the address space and the
inode that is still held, or a program with its size, stack pointer and number
of arguments. -/
inductive Load where
  | bad (sz : ℕ) (ip : Option (Fin NINODE))
  | done (sz sp argc : ℕ)

/-- The part of `exec` and `spawn` from the loop over the program headers to the
finished stack. -/
def loadProgram (m : Phys) (fs : Fs) (ip : Fin NINODE) (elf : ElfHdr) (pagetable : ℕ)
    (argv : List (List UInt8)) : Except Fault (Phys × Fs × Load) := do
  let (m, sz, ok) ← Phys.loadSegs (fs.inode ip).copy.data pagetable elf.phnum m
    (elf.phoff % 2 ^ 32) 0
  if ok then do
    let fs ← (fs.iput ip).endOp
    let (m, sz, r) ← m.buildStack pagetable sz argv
    match r with
    | none => .ok (m, fs, .bad sz none)
    | some (sp, argc) => .ok (m, fs, .done sz sp argc)
  else .ok (m, fs, .bad sz (some ip))

/-- What stands at the label `bad` in `exec` and `spawn`: free the local page
table, if there is one, and put the inode, if it is still held. -/
def bad (m : Phys) (fs : Fs) (pagetable : Option ℕ) (sz : ℕ) (ip : Option (Fin NINODE)) :
    Except Fault (Phys × Fs) := do
  let m ← match pagetable with
    | some pt => m.procFreepagetable pt sz
    | none => .ok m
  let fs ← match ip with
    | some ip => (fs.iput ip).endOp
    | none => .ok fs
  .ok (m, fs)

/-- `exec` from `goto bad` on. -/
def execBad (s : System) (m : Phys) (fs : Fs) (pagetable : Option ℕ) (sz : ℕ)
    (ip : Option (Fin NINODE)) : Except Fault (System × ℤ) := do
  let (m, fs) ← bad m fs pagetable sz ip
  .ok ({ s with mem := m, fs := fs }, -1)

/-- `exec` from the commit to the new image on. `tf` is the trapframe of the
process. -/
def execCommit (s : System) (p : Slot) (m : Phys) (fs : Fs) (path : List UInt8) (elf : ElfHdr)
    (tf pagetable sz sp argc : ℕ) : Except Fault (System × ℤ) := do
  let m := m.setEntry tf Reg.a1.index sp
  let oldpagetable ← deref (s.proc p).pagetable
  let m := (m.setEntry tf Reg.epc.index elf.entry).setEntry tf Reg.sp.index sp
  let m ← m.procFreepagetable oldpagetable (s.proc p).sz
  .ok ({ s.setProc p { s.proc p with
          name := safestrcpy (lastElem path) 16, pagetable := some pagetable, sz := sz } with
        mem := m, fs := fs }, argc)

/-- `exec` with the inode of the file locked. -/
def execInode (s : System) (p : Slot) (fs : Fs) (ip : Fin NINODE) (path : List UInt8)
    (argv : List (List UInt8)) : Except Fault (System × ℤ) :=
  match elfHeader (fs.inode ip).copy.data with
  | none => s.execBad s.mem fs none 0 (some ip)
  | some elf => do
    let tf ← deref (s.proc p).trapframe
    let (m, pt) ← s.mem.procPagetable tf
    match pt with
    | none => s.execBad m fs none 0 (some ip)
    | some pt => do
      let (m, fs, l) ← loadProgram m fs ip elf pt argv
      match l with
      | .bad sz ip => s.execBad m fs (some pt) sz ip
      | .done sz sp argc => s.execCommit p m fs path elf tf pt sz sp argc

/-- `exec`, called by `p`. -/
def exec (s : System) (p : Slot) (path : List UInt8) (argv : List (List UInt8)) :
    Except Fault (System × ℤ) := do
  let fs ← s.fs.beginOp
  let (fs, r) ← fs.namei (s.proc p).cwd path
  match r with
  | none => do
    let fs ← fs.endOp
    .ok ({ s with fs := fs }, -1)
  | some ip => do
    let fs ← fs.ilock ip
    s.execInode p fs ip path argv

/-- `spawn` from `goto bad` on: the page table of the new process counts as
freed. -/
def spawnBad (s : System) (np : Slot) (m : Phys) (fs : Fs) (pagetable : Option ℕ) (sz : ℕ)
    (ip : Option (Fin NINODE)) : Except Fault (System × ℤ) := do
  let (m, fs) ← bad m fs pagetable sz ip
  let s ← { s.setProc np { s.proc np with pagetable := none, sz := 0 } with
    mem := m, fs := fs }.freeproc np
  .ok (s, -1)

/-- `spawn` from the finished image on. -/
def spawnCommit (s : System) (p np : Slot) (m : Phys) (fs : Fs) (path : List UInt8) (elf : ElfHdr)
    (sz sp argc : ℕ) : Except Fault (System × ℤ) := do
  let tf ← deref (s.proc p).trapframe
  let ntf ← deref (s.proc np).trapframe
  let m := (m.copyTrapframe tf ntf).setEntry ntf Reg.a1.index sp
  let m := (m.setEntry ntf Reg.epc.index elf.entry).setEntry ntf Reg.sp.index sp
  let m := m.setEntry ntf Reg.a0.index argc
  { s with mem := m, fs := fs }.launch p np { s.proc np with sz := sz }
    (safestrcpy (lastElem path) 16)

/-- `spawn` with the inode of the file locked. The local variable `pagetable` is
null until the header has been checked. -/
def spawnInode (s : System) (p np : Slot) (fs : Fs) (ip : Fin NINODE) (path : List UInt8) :
    Except Fault (System × ℤ) :=
  match elfHeader (fs.inode ip).copy.data with
  | none => s.spawnBad np s.mem fs none 0 (some ip)
  | some elf => do
    let pt ← deref (s.proc np).pagetable
    let (m, fs, l) ← loadProgram s.mem fs ip elf pt [path]
    match l with
    | .bad sz ip => s.spawnBad np m fs (some pt) sz ip
    | .done sz sp argc => s.spawnCommit p np m fs path elf sz sp argc

/-- `spawn`, called by `p`. -/
def spawn (s : System) (p : Slot) (path : List UInt8) : Except Fault (System × ℤ) := do
  let (s, r) ← s.allocproc
  match r with
  | none => .ok (s, -1)
  | some np => do
    let fs ← s.fs.beginOp
    let (fs, r) ← fs.namei (s.proc p).cwd path
    match r with
    | none => do
      let fs ← fs.endOp
      let s ← { s with fs := fs }.freeproc np
      .ok (s, -1)
    | some ip => do
      let fs ← fs.ilock ip
      s.spawnInode p np fs ip path

/-- `syscall`, when the system call has returned `r` to process `p`. -/
def syscallReturn (s : System) (p : Slot) (r : ℤ) : Except Fault System := do
  let tf ← deref (s.proc p).trapframe
  .ok { s with mem := s.mem.setEntry tf Reg.a0.index (r % 2 ^ 64).toNat }

/-! ## Concrete runs -/

/-- The call returns `r`, and the state after it passes the check `c`. -/
def returns (x : Except Fault (System × ℤ)) (r : ℤ) (c : System → Bool) : Bool :=
  match x with
  | .ok (s, r') => decide (r' = r) && c s
  | .error _ => false

theorem exists_of_returns {x : Except Fault (System × ℤ)} {r : ℤ} {c : System → Bool}
    (h : returns x r c = true) : ∃ s, x = .ok (s, r) ∧ c s = true := by
  match x with
  | .ok (s, r') =>
    simp only [returns, Bool.and_eq_true, decide_eq_true_eq] at h
    exact ⟨s, by rw [h.1], h.2⟩
  | .error e => cases h

/-- The program is loaded, with `argc` arguments. -/
def loads (x : Except Fault Load) (argc : ℕ) : Bool :=
  match x with
  | .ok (.done _ _ n) => decide (n = argc)
  | _ => false

theorem exists_of_loads {x : Except Fault Load} {argc : ℕ} (h : loads x argc = true) :
    ∃ sz sp, x = .ok (.done sz sp argc) := by
  unfold loads at h
  split at h
  · exact ⟨_, _, by rw [of_decide_eq_true h]⟩
  · cases h

end System

end Xv6
