import OsProject.Sysfile
import OsProject.System

/-!
# The system calls on memory and files

The machine between system calls: its memory, the process table, the inode layer
and the file table. The calls of `sysfile.c` work on the part that
`Sysfile.State` has, and those that create processes and load programs on the
part that `System` has. To these come the remaining calls that give memory to
processes and take it back: `sbrk`, `wait` and `waitpid`, and the frames of
`exec` and `exit`.

A call runs by itself, from one state of the machine to the next. A process that
waits for a child makes its call when there is one to be collected: what `wait`
does before it sleeps changes nothing. So nobody sleeps between calls, and
`wakeup` is left out.
-/

namespace Xv6

namespace System

/-! ## Memory -/

/-- `growproc`, with the `int` that `sbrk` was given. -/
def growproc (s : System) (p : Slot) (n : BitVec 32) : Except Fault (System × ℤ) := do
  let pagetable ← deref (s.proc p).pagetable
  let sz := (s.proc p).sz
  let newsz := ((sz + n.toInt) % 2 ^ 64).toNat
  if 0 < n.toInt then do
    let (m, sz) ← s.mem.uvmalloc pagetable sz newsz PTE_W
    if sz = 0 then .ok ({ s with mem := m }, -1)
    else .ok ({ s.setProc p { s.proc p with sz := sz } with mem := m }, 0)
  else if n.toInt < 0 then do
    let (m, sz) ← s.mem.uvmdealloc pagetable sz newsz
    .ok ({ s.setProc p { s.proc p with sz := sz } with mem := m }, 0)
  else .ok (s, 0)

/-- `sys_sbrk`. -/
def sysSbrk (s : System) (p : Slot) (n : BitVec 32) : Except Fault (System × ℤ) := do
  let addr := (s.proc p).sz
  let (s, r) ← s.growproc p n
  .ok (s, if r < 0 then -1 else addr)

/-- Process `p` writes a byte in user mode. -/
def store (s : System) (p : Slot) (va : ℕ) (b : UInt8) : Except Fault System := do
  let pagetable ← deref (s.proc p).pagetable
  let (m, _) ← s.mem.copyout pagetable va [b]
  .ok { s with mem := m }

/-! ## Collecting children -/

/-- What `wait` and `waitpid` do with a zombie they have found. -/
def reap (s : System) (p pp : Slot) (addr : ℕ) : Except Fault (System × ℤ) := do
  let pid := (s.proc pp).pid
  let (m, ok) ←
    if addr ≠ 0 then do
      let pagetable ← deref (s.proc p).pagetable
      s.mem.copyout pagetable addr (intBytes (s.proc pp).xstate)
    else .ok (s.mem, true)
  let s := { s with mem := m }
  if ok then do
    let s ← s.freeproc pp
    .ok (s, pid)
  else .ok (s, -1)

/-- The loop that `wait` and `waitpid` share, over the processes that `sel` selects. -/
def waitFor (s : System) (p : Slot) (sel : Proc → Bool) (addr : ℕ) : Except Fault (System × ℤ) :=
  match (List.finRange NPROC).find? (fun pp =>
      sel (s.proc pp) && decide ((s.proc pp).state = .zombie)) with
  | some pp => s.reap p pp addr
  | none =>
    if (List.finRange NPROC).any (fun pp => sel (s.proc pp)) = false ∨ (s.proc p).killed then
      .ok (s, -1)
    else .error .blocked

/-- `wait`. -/
def wait (s : System) (p : Slot) (addr : ℕ) : Except Fault (System × ℤ) :=
  s.waitFor p (fun pp => decide (pp.parent = some p)) addr

/-- `waitpid`, which does not look at the parent. -/
def waitpid (s : System) (p : Slot) (pid : ℤ) (addr : ℕ) : Except Fault (System × ℤ) :=
  s.waitFor p (fun pp => decide (pp.pid = pid)) addr

/-! ## The arguments of `exec` -/

/-- An element of the argument vector that is not null: its address or the string
cannot be read from user memory, or the string. -/
inductive Arg where
  | badAddr
  | badStr
  | str (s : List UInt8)

/-- The loop of `sys_exec` over the argument vector, with room for `n` more
arguments: the pages it has taken, and the arguments. -/
def fetchArgs : ℕ → Phys → List Arg → Phys × List ℕ × Option (List (List UInt8))
  | 0, m, _ => (m, [], none)
  | _ + 1, m, [] => (m, [], some [])
  | _ + 1, m, .badAddr :: _ => (m, [], none)
  | n + 1, m, arg :: args =>
    match m.kalloc with
    | (m, none) => (m, [], none)
    | (m, some mem) =>
      match arg with
      | .str s =>
        let (m, pages, r) := fetchArgs n (m.write mem 0 (s ++ [0])) args
        (m, mem :: pages, r.map (s :: ·))
      | _ => (m, [mem], none)

/-- The loops of `sys_exec` that free the arguments. -/
def freeArgs : Phys → List ℕ → Except Fault Phys
  | m, [] => .ok m
  | m, pa :: pas => do
    let m ← m.kfree pa
    freeArgs m pas

/-- `sys_exec`, with the path if it can be read. -/
def sysExec (s : System) (p : Slot) (path : Option (List UInt8)) (args : List Arg) :
    Except Fault (System × ℤ) :=
  match path with
  | none => .ok (s, -1)
  | some path => do
    let (m, pages, r) := fetchArgs MAXARG s.mem args
    let s := { s with mem := m }
    let (s, ret) ←
      match r with
      | some argv => s.exec p path argv
      | none => .ok (s, -1)
    let m ← freeArgs s.mem pages
    .ok ({ s with mem := m }, ret)

/-! ## Boot -/

/-- `uvmfirst`. It does not look at what `mappages` returns. -/
def uvmfirst (m : Phys) (pagetable : ℕ) (src : List UInt8) : Except Fault Phys :=
  if PGSIZE ≤ src.length then .error .uvmfirst
  else match m.kalloc with
  | (_, none) => .error .nullPointer
  | (m, some mem) => do
    let (m, _) ← (m.memset mem 0).mappages pagetable 0 PGSIZE mem
      (PTE_W ||| PTE_R ||| PTE_X ||| PTE_U)
    .ok (m.write mem 0 src)

/-- `userinit`, with the program `initcode`. -/
def userinit (s : System) (initcode : List UInt8) : Except Fault (System × Slot) := do
  let (s, r) ← s.allocproc
  let p ← deref r
  let pagetable ← deref (s.proc p).pagetable
  let m ← uvmfirst s.mem pagetable initcode
  let tf ← deref (s.proc p).trapframe
  let m := (m.setEntry tf Reg.epc.index 0).setEntry tf Reg.sp.index PGSIZE
  let (fs, cwd) ← s.fs.namei none [slash]
  .ok ({ s.setProc p { s.proc p with
          sz := PGSIZE, name := [105, 110, 105, 116, 99, 111, 100, 101], cwd := cwd
          state := .runnable } with mem := m, fs := fs }, p)

end System

/-! ## The machine -/

/-- What the file table has besides the reference counts. -/
structure Machine.File where
  type : Sysfile.FdType
  readable : Bool
  writable : Bool
  pipe : Option ℕ
  ip : Option (Fin NINODE)
  off : ℕ
  major : ℤ

/-- The memory, the processes and the inode layer, with the reference counts of the
file table; the rest of the file table; and `initproc`. -/
structure Machine where
  sys : System
  file : Fin NFILE → Machine.File
  initproc : Slot

namespace Machine

/-- What the calls of `sysfile.c` work on. -/
def files (M : Machine) : Sysfile.State where
  mem := M.sys.mem
  fs := M.sys.fs
  file f :=
    { type := (M.file f).type, ref := M.sys.file f, readable := (M.file f).readable
      writable := (M.file f).writable, pipe := (M.file f).pipe, ip := (M.file f).ip
      off := (M.file f).off, major := (M.file f).major }
  proc p :=
    { ofile := (M.sys.proc p).ofile, cwd := (M.sys.proc p).cwd
      pagetable := (M.sys.proc p).pagetable }

/-- A process after such a call. -/
def setFilesProc (P : System.Proc) (Q : Sysfile.Proc) : System.Proc :=
  { P with ofile := Q.ofile, cwd := Q.cwd, pagetable := Q.pagetable }

/-- The machine after such a call. -/
def setFiles (M : Machine) (t : Sysfile.State) : Machine where
  sys := {
    mem := t.mem
    proc := fun p => setFilesProc (M.sys.proc p) (t.proc p)
    nextpid := M.sys.nextpid
    fs := t.fs
    file := fun f => (t.file f).ref }
  file f :=
    { type := (t.file f).type, readable := (t.file f).readable
      writable := (t.file f).writable, pipe := (t.file f).pipe, ip := (t.file f).ip
      off := (t.file f).off, major := (t.file f).major }
  initproc := M.initproc

/-- The children of `p` are given to `initproc`. -/
def reparent (M : Machine) (p : Slot) : Machine :=
  let proc := fun pp =>
    if (M.sys.proc pp).parent = some p then { M.sys.proc pp with parent := some M.initproc }
    else M.sys.proc pp
  { M with sys := { M.sys with proc := proc } }

/-- `exit`. -/
def exit (M : Machine) (p : Slot) (status : ℤ) : Except Fault Machine :=
  if p = M.initproc then .error .initExiting
  else do
    let (t, _) ← M.files.exit p
    let M := (M.setFiles t).reparent p
    .ok { M with sys := M.sys.setProc p { M.sys.proc p with xstate := status, state := .zombie } }

/-- The system calls, and a write in user mode. -/
inductive Call
  | fork
  | spawn (path : List UInt8)
  | sysExec (path : Option (List UInt8)) (args : List System.Arg)
  | sysSbrk (n : BitVec 32)
  | wait (addr : ℕ)
  | waitpid (pid : ℤ) (addr : ℕ)
  | exit (status : ℤ)
  | files (call : Sysfile.Call) (room : Room)
  | store (va : ℕ) (b : UInt8)

/-- A call on the part of the machine that `System` has. -/
def onSys (M : Machine) (f : System → Except Fault (System × ℤ)) : Except Fault (Machine × ℤ) := do
  let (s, r) ← f M.sys
  .ok ({ M with sys := s }, r)

/-- A call of `sysfile.c`. `exit` is not one of them: it does not return. -/
def onFiles (M : Machine) (ninodes : ℕ) (room : Room) (p : Slot) (call : Sysfile.Call) :
    Except Fault (Machine × ℤ) :=
  if call.isExit then .error .blocked
  else do
    let (t, r) ← call.exec ninodes room M.files p
    .ok (M.setFiles t, r)

/-- `syscall`, for a call that returns. -/
def syscall (p : Slot) (f : Except Fault (Machine × ℤ)) : Except Fault Machine := do
  let (M, r) ← f
  let s ← M.sys.syscallReturn p r
  .ok { M with sys := s }

/-- What process `p` does. -/
def Call.exec (ninodes : ℕ) (M : Machine) (p : Slot) : Call → Except Fault Machine
  | .fork => syscall p (M.onSys (·.fork p))
  | .spawn path => syscall p (M.onSys (·.spawn p path))
  | .sysExec path args => syscall p (M.onSys (·.sysExec p path args))
  | .sysSbrk n => syscall p (M.onSys (·.sysSbrk p n))
  | .wait addr => syscall p (M.onSys (·.wait p addr))
  | .waitpid pid addr => syscall p (M.onSys (·.waitpid p pid addr))
  | .exit status => M.exit p status
  | .files call room => syscall p (M.onFiles ninodes room p call)
  | .store va b => do
    let s ← M.sys.store p va b
    .ok { M with sys := s }

/-- A process that can make a call. -/
def Active (M : Machine) (p : Slot) : Prop :=
  (M.sys.proc p).state = .runnable ∨ (M.sys.proc p).state = .running

instance (M : Machine) (p : Slot) : Decidable (M.Active p) := inferInstanceAs (Decidable (_ ∨ _))

/-- A process with what it does. -/
structure Label where
  p : Slot
  call : Call

/-- A call that returns, or a write. -/
def step (ninodes : ℕ) (M : Machine) (l : Label) : Option Machine :=
  if M.Active l.p then (l.call.exec ninodes M l.p).toOption else none

/-- The machine before `userinit`, with this memory and these inodes on disk. -/
def blank (m : Phys) (disk : ℕ → ℕ → DInode) : Machine where
  sys := {
    mem := m
    proc := fun _ =>
      { state := .unused, chan := 0, killed := false, xstate := 0, pid := 0, parent := none
        sz := 0, pagetable := none, trapframe := none, ofile := fun _ => none, cwd := none
        name := [] }
    nextpid := 1
    fs := {
      inode := fun _ => ⟨0, 0, 0, false, ⟨0, 0, 0, 0, []⟩⟩
      disk := disk
      log := ⟨0, false, 0⟩ }
    file := fun _ => 0 }
  file := fun _ =>
    { type := .none, readable := false, writable := false, pipe := none, ip := none, off := 0
      major := 0 }
  initproc := 0

/-- The machine after `userinit`. -/
def boot (m : Phys) (disk : ℕ → ℕ → DInode) (initcode : List UInt8) : Except Fault Machine := do
  let (s, p) ← (blank m disk).sys.userinit initcode
  .ok { blank m disk with sys := s, initproc := p }

end Machine

end Xv6
