import OsProject.AddrSpace
import Mathlib.Data.Fin.Basic

/-!
# The process table

The state `proc.c` works on: the table `proc[NPROC]`, the processors
`cpus[NCPU]`, the locks, and for every kernel thread the point its code has
reached.

The kernel runs on several processors at once, and the table is protected by
one spinlock per slot (`p->lock`) and by `wait_lock`. The unit in which the
model moves is a *lock-protected section*: the code between acquiring a slot's
lock and releasing it, or handing it over in `swtch`. What a thread does
between two sections touches no field another thread reads, so a thread is
described by the section it executes next and by the locals that are live
there – a control point, `Pc`.

A lock that is held across sections appears in the state. This is `wait_lock`
during `exit`, `wait` and `waitpid`, and `p->lock` across `swtch`: a process
that gives up the processor acquires its own lock, and the scheduler releases
it on the other side, and conversely when a process is picked. The spinlocks
that guard neither the table nor a slot (`tickslock`, `log.lock`, the lock of
a pipe, …) are not part of the state: they only exclude some of the orders
the model admits.

`Proc` has the fields of `struct proc` that the modelled code uses. `kstack`,
`name` and the register part of `context` are not among them, and what a page
table maps is kept beside the table, in `Kernel.umem`, so that every section
writes at most one slot.
-/

namespace Xv6

open Function (update update_of_ne update_self)

/-- Maximum number of processes (`param.h`). -/
abbrev NPROC : ℕ := 64

instance : NeZero NPROC := ⟨by decide⟩

/-- Maximum number of processors (`param.h`). -/
abbrev NCPU : ℕ := 8

instance : NeZero NCPU := ⟨by decide⟩

/-- Open files per process (`param.h`). -/
abbrev NOFILE : ℕ := 16

/-- Entries of the file table (`param.h`). -/
abbrev NFILE : ℕ := 100

/-- A slot of the process table: a `struct proc *` that is not null. -/
abbrev Slot := Fin NPROC

/-- A processor: a `struct cpu *`, or the hart id. -/
abbrev CpuId := Fin NCPU

/-- `enum procstate`. -/
inductive ProcState where
  | unused | used | sleeping | runnable | running | zombie
  deriving DecidableEq, Repr

/-- A sleep channel that is not null: the address of a slot, on which `wait`
and `waitpid` sleep, or any other kernel address. -/
inductive Chan where
  | proc (p : Slot)
  | addr (a : ℕ)
  deriving DecidableEq

/-- What a loaded program amounts to: its pages, its size, and the values
`spawn` puts into the registers. -/
structure Image where
  pages : AddrSpace
  sz : ℕ
  entry : ℕ
  sp : ℕ
  argc : ℕ

/-- The function that called `allocproc`. -/
inductive Creator where
  | fork | spawn
  deriving DecidableEq

/-- What the creator of a process filled the new slot from. -/
inductive Source where
  | fork
  | spawn (img : Image)

/-- Which slots a waiting process asks for: its children in `wait`, the
processes with the given pid in `waitpid`. -/
inductive Sel where
  | children
  | pid (q : ℤ)
  deriving DecidableEq

/-- The functions that look a process up by its pid and write to it. -/
inductive Signal where
  | kill | sigstop | sigcont
  deriving DecidableEq

/-- The lock handed to `sleep`: `wait_lock`, or one outside the model. -/
inductive Lk where
  | wait | other
  deriving DecidableEq

/-- The calls of `panic` that the modelled code contains. -/
inductive Panic where
  | initExiting | zombieExit | schedRunning
  deriving DecidableEq

/-- **A control point**: the section a kernel thread executes next, with the
locals that are live there. A control point that interrupts or calls another
carries the point it returns to. -/
inductive Pc where
  /-- User code, or kernel code outside the modelled functions. -/
  | user
  /-- A system call about to return `v`. -/
  | ret (v : ℤ)
  | panicked (msg : Panic)
  /-- `scheduler`, about to look at `proc[i]`. -/
  | scheduler (i : ℕ) (found : Bool)
  /-- `scheduler`, after `swtch` came back from slot `j`, whose lock is held. -/
  | schedulerBack (j : Slot)
  /-- The first code of a new process, its lock held. -/
  | forkret
  /-- `yield` after `sched`, the process's own lock held. -/
  | yieldRet (k : Pc)
  /-- `sleep` after `sched`, the process's own lock held. -/
  | sleepRet (lk : Lk) (k : Pc)
  /-- `sleep` about to reacquire `wait_lock`. -/
  | sleepAcquire (k : Pc)
  /-- `wakeup(chan)`, about to look at `proc[i]`. -/
  | wakeup (chan : Option Chan) (i : ℕ) (k : Pc)
  /-- `kill`, `sigstop` or `sigcont`, about to look at `proc[i]`. -/
  | signal (sig : Signal) (pid : ℤ) (i : ℕ)
  | setkilled
  /-- `allocproc`, about to look at `proc[i]`. -/
  | allocproc (i : ℕ) (cr : Creator)
  /-- `spawn`, reading the file and building the address space of `np`. -/
  | spawnLoad (np : Slot)
  /-- `spawn`, about to fill the trapframe and the size of `np`. -/
  | spawnTrapframe (np : Slot) (img : Image)
  /-- `spawn`, about to duplicate the descriptors and the directory. -/
  | spawnFiles (np : Slot) (img : Image)
  /-- The `bad` label of `spawn`. -/
  | spawnBad (np : Slot)
  /-- The publication of `np`, up to `np->parent = p`. -/
  | setParent (np : Slot) (pid : ℤ) (src : Source)
  /-- The publication of `np`, up to `np->state = RUNNABLE`. -/
  | setRunnable (np : Slot) (pid : ℤ) (src : Source)
  /-- `exit`, about to close the descriptors. -/
  | exitFiles (status : ℤ)
  /-- `exit`, about to drop the working directory. -/
  | exitCwd (status : ℤ)
  /-- `exit`, about to acquire `wait_lock`. -/
  | exitAcquire (status : ℤ)
  /-- `reparent` called by `exit`, about to look at `proc[i]`. -/
  | reparent (i : ℕ) (status : ℤ)
  /-- `exit`, about to become a zombie. -/
  | exitZombie (status : ℤ)
  /-- `exit` after `sched`, where it must not come back. -/
  | zombieExit
  /-- `wait` or `waitpid`, about to acquire `wait_lock`. -/
  | waitAcquire (sel : Sel) (addr : ℕ)
  /-- The scan of `wait` or `waitpid`, about to test `proc[i]`. -/
  | waitScan (sel : Sel) (addr : ℕ) (i : ℕ) (havekids : Bool)
  /-- The scan, about to acquire the lock of the slot that passed the test. -/
  | waitVisit (sel : Sel) (addr : ℕ) (j : Slot)
  /-- The scan is over and found nothing, about to call `killed`. -/
  | waitKilled (sel : Sel) (addr : ℕ)
  /-- The scan is over and found nothing, about to call `sleep`. -/
  | waitSleep (sel : Sel) (addr : ℕ)
  /-- `sys_getppid`, about to test `p->parent`. -/
  | getppid
  /-- `sys_getppid`, about to load `p->parent`. -/
  | getppidLoad
  /-- `sys_getppid`, about to load the pid of the slot it found. -/
  | getppidPid (q : Slot)

/-- `struct proc`. A `lock` that is not `none` is held, by that processor. -/
structure Proc where
  lock : Option CpuId
  state : ProcState
  chan : Option Chan
  killed : Bool
  xstate : ℤ
  pid : ℤ
  parent : Option Slot
  sz : ℕ
  /-- Whether `p->pagetable` is not null. -/
  pagetable : Bool
  trapframe : Option Trapframe
  /-- Where the thread continues when it is switched to. -/
  context : Pc
  ofile : Fin NOFILE → Option ℕ
  cwd : Option ℕ

/-- `struct cpu`: the current process, the code the processor executes, and
where `scheduler` continues when it is switched to. -/
structure Cpu where
  proc : Option Slot
  pc : Pc
  context : Pc

/-- The kernel: the table with the address spaces of its processes, the
processors, `wait_lock`, and the variables `nextpid` and `initproc`. -/
structure Kernel where
  proc : Slot → Proc
  umem : Slot → AddrSpace
  cpus : CpuId → Cpu
  waitLock : Option CpuId
  nextpid : ℤ
  initproc : Slot

namespace Kernel

/-- Write a slot. -/
@[simps -fullyApplied]
def setProc (s : Kernel) (j : Slot) (P : Proc) : Kernel :=
  { s with proc := update s.proc j P }

/-- Write the address space of a slot. -/
@[simps -fullyApplied]
def setUmem (s : Kernel) (j : Slot) (m : AddrSpace) : Kernel :=
  { s with umem := update s.umem j m }

/-- Write a processor. -/
@[simps -fullyApplied]
def setCpu (s : Kernel) (c : CpuId) (C : Cpu) : Kernel :=
  { s with cpus := update s.cpus c C }

/-- Processor `c` continues at `k`. -/
@[simps! -fullyApplied]
def goto (s : Kernel) (c : CpuId) (k : Pc) : Kernel :=
  s.setCpu c { s.cpus c with pc := k }

end Kernel

/-! ## Operations on one slot -/

namespace Proc

/-- `freeproc`. It resets neither the descriptors nor the working directory:
`exit` has done that. -/
def freeproc (P : Proc) : Proc :=
  { P with
    trapframe := none, pagetable := false, sz := 0, pid := 0, parent := none,
    chan := none, killed := false, xstate := 0, state := .unused }

/-- What `allocproc` makes of a free slot when both allocations succeed. -/
def alloc (P : Proc) (pid : ℤ) : Proc :=
  { P with
    pid := pid, state := .used, trapframe := some Trapframe.junk, pagetable := true,
    context := .forkret }

/-- The descriptor loop of `fork` and `spawn`: a descriptor that is open in
`P` becomes one of the new process, the others are left as they are. -/
def dupFiles (np P : Proc) : Fin NOFILE → Option ℕ :=
  fun fd => match P.ofile fd with
    | some f => some f
    | none => np.ofile fd

/-- What `fork` makes of the new slot before it releases the slot's lock. -/
def forkFill (np P : Proc) : Proc :=
  { np with
    sz := P.sz
    trapframe := P.trapframe.map (fun tf => update tf .a0 0)
    ofile := np.dupFiles P
    cwd := P.cwd }

/-- The registers of a spawned process: the caller's, with the entry point,
the stack and the arguments of the program. -/
def spawnFrame (tf : Trapframe) (img : Image) : Trapframe :=
  update (update (update (update tf .a1 img.sp) .epc img.entry) .sp img.sp) .a0 img.argc

end Proc

/-- What the functions that look a process up by pid do to the slot they
find. `sigstop` tests nothing; `kill` and `sigcont` wake a sleeper only. -/
def Signal.body : Signal → Proc → Proc
  | .kill, P =>
    { P with killed := true, state := if P.state = .sleeping then .runnable else P.state }
  | .sigstop, P => { P with state := .sleeping }
  | .sigcont, P => { P with state := if P.state = .sleeping then .runnable else P.state }

/-- The test a slot has to pass in the scan of `wait` or `waitpid`: `wait`
compares the parent, `waitpid` only the pid. -/
def Sel.test (sel : Sel) (p : Slot) (P : Proc) : Bool :=
  match sel with
  | .children => P.parent == some p
  | .pid q => P.pid == q

end Xv6
