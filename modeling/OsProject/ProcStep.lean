import OsProject.Runs
import OsProject.ProcTable

/-!
# The steps of the kernel

`step s (c, a)` is the state after processor `c` executed one section of the
code it is at, or `none` when it cannot: a lock it needs is held, or `a` does
not apply. The `Act` tells apart what the code at one control point may do:
which system call user code makes, whether an allocation fails, what the file
holds that `spawn` loads, when an interrupt arrives.

Every definition up to `step` is one function of `proc.c`, `exec.c` or
`sysproc.c`, cut into its sections. A section that starts with
`acquire(&p->lock)` is guarded by `underLock`, one that starts with
`acquire(&wait_lock)` by the state of that lock.

Code outside these functions is present through what it can do to the table.
A system call may block on a channel that is no slot's address
(`Act.block`), its handlers and the interrupt handlers may call `wakeup` on
such a channel (`Act.intr`), a timer interrupt makes the process yield
(`Act.timer`), and between two system calls a process may change what is
private to it (`Act.own`).
-/

namespace Xv6

open Function

/-- The system calls of the model, with their arguments. `sys_forex` calls
`fork` or `spawn`, according to its argument. -/
inductive Syscall where
  | fork
  | spawn
  | exit (status : ℤ)
  | wait (addr : ℕ)
  | waitpid (pid : ℤ) (addr : ℕ)
  | kill (pid : ℤ)
  | sigstop (pid : ℤ)
  | sigcont (pid : ℤ)
  | getppid

/-- What a process can change of its own slot outside the modelled functions:
its memory (`exec`, `sbrk`, user code), registers, descriptors, directory. -/
structure Own where
  sz : ℕ
  pages : AddrSpace
  trapframe : Trapframe
  ofile : Fin NOFILE → Option ℕ
  cwd : ℕ

/-- What a processor does at a control point. -/
inductive Act where
  /-- Execute the section, everything it allocates being available. -/
  | go
  /-- Execute the section, an allocation or a read in it failing. -/
  | fail
  /-- A timer interrupt. -/
  | timer
  /-- A `wakeup` of an interrupt handler or of code outside the model. -/
  | intr (a : ℕ)
  /-- A `sleep` of code outside the model. -/
  | block (a : ℕ)
  | call (sc : Syscall)
  /-- An exception in user code, for which `usertrap` calls `setkilled`. -/
  | fault
  | own (u : Own)
  /-- `spawn` allocates or fills pages of the new address space. -/
  | load (m : AddrSpace)
  /-- `spawn` has the whole image in place. -/
  | loaded (img : Image)

/-- The label of a step: which processor moves, and how. -/
abbrev Label := CpuId × Act

/-- The points at which the processor holds no spinlock, so that interrupts
are enabled. -/
def Pc.interruptible : Pc → Bool
  | .user | .ret _ | .scheduler _ _ | .sleepAcquire _ | .signal _ _ _ | .setkilled
  | .allocproc _ _ | .spawnLoad _ | .spawnTrapframe _ _ | .spawnFiles _ _ | .spawnBad _
  | .setParent _ _ _ | .setRunnable _ _ _ | .exitFiles _ | .exitCwd _ | .exitAcquire _
  | .waitAcquire _ _ | .getppid | .getppidLoad | .getppidPid _ => true
  | _ => false

/-- The points at which code runs that can sleep: file-system code, or any
other system call. -/
def Pc.canBlock : Pc → Bool
  | .user | .spawnLoad _ | .spawnBad _ | .exitFiles _ | .exitCwd _ => true
  | _ => false

namespace Kernel

/-- A section under the lock of slot `j`. If the lock is held, `acquire`
spins. -/
def underLock (s : Kernel) (j : Slot) (f : Proc → Option Kernel) : Option Kernel :=
  if (s.proc j).lock = none then f (s.proc j) else none

/-- The body of a loop over the table, and what follows the loop. -/
def forSlot (i : ℕ) (body : Slot → Option Kernel) (done : Kernel) : Option Kernel :=
  if h : i < NPROC then body ⟨i, h⟩ else some done

/-! ## Switching -/

/-- `sched`, called by process `p` holding its own lock: save `k` as the point
where it continues, and return to the scheduler. -/
def sched (s : Kernel) (c : CpuId) (p : Slot) (k : Pc) : Kernel :=
  if (s.proc p).state = .running then s.goto c (.panicked .schedRunning)
  else (s.setProc p { s.proc p with context := k }).goto c (s.cpus c).context

/-- `scheduler`: a runnable process becomes the current one and is switched
to, with its lock held. -/
def scheduler (s : Kernel) (c : CpuId) (i : ℕ) (found : Bool) : Option Kernel :=
  forSlot i
    (fun j => s.underLock j (fun P =>
      if P.state = .runnable then
        some ((s.setProc j { P with state := .running, lock := some c }).setCpu c
          { proc := some j, pc := P.context, context := .schedulerBack j })
      else some (s.goto c (.scheduler (i + 1) found))))
    (s.goto c (.scheduler 0 false))

/-- `scheduler` after `swtch`: no process is current, and the lock of the one
that was is released. -/
def schedulerBack (s : Kernel) (c : CpuId) (j : Slot) : Option Kernel :=
  some ((s.setProc j { s.proc j with lock := none }).setCpu c
    { s.cpus c with proc := none, pc := .scheduler (j + 1) true })

/-- `yield`, up to `sched`. -/
def yield (s : Kernel) (c : CpuId) (p : Slot) (k : Pc) : Option Kernel :=
  s.underLock p (fun P =>
    some ((s.setProc p { P with lock := some c, state := .runnable }).sched c p (.yieldRet k)))

/-- `release(lk)` in `sleep`. -/
def releaseLk (s : Kernel) : Lk → Kernel
  | .wait => { s with waitLock := none }
  | .other => s

/-- `sleep`, up to `sched`. -/
def sleep (s : Kernel) (c : CpuId) (p : Slot) (chan : Option Chan) (lk : Lk) (k : Pc) :
    Option Kernel :=
  s.underLock p (fun P =>
    some (((s.releaseLk lk).setProc p
      { P with lock := some c, chan := chan, state := .sleeping }).sched c p (.sleepRet lk k)))

/-- `yield` or `forkret` after the process was switched to: release its
lock. -/
def resume (s : Kernel) (c : CpuId) (p : Slot) (k : Pc) : Option Kernel :=
  some ((s.setProc p { s.proc p with lock := none }).goto c k)

/-- `sleep` after the process was switched to: clear the channel, release the
process's lock, and go on to reacquire the other one. -/
def sleepRet (s : Kernel) (c : CpuId) (p : Slot) (lk : Lk) (k : Pc) : Option Kernel :=
  some ((s.setProc p { s.proc p with chan := none, lock := none }).goto c
    (if lk = .wait then .sleepAcquire k else k))

/-- `acquire(&wait_lock)`. -/
def acquireWait (s : Kernel) (c : CpuId) (k : Pc) : Option Kernel :=
  if s.waitLock = none then some ({ s with waitLock := some c }.goto c k) else none

/-- `release(&wait_lock)` before `wait` or `waitpid` returns `v`. -/
def releaseWait (s : Kernel) (c : CpuId) (v : ℤ) : Kernel :=
  { s with waitLock := none }.goto c (.ret v)

/-! ## Waking and signalling -/

/-- `wakeup(chan)` at `proc[i]`. -/
def wakeup (s : Kernel) (c : CpuId) (chan : Option Chan) (i : ℕ) (k : Pc) : Option Kernel :=
  forSlot i
    (fun j =>
      if (s.cpus c).proc = some j then some (s.goto c (.wakeup chan (i + 1) k))
      else s.underLock j (fun P =>
        if P.state = .sleeping ∧ P.chan = chan then
          some ((s.setProc j { P with state := .runnable }).goto c (.wakeup chan (i + 1) k))
        else some (s.goto c (.wakeup chan (i + 1) k))))
    (s.goto c k)

/-- `kill`, `sigstop` or `sigcont` at `proc[i]`. -/
def signal (s : Kernel) (c : CpuId) (sig : Signal) (pid : ℤ) (i : ℕ) : Option Kernel :=
  forSlot i
    (fun j => s.underLock j (fun P =>
      if P.pid = pid then some ((s.setProc j (sig.body P)).goto c (.ret 0))
      else some (s.goto c (.signal sig pid (i + 1)))))
    (s.goto c (.ret (-1)))

/-- `setkilled(myproc())`. -/
def setkilled (s : Kernel) (c : CpuId) (p : Slot) : Option Kernel :=
  s.underLock p (fun P => some ((s.setProc p { P with killed := true }).goto c .user))

/-! ## Creating a process -/

/-- `allocproc` at `proc[i]`, together with what its caller does before it
releases the lock of the slot found: `fork` fills the whole slot, `spawn`
nothing. When memory runs out – for the trapframe, the page table or the copy
of the parent's memory – the slot is freed again. The pid is used up in either
case. Past the largest `int` the increment of `nextpid` is undefined, and there
is no step. -/
def allocproc (s : Kernel) (c : CpuId) (p : Slot) (i : ℕ) (cr : Creator) (ok : Bool) :
    Option Kernel :=
  forSlot i
    (fun j => s.underLock j (fun P =>
      if P.state = .unused then
        if s.nextpid < 2 ^ 31 - 1 then
          let t := { s with nextpid := s.nextpid + 1 }
          let np := P.alloc s.nextpid
          if ok then
            match cr with
            | .fork =>
              some (((t.setProc j (np.forkFill (s.proc p))).setUmem j
                ((s.umem p).upTo (s.proc p).sz)).goto c (.setParent j s.nextpid .fork))
            | .spawn =>
              some (((t.setProc j np).setUmem j AddrSpace.empty).goto c (.spawnLoad j))
          else some ((t.setProc j np.freeproc).goto c (.ret (-1)))
        else none
      else some (s.goto c (.allocproc (i + 1) cr))))
    (s.goto c (.ret (-1)))

/-- `spawn` copies the registers and sets the size. -/
def spawnTrapframe (s : Kernel) (c : CpuId) (p np : Slot) (img : Image) : Option Kernel :=
  some ((s.setProc np
    { s.proc np with
      trapframe := (s.proc p).trapframe.map (fun tf => Proc.spawnFrame tf img)
      sz := img.sz }).goto c (.spawnFiles np img))

/-- `spawn` duplicates the descriptors and the working directory. -/
def spawnFiles (s : Kernel) (c : CpuId) (p np : Slot) (img : Image) : Option Kernel :=
  some ((s.setProc np
    { s.proc np with ofile := (s.proc np).dupFiles (s.proc p), cwd := (s.proc p).cwd }).goto c
      (.setParent np (s.proc np).pid (.spawn img)))

/-- The end of `spawn` when it fails. -/
def spawnBad (s : Kernel) (c : CpuId) (np : Slot) : Option Kernel :=
  s.underLock np (fun P =>
    some ((s.setProc np ({ P with pagetable := false, sz := 0 } : Proc).freeproc).goto c
      (.ret (-1))))

/-- `np->parent = p` under `wait_lock`. -/
def setParent (s : Kernel) (c : CpuId) (p np : Slot) (pid : ℤ) (src : Source) :
    Option Kernel :=
  if s.waitLock = none then
    some ((s.setProc np { s.proc np with parent := some p }).goto c (.setRunnable np pid src))
  else none

/-- `np->state = RUNNABLE` under the lock of the new process. -/
def setRunnable (s : Kernel) (c : CpuId) (np : Slot) (pid : ℤ) : Option Kernel :=
  s.underLock np (fun P =>
    some ((s.setProc np { P with state := .runnable }).goto c (.ret pid)))

/-! ## Exit -/

/-- `exit` on entry. -/
def exit (s : Kernel) (c : CpuId) (p : Slot) (status : ℤ) : Kernel :=
  if p = s.initproc then s.goto c (.panicked .initExiting) else s.goto c (.exitFiles status)

/-- `exit` closes the descriptors. -/
def exitFiles (s : Kernel) (c : CpuId) (p : Slot) (status : ℤ) : Option Kernel :=
  some ((s.setProc p { s.proc p with ofile := fun _ => none }).goto c (.exitCwd status))

/-- `exit` drops the working directory. -/
def exitCwd (s : Kernel) (c : CpuId) (p : Slot) (status : ℤ) : Option Kernel :=
  some ((s.setProc p { s.proc p with cwd := none }).goto c (.exitAcquire status))

/-- `reparent` at `proc[i]`, and after its loop the call `wakeup(p->parent)` of
`exit`. -/
def reparent (s : Kernel) (c : CpuId) (p : Slot) (i : ℕ) (status : ℤ) : Option Kernel :=
  forSlot i
    (fun j =>
      if (s.proc j).parent = some p then
        some ((s.setProc j { s.proc j with parent := some s.initproc }).goto c
          (.wakeup (some (.proc s.initproc)) 0 (.reparent (i + 1) status)))
      else some (s.goto c (.reparent (i + 1) status)))
    (s.goto c (.wakeup ((s.proc p).parent.map .proc) 0 (.exitZombie status)))

/-- `exit` from `acquire(&p->lock)` to `sched`. -/
def exitZombie (s : Kernel) (c : CpuId) (p : Slot) (status : ℤ) : Option Kernel :=
  s.underLock p (fun P =>
    some (((s.releaseLk .wait).setProc p
      { P with lock := some c, xstate := status, state := .zombie }).sched c p .zombieExit))

/-! ## Waiting -/

/-- The test at `proc[i]` in the scan of `wait` or `waitpid`. After the last
slot, a scan that met no slot returns -1. -/
def waitScan (s : Kernel) (c : CpuId) (p : Slot) (sel : Sel) (addr i : ℕ) (havekids : Bool) :
    Option Kernel :=
  forSlot i
    (fun j =>
      if sel.test p (s.proc j) then some (s.goto c (.waitVisit sel addr j))
      else some (s.goto c (.waitScan sel addr (i + 1) havekids)))
    (if havekids then s.goto c (.waitKilled sel addr) else s.releaseWait c (-1))

/-- The section of the scan under `pp->lock`: a zombie is reaped, unless its
status cannot be stored. -/
def waitVisit (s : Kernel) (c : CpuId) (p : Slot) (sel : Sel) (addr : ℕ) (j : Slot) :
    Option Kernel :=
  s.underLock j (fun P =>
    if P.state = .zombie then
      if addr = 0 then some ((s.setProc j P.freeproc).releaseWait c P.pid)
      else
        let r := (s.umem p).copyout addr (intBytes P.xstate)
        if r.2 then some (((s.setUmem p r.1).setProc j P.freeproc).releaseWait c P.pid)
        else some ((s.setUmem p r.1).releaseWait c (-1))
    else some (s.goto c (.waitScan sel addr (j + 1) true)))

/-- The call of `killed(p)` after a scan. -/
def waitKilled (s : Kernel) (c : CpuId) (p : Slot) (sel : Sel) (addr : ℕ) : Option Kernel :=
  s.underLock p (fun P =>
    if P.killed then some (s.releaseWait c (-1)) else some (s.goto c (.waitSleep sel addr)))

/-- The call of `sleep(p, &wait_lock)` after a scan. -/
def waitSleep (s : Kernel) (c : CpuId) (p : Slot) (sel : Sel) (addr : ℕ) : Option Kernel :=
  s.sleep c p (some (.proc p)) .wait (.waitScan sel addr 0 false)

/-! ## System calls -/

/-- User code makes a system call. `sys_sigstop` and `sys_sigcont` refuse the
pid 0, `sys_kill` and `sys_waitpid` do not. -/
def syscall (s : Kernel) (c : CpuId) (p : Slot) : Syscall → Kernel
  | .fork => s.goto c (.allocproc 0 .fork)
  | .spawn => s.goto c (.allocproc 0 .spawn)
  | .exit status => s.exit c p status
  | .wait addr => s.goto c (.waitAcquire .children addr)
  | .waitpid pid addr => s.goto c (.waitAcquire (.pid pid) addr)
  | .kill pid => s.goto c (.signal .kill pid 0)
  | .sigstop pid => if pid = 0 then s.goto c (.ret (-1)) else s.goto c (.signal .sigstop pid 0)
  | .sigcont pid => if pid = 0 then s.goto c (.ret (-1)) else s.goto c (.signal .sigcont pid 0)
  | .getppid => s.goto c .getppid

/-- The return value goes to register `a0`. -/
def sysret (s : Kernel) (c : CpuId) (p : Slot) (v : ℤ) : Option Kernel :=
  some ((s.setProc p
    { s.proc p with
      trapframe := (s.proc p).trapframe.map
        (fun tf => update tf .a0 (v % 2 ^ 64).toNat) }).goto c .user)

/-- A process changes what is private to it. -/
def own (s : Kernel) (c : CpuId) (p : Slot) (u : Own) : Kernel :=
  ((s.setProc p
    { s.proc p with
      sz := u.sz, trapframe := some u.trapframe, ofile := u.ofile, cwd := some u.cwd }).setUmem p
    u.pages).goto c .user

/-- `sys_getppid`: the test `p->parent ? … : 0`. -/
def getppid (s : Kernel) (c : CpuId) (p : Slot) : Option Kernel :=
  some (s.goto c (if (s.proc p).parent = none then .ret 0 else .getppidLoad))

/-- `sys_getppid`: the pointer in `p->parent->pid`. -/
def getppidLoad (s : Kernel) (c : CpuId) (p : Slot) : Option Kernel :=
  (s.proc p).parent.map (fun q => s.goto c (.getppidPid q))

/-! ## One step -/

/-- The code of process `p`, current on processor `c`, at the control point
`k`. -/
def procStep (s : Kernel) (c : CpuId) (p : Slot) (k : Pc) (a : Act) : Option Kernel :=
  match k, a with
  | k, .timer => if k.interruptible then s.yield c p k else none
  | k, .block a => if k.canBlock then s.sleep c p (some (.addr a)) .other k else none
  | .user, .call sc => some (s.syscall c p sc)
  | .user, .own u => some (s.own c p u)
  | .user, .fault => some (s.goto c .setkilled)
  | .ret v, .go => s.sysret c p v
  | .forkret, .go => s.resume c p .user
  | .yieldRet k, .go => s.resume c p k
  | .sleepRet lk k, .go => s.sleepRet c p lk k
  | .sleepAcquire k, .go => s.acquireWait c k
  | .signal sig pid i, .go => s.signal c sig pid i
  | .setkilled, .go => s.setkilled c p
  | .allocproc i cr, .go => s.allocproc c p i cr true
  | .allocproc i cr, .fail => s.allocproc c p i cr false
  | .spawnLoad np, .load m => some ((s.setUmem np m).goto c (.spawnLoad np))
  | .spawnLoad np, .loaded img => some ((s.setUmem np img.pages).goto c (.spawnTrapframe np img))
  | .spawnLoad np, .fail => some (s.goto c (.spawnBad np))
  | .spawnTrapframe np img, .go => s.spawnTrapframe c p np img
  | .spawnFiles np img, .go => s.spawnFiles c p np img
  | .spawnBad np, .go => s.spawnBad c np
  | .setParent np pid src, .go => s.setParent c p np pid src
  | .setRunnable np pid _, .go => s.setRunnable c np pid
  | .exitFiles status, .go => s.exitFiles c p status
  | .exitCwd status, .go => s.exitCwd c p status
  | .exitAcquire status, .go => s.acquireWait c (.reparent 0 status)
  | .reparent i status, .go => s.reparent c p i status
  | .exitZombie status, .go => s.exitZombie c p status
  | .zombieExit, .go => some (s.goto c (.panicked .zombieExit))
  | .waitAcquire sel addr, .go => s.acquireWait c (.waitScan sel addr 0 false)
  | .waitScan sel addr i havekids, .go => s.waitScan c p sel addr i havekids
  | .waitVisit sel addr j, .go => s.waitVisit c p sel addr j
  | .waitKilled sel addr, .go => s.waitKilled c p sel addr
  | .waitSleep sel addr, .go => s.waitSleep c p sel addr
  | .getppid, .go => s.getppid c p
  | .getppidLoad, .go => s.getppidLoad c p
  | .getppidPid q, .go => some (s.goto c (.ret (s.proc q).pid))
  | _, _ => none

/-- **One step of the kernel.** The scheduler and `wakeup` run on a processor
with or without a current process, the rest is code of the current one. -/
def step (s : Kernel) (l : Label) : Option Kernel :=
  match (s.cpus l.1).pc, l.2 with
  | k, .intr a =>
    if k.interruptible then some (s.goto l.1 (.wakeup (some (.addr a)) 0 k)) else none
  | .scheduler i found, .go => s.scheduler l.1 i found
  | .schedulerBack j, .go => s.schedulerBack l.1 j
  | .wakeup chan i k, .go => s.wakeup l.1 chan i k
  | k, a => (s.cpus l.1).proc.bind (fun p => s.procStep l.1 p k a)

/-! ## Booting -/

/-- An entry of the table before it is first used: everything zero. -/
def zeroed : Proc where
  lock := none
  state := .unused
  chan := none
  killed := false
  xstate := 0
  pid := 0
  parent := none
  sz := 0
  pagetable := false
  trapframe := none
  context := .forkret
  ofile := fun _ => none
  cwd := none

/-- The first process, as `userinit` leaves it, with the inode `root` as its
directory. -/
def userinit (root : ℕ) : Proc :=
  { zeroed.alloc 1 with
    sz := PGSIZE
    trapframe := some (update (update Trapframe.junk .epc 0) .sp PGSIZE)
    cwd := some root
    state := .runnable }

/-- **The state after booting**: slot 0 holds the first process, and every
processor enters `scheduler`. `init` is the memory `uvmfirst` loaded. -/
def boot (root : ℕ) (init : AddrSpace) : Kernel where
  proc := update (fun _ => zeroed) 0 (userinit root)
  umem := update (fun _ => AddrSpace.empty) 0 init
  cpus := fun _ => { proc := none, pc := .scheduler 0 false, context := .scheduler 0 false }
  waitLock := none
  nextpid := 2
  initproc := 0

end Kernel

end Xv6
