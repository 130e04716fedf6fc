import OsProject.ProcStep

/-!
# What a step can do

`step` follows the source function by function. Here its cases are collected
by *effect*: `Step s c a s'` lists what processor `c` can do to the table, the
processors and `wait_lock`, each with the control point it is done at and with
everything the code tested before. `step_cases` says the list is complete, and
every invariant of the kernel is proved from the list and never from `step`.

The list has two levels. `Work` is what the functions of the source do on
behalf of the current process: a *move* changes only its control point
(`Move`), a *touch* writes one slot without its lock and its context
(`Touch`), `Acquire` and `Release` are the points at which `wait_lock` is
taken and given back, and the rest creates, reaps and puts to sleep. `Step`
adds what can happen at any time: scheduling, switching, waking, interrupts.
-/

namespace Xv6

open Function Option

namespace Kernel

variable {s s' : Kernel} {c : CpuId} {p j : Slot} {a : Act} {k' k : Pc} {i : ℕ}

/-- The sections of process `p` that change only where it is. -/
inductive Move (s : Kernel) (p : Slot) : Pc → Pc → Prop where
  | callAlloc (cr : Creator) : Move s p .user (.allocproc 0 cr)
  | callExit (st : ℤ) (h : p ≠ s.initproc) : Move s p .user (.exitFiles st)
  | initExiting (h : p = s.initproc) : Move s p .user (.panicked .initExiting)
  | callWait (sel : Sel) (addr : ℕ) : Move s p .user (.waitAcquire sel addr)
  | callSignal (sig : Signal) (pid : ℤ) (h : sig = .sigstop → pid ≠ 0) :
      Move s p .user (.signal sig pid 0)
  | refuse : Move s p .user (.ret (-1))
  | callGetppid : Move s p .user .getppid
  | fault : Move s p .user .setkilled
  | signalNext (sig : Signal) (pid : ℤ) (i : ℕ) :
      Move s p (.signal sig pid i) (.signal sig pid (i + 1))
  | signalEnd (sig : Signal) (pid : ℤ) (i : ℕ) : Move s p (.signal sig pid i) (.ret (-1))
  | allocNext (i : ℕ) (cr : Creator) : Move s p (.allocproc i cr) (.allocproc (i + 1) cr)
  | allocEnd (i : ℕ) (cr : Creator) : Move s p (.allocproc i cr) (.ret (-1))
  | spawnFail (np : Slot) : Move s p (.spawnLoad np) (.spawnBad np)
  | reparentNext (j : Slot) (st : ℤ) (h : (s.proc j).parent ≠ some p) :
      Move s p (.reparent j st) (.reparent (j + 1) st)
  | reparentEnd (i : ℕ) (st : ℤ) (h : NPROC ≤ i) :
      Move s p (.reparent i st) (.wakeup ((s.proc p).parent.map .proc) 0 (.exitZombie st))
  | panicZombie : Move s p .zombieExit (.panicked .zombieExit)
  | scanHit (sel : Sel) (addr : ℕ) (j : Slot) (hk : Bool) (h : sel.test p (s.proc j) = true) :
      Move s p (.waitScan sel addr j hk) (.waitVisit sel addr j)
  | scanNext (sel : Sel) (addr : ℕ) (j : Slot) (hk : Bool)
      (h : sel.test p (s.proc j) = false) :
      Move s p (.waitScan sel addr j hk) (.waitScan sel addr (j + 1) hk)
  | scanEnd (sel : Sel) (addr i : ℕ) (h : NPROC ≤ i) :
      Move s p (.waitScan sel addr i true) (.waitKilled sel addr)
  | visitNext (sel : Sel) (addr : ℕ) (j : Slot) (h : (s.proc j).state ≠ .zombie) :
      Move s p (.waitVisit sel addr j) (.waitScan sel addr (j + 1) true)
  | notKilled (sel : Sel) (addr : ℕ) (h : (s.proc p).killed = false) :
      Move s p (.waitKilled sel addr) (.waitSleep sel addr)
  | getppidNull (h : (s.proc p).parent = none) : Move s p .getppid (.ret 0)
  | getppidTest (h : (s.proc p).parent ≠ none) : Move s p .getppid .getppidLoad
  | getppidLoad (q : Slot) (h : (s.proc p).parent = some q) :
      Move s p .getppidLoad (.getppidPid q)
  | getppidPid (q : Slot) : Move s p (.getppidPid q) (.ret (s.proc q).pid)

/-- The sections of process `p` that write one slot, here `j`, and neither its
lock nor its context. -/
inductive Touch (s : Kernel) (p : Slot) : Pc → Slot → Proc → Pc → Prop where
  | signal (sig : Signal) (pid : ℤ) (j : Slot) (hl : (s.proc j).lock = none)
      (h : (s.proc j).pid = pid) :
      Touch s p (.signal sig pid j) j (sig.body (s.proc j)) (.ret 0)
  | setkilled (hl : (s.proc p).lock = none) :
      Touch s p .setkilled p { s.proc p with killed := true } .user
  | sysret (v : ℤ) :
      Touch s p (.ret v) p
        { s.proc p with
          trapframe := (s.proc p).trapframe.map
            (fun tf => update tf .a0 (v % 2 ^ 64).toNat) } .user
  | spawnTrapframe (np : Slot) (img : Image) :
      Touch s p (.spawnTrapframe np img) np
        { s.proc np with
          trapframe := (s.proc p).trapframe.map (fun tf => Proc.spawnFrame tf img)
          sz := img.sz } (.spawnFiles np img)
  | spawnFiles (np : Slot) (img : Image) :
      Touch s p (.spawnFiles np img) np
        { s.proc np with ofile := (s.proc np).dupFiles (s.proc p), cwd := (s.proc p).cwd }
        (.setParent np (s.proc np).pid (.spawn img))
  | spawnBad (np : Slot) (hl : (s.proc np).lock = none) :
      Touch s p (.spawnBad np) np
        ({ s.proc np with pagetable := false, sz := 0 } : Proc).freeproc (.ret (-1))
  | setParent (np : Slot) (pid : ℤ) (src : Source) (hw : s.waitLock = none) :
      Touch s p (.setParent np pid src) np { s.proc np with parent := some p }
        (.setRunnable np pid src)
  | setRunnable (np : Slot) (pid : ℤ) (src : Source) (hl : (s.proc np).lock = none) :
      Touch s p (.setRunnable np pid src) np { s.proc np with state := .runnable } (.ret pid)
  | exitFiles (st : ℤ) :
      Touch s p (.exitFiles st) p { s.proc p with ofile := fun _ => none } (.exitCwd st)
  | exitCwd (st : ℤ) :
      Touch s p (.exitCwd st) p { s.proc p with cwd := none } (.exitAcquire st)
  | reparent (j : Slot) (st : ℤ) (h : (s.proc j).parent = some p) :
      Touch s p (.reparent j st) j { s.proc j with parent := some s.initproc }
        (.wakeup (some (.proc s.initproc)) 0 (.reparent (j + 1) st))

/-- The points at which `exit`, `wait` and `waitpid` acquire `wait_lock`. -/
inductive Acquire : Pc → Pc → Prop where
  | exit (st : ℤ) : Acquire (.exitAcquire st) (.reparent 0 st)
  | wait (sel : Sel) (addr : ℕ) : Acquire (.waitAcquire sel addr) (.waitScan sel addr 0 false)

/-- The points at which `wait` and `waitpid` give up and return -1. -/
inductive Release (s : Kernel) (p : Slot) : Pc → Prop where
  | noKids (sel : Sel) (addr i : ℕ) (h : NPROC ≤ i) : Release s p (.waitScan sel addr i false)
  | killed (sel : Sel) (addr : ℕ) (h : (s.proc p).killed = true) :
      Release s p (.waitKilled sel addr)

/-- Process `p` leaves the processor: its slot becomes `P`, with its lock held
and `k` as the point where it continues, and `wait_lock` becomes `w`. -/
def switchOut (s : Kernel) (c : CpuId) (p : Slot) (P : Proc) (k : Pc) (w : Option CpuId) :
    Kernel :=
  ({ s with waitLock := w }.setProc p { P with lock := some c, context := k }).goto c
    (s.cpus c).context

/-- **A section of the table's own code**, executed by process `p` at `k`,
after which its thread is at `k'`. -/
inductive Work (s : Kernel) (c : CpuId) (a : Act) (p : Slot) : Pc → Pc → Kernel → Prop where
  | move (k k' : Pc) (ha : k ≠ .user → a = .go ∨ a = .fail) (h : Move s p k k') :
      Work s c a p k k' (s.goto c k')
  | touch (k : Pc) (j : Slot) (P : Proc) (k' : Pc) (ha : a = .go) (h : Touch s p k j P k') :
      Work s c a p k k' ((s.setProc j P).goto c k')
  | own (u : Own) : Work s c a p .user .user (s.own c p u)
  | load (np : Slot) (m : AddrSpace) :
      Work s c a p (.spawnLoad np) (.spawnLoad np) ((s.setUmem np m).goto c (.spawnLoad np))
  | loaded (np : Slot) (img : Image) :
      Work s c a p (.spawnLoad np) (.spawnTrapframe np img)
        ((s.setUmem np img.pages).goto c (.spawnTrapframe np img))
  | allocFail (j : Slot) (cr : Creator) (hl : (s.proc j).lock = none)
      (hu : (s.proc j).state = .unused) :
      Work s c a p (.allocproc j cr) (.ret (-1))
        (({ s with nextpid := s.nextpid + 1 }.setProc j
          ((s.proc j).alloc s.nextpid).freeproc).goto c (.ret (-1)))
  | fork (j : Slot) (hl : (s.proc j).lock = none) (hu : (s.proc j).state = .unused) :
      Work s c a p (.allocproc j .fork) (.setParent j s.nextpid .fork)
        ((({ s with nextpid := s.nextpid + 1 }.setProc j
          (((s.proc j).alloc s.nextpid).forkFill (s.proc p))).setUmem j
            ((s.umem p).upTo (s.proc p).sz)).goto c (.setParent j s.nextpid .fork))
  | spawn (j : Slot) (hl : (s.proc j).lock = none) (hu : (s.proc j).state = .unused) :
      Work s c a p (.allocproc j .spawn) (.spawnLoad j)
        ((({ s with nextpid := s.nextpid + 1 }.setProc j
          ((s.proc j).alloc s.nextpid)).setUmem j AddrSpace.empty).goto c (.spawnLoad j))
  | acquire (k k' : Pc) (h : Acquire k k') (hw : s.waitLock = none) :
      Work s c a p k k' ({ s with waitLock := some c }.goto c k')
  | release (k : Pc) (h : Release s p k) : Work s c a p k (.ret (-1)) (s.releaseWait c (-1))
  | copyFail (sel : Sel) (addr : ℕ) (j : Slot) (hz : (s.proc j).state = .zombie)
      (m : AddrSpace) :
      Work s c a p (.waitVisit sel addr j) (.ret (-1)) ((s.setUmem p m).releaseWait c (-1))
  | reap (sel : Sel) (addr : ℕ) (j : Slot) (hl : (s.proc j).lock = none)
      (hz : (s.proc j).state = .zombie) (m : AddrSpace) :
      Work s c a p (.waitVisit sel addr j) (.ret (s.proc j).pid)
        (((s.setUmem p m).setProc j (s.proc j).freeproc).releaseWait c (s.proc j).pid)
  | waitSleep (sel : Sel) (addr : ℕ) (hl : (s.proc p).lock = none) :
      Work s c a p (.waitSleep sel addr) (.sleepRet .wait (.waitScan sel addr 0 false))
        (s.switchOut c p { s.proc p with chan := some (.proc p), state := .sleeping }
          (.sleepRet .wait (.waitScan sel addr 0 false)) none)
  | exitZombie (st : ℤ) (hl : (s.proc p).lock = none) :
      Work s c a p (.exitZombie st) .zombieExit
        (s.switchOut c p { s.proc p with xstate := st, state := .zombie } .zombieExit none)

/-- **A section that the current process of processor `c` executes.** -/
structure Section (s : Kernel) (c : CpuId) (a : Act) (p : Slot) (k k' : Pc) (s' : Kernel) :
    Prop where
  cur : (s.cpus c).proc = some p
  pc : (s.cpus c).pc = k
  work : Work s c a p k k' s'

/-- **What a section of process `p` makes of slot `j`.** -/
inductive Write (s s' : Kernel) (a : Act) (p j : Slot) : Pc → Pc → Prop where
  | same (k k' : Pc) (hP : s'.proc j = s.proc j) : Write s s' a p j k k'
  | touch (k k' : Pc) (P : Proc) (ha : a = .go) (h : Touch s p k j P k') (hP : s'.proc j = P) :
      Write s s' a p j k k'
  | own (u : Own) (hj : j = p)
      (hP : s'.proc j = { s.proc j with
        sz := u.sz, trapframe := some u.trapframe, ofile := u.ofile, cwd := some u.cwd }) :
      Write s s' a p j .user .user
  | allocFail (cr : Creator) (hu : (s.proc j).state = .unused)
      (hP : s'.proc j = ((s.proc j).alloc s.nextpid).freeproc) :
      Write s s' a p j (.allocproc j cr) (.ret (-1))
  | fork (hu : (s.proc j).state = .unused) (hn : s'.nextpid = s.nextpid + 1)
      (hP : s'.proc j = ((s.proc j).alloc s.nextpid).forkFill (s.proc p)) :
      Write s s' a p j (.allocproc j .fork) (.setParent j s.nextpid .fork)
  | spawn (hu : (s.proc j).state = .unused) (hn : s'.nextpid = s.nextpid + 1)
      (hP : s'.proc j = (s.proc j).alloc s.nextpid) :
      Write s s' a p j (.allocproc j .spawn) (.spawnLoad j)
  | reap (sel : Sel) (addr : ℕ) (hz : (s.proc j).state = .zombie)
      (hP : s'.proc j = (s.proc j).freeproc) :
      Write s s' a p j (.waitVisit sel addr j) (.ret (s.proc j).pid)
  | waitSleep (sel : Sel) (addr : ℕ) (k' : Pc) (c : CpuId) (hj : j = p)
      (hP : s'.proc j = { s.proc j with
        chan := some (.proc j), state := .sleeping, lock := some c, context := k' }) :
      Write s s' a p j (.waitSleep sel addr) k'
  | exitZombie (st : ℤ) (c : CpuId) (hj : j = p)
      (hP : s'.proc j = { s.proc j with
        xstate := st, state := .zombie, lock := some c, context := .zombieExit }) :
      Write s s' a p j (.exitZombie st) .zombieExit

/-- **What processor `c` can do**, with the act `a` where it matters. -/
inductive Step (s : Kernel) (c : CpuId) (a : Act) : Kernel → Prop where
  | schedule (i i' : ℕ) (f f' : Bool) (hpc : (s.cpus c).pc = .scheduler i f) :
      Step s c a (s.goto c (.scheduler i' f'))
  | dispatch (j : Slot) (f : Bool) (hpc : (s.cpus c).pc = .scheduler j f)
      (hl : (s.proc j).lock = none) (hr : (s.proc j).state = .runnable) :
      Step s c a ((s.setProc j { s.proc j with state := .running, lock := some c }).setCpu c
        { proc := some j, pc := (s.proc j).context, context := .schedulerBack j })
  | back (j : Slot) (hpc : (s.cpus c).pc = .schedulerBack j) :
      Step s c a ((s.setProc j { s.proc j with lock := none }).setCpu c
        { s.cpus c with proc := none, pc := .scheduler (j + 1) true })
  | intr (x : ℕ) (hk : (s.cpus c).pc.interruptible = true) :
      Step s c a (s.goto c (.wakeup (some (.addr x)) 0 (s.cpus c).pc))
  | wakeNext (ch : Option Chan) (j : Slot) (k : Pc) (hpc : (s.cpus c).pc = .wakeup ch j k)
      (h : (s.cpus c).proc = some j ∨ ¬ ((s.proc j).state = .sleeping ∧ (s.proc j).chan = ch)) :
      Step s c a (s.goto c (.wakeup ch (j + 1) k))
  | wakeOne (ch : Option Chan) (j : Slot) (k : Pc) (hpc : (s.cpus c).pc = .wakeup ch j k)
      (hl : (s.proc j).lock = none) (hs : (s.proc j).state = .sleeping)
      (hch : (s.proc j).chan = ch) :
      Step s c a ((s.setProc j { s.proc j with state := .runnable }).goto c (.wakeup ch (j + 1) k))
  | wakeEnd (ch : Option Chan) (i : ℕ) (k : Pc) (hpc : (s.cpus c).pc = .wakeup ch i k)
      (hi : NPROC ≤ i) : Step s c a (s.goto c k)
  | yield (p : Slot) (hcur : (s.cpus c).proc = some p)
      (hk : (s.cpus c).pc.interruptible = true) (hl : (s.proc p).lock = none) :
      Step s c a (s.switchOut c p { s.proc p with state := .runnable }
        (.yieldRet (s.cpus c).pc) s.waitLock)
  | block (p : Slot) (x : ℕ) (hcur : (s.cpus c).proc = some p)
      (hk : (s.cpus c).pc.canBlock = true) (hl : (s.proc p).lock = none) :
      Step s c a (s.switchOut c p { s.proc p with chan := some (.addr x), state := .sleeping }
        (.sleepRet .other (s.cpus c).pc) s.waitLock)
  | resume (p : Slot) (k₀ k : Pc) (hcur : (s.cpus c).proc = some p)
      (hpc : (s.cpus c).pc = k₀) (hk : k₀ = .yieldRet k ∨ k₀ = .forkret ∧ k = .user) :
      Step s c a ((s.setProc p { s.proc p with lock := none }).goto c k)
  | sleepRet (p : Slot) (lk : Lk) (k : Pc) (hcur : (s.cpus c).proc = some p)
      (hpc : (s.cpus c).pc = .sleepRet lk k) :
      Step s c a ((s.setProc p { s.proc p with chan := none, lock := none }).goto c
        (if lk = .wait then .sleepAcquire k else k))
  | reacquire (p : Slot) (k : Pc) (hcur : (s.cpus c).proc = some p)
      (hpc : (s.cpus c).pc = .sleepAcquire k) (hw : s.waitLock = none) :
      Step s c a ({ s with waitLock := some c }.goto c k)
  | work (s' : Kernel) (p : Slot) (k k' : Pc) (hcur : (s.cpus c).proc = some p)
      (hpc : (s.cpus c).pc = k) (h : Work s c a p k k' s') : Step s c a s'

/-- **A section writes one slot at most.** -/
theorem Work.write (h : Work s c a p k k' s') (j : Slot) : Write s s' a p j k k' := by
  have hset : ∀ {i : Slot} {P : Proc}, s'.proc = update s.proc i P →
      (s'.proc i = P → Write s s' a p i k k') → Write s s' a p j k k' := by
    intro i P he hw
    by_cases hi : j = i
    · subst hi
      exact hw (by rw [he, update_self])
    · exact .same _ _ (by rw [he, update_of_ne hi])
  cases h with
  | touch k i P k' ha h => exact hset rfl (.touch k k' P ha h)
  | own u => exact hset rfl (.own u rfl)
  | allocFail i cr hl hu => exact hset rfl (.allocFail cr hu)
  | fork i hl hu => exact hset rfl (.fork hu rfl)
  | spawn i hl hu => exact hset rfl (.spawn hu rfl)
  | reap sel addr i hl hz => exact hset rfl (.reap sel addr hz)
  | waitSleep sel addr => exact hset rfl (.waitSleep sel addr _ c rfl)
  | exitZombie st => exact hset rfl (.exitZombie st c rfl)
  | _ => exact .same _ _ rfl

/-! ## The list is complete -/

theorem underLock_eq_some {f : Proc → Option Kernel} :
    s.underLock j f = some s' ↔ (s.proc j).lock = none ∧ f (s.proc j) = some s' := by
  unfold underLock
  split <;> simp_all

theorem forSlot_eq_some {body : Slot → Option Kernel} {done : Kernel} :
    forSlot i body done = some s' ↔
      (∃ j : Slot, i = j ∧ body j = some s') ∨ NPROC ≤ i ∧ done = s' := by
  unfold forSlot
  split
  · next h =>
    constructor
    · intro hb
      exact .inl ⟨⟨i, h⟩, rfl, hb⟩
    · rintro (⟨j, rfl, hb⟩ | ⟨hi, -⟩)
      · exact hb
      · omega
  · next h =>
    constructor
    · intro hb
      exact .inr ⟨by omega, some.inj hb⟩
    · rintro (⟨j, rfl, -⟩ | ⟨-, rfl⟩)
      · exact absurd j.isLt h
      · rfl

/-- `sched` is called with a state other than `RUNNING`, so it switches. -/
theorem sched_setProc (s : Kernel) (c : CpuId) (p : Slot) (P : Proc) (k : Pc)
    (h : P.state ≠ .running) :
    (s.setProc p P).sched c p k = (s.setProc p { P with context := k }).goto c
      (s.cpus c).context := by
  unfold sched
  rw [if_neg (by simpa using h)]
  unfold goto setCpu setProc
  simp

/-- The sections that write one slot, as `Touch` lists them. -/
theorem touch_cases {P : Proc} (hcur : (s.cpus c).proc = some p) (hpc : (s.cpus c).pc = k)
    (ha : a = .go) (ht : Touch s p k j P k') (h : some ((s.setProc j P).goto c k') = some s') :
    Step s c a s' := by
  cases h
  exact .work _ p k k' hcur hpc (.touch k j P k' ha ht)

/-- The sections that only move, as `Move` lists them. -/
theorem move_cases (hcur : (s.cpus c).proc = some p) (hpc : (s.cpus c).pc = k)
    (ha : k ≠ .user → a = .go ∨ a = .fail) (hm : Move s p k k') (h : some (s.goto c k') = some s') :
    Step s c a s' := by
  cases h
  exact .work _ p k k' hcur hpc (.move k k' ha hm)

theorem scheduler_cases {f : Bool} (hpc : (s.cpus c).pc = .scheduler i f)
    (h : s.scheduler c i f = some s') : Step s c a s' := by
  rcases forSlot_eq_some.mp h with ⟨j, rfl, hb⟩ | ⟨-, rfl⟩
  · obtain ⟨hl, hb⟩ := underLock_eq_some.mp hb
    split at hb
    · next hr =>
      cases hb
      exact .dispatch j f hpc hl hr
    · cases hb
      exact .schedule _ _ f f hpc
  · exact .schedule i 0 f false hpc

theorem wakeup_cases {ch : Option Chan} (hpc : (s.cpus c).pc = .wakeup ch i k)
    (h : s.wakeup c ch i k = some s') : Step s c a s' := by
  rcases forSlot_eq_some.mp h with ⟨j, rfl, hb⟩ | ⟨hi, rfl⟩
  · split at hb
    · next hme =>
      cases hb
      exact .wakeNext ch j k hpc (.inl hme)
    · obtain ⟨hl, hb⟩ := underLock_eq_some.mp hb
      split at hb
      · next hs =>
        cases hb
        exact .wakeOne ch j k hpc hl hs.1 hs.2
      · next hs =>
        cases hb
        exact .wakeNext ch j k hpc (.inr hs)
  · exact .wakeEnd ch i k hpc hi

section

variable (hcur : (s.cpus c).proc = some p)
include hcur

theorem yield_cases (hk : (s.cpus c).pc.interruptible = true)
    (h : s.yield c p (s.cpus c).pc = some s') : Step s c a s' := by
  obtain ⟨hl, hb⟩ := underLock_eq_some.mp h
  rw [sched_setProc _ _ _ _ _ (by simp), some.injEq] at hb
  exact hb ▸ Step.yield p hcur hk hl

theorem block_cases {x : ℕ} (hk : (s.cpus c).pc.canBlock = true)
    (h : s.sleep c p (some (.addr x)) .other (s.cpus c).pc = some s') : Step s c a s' := by
  obtain ⟨hl, hb⟩ := underLock_eq_some.mp h
  rw [sched_setProc _ _ _ _ _ (by simp), some.injEq] at hb
  exact hb ▸ Step.block p x hcur hk hl

variable {addr i : ℕ} {sel : Sel} {st : ℤ} {k : Pc}

theorem waitSleep_cases (hpc : (s.cpus c).pc = .waitSleep sel addr)
    (h : s.waitSleep c p sel addr = some s') : Step s c a s' := by
  unfold waitSleep sleep at h
  obtain ⟨hl, hb⟩ := underLock_eq_some.mp h
  rw [sched_setProc _ _ _ _ _ (by simp), some.injEq] at hb
  exact hb ▸ Step.work _ p _ _ hcur hpc (.waitSleep sel addr hl)

theorem exitZombie_cases (hpc : (s.cpus c).pc = .exitZombie st)
    (h : s.exitZombie c p st = some s') :
    Step s c a s' := by
  obtain ⟨hl, hb⟩ := underLock_eq_some.mp h
  rw [sched_setProc _ _ _ _ _ (by simp), some.injEq] at hb
  exact hb ▸ Step.work _ p _ _ hcur hpc (.exitZombie st hl)

theorem syscall_cases (hpc : (s.cpus c).pc = .user) (sc : Syscall) :
    Step s c a (s.syscall c p sc) := by
  have hm : ∀ k', Move s p .user k' → Step s c a (s.goto c k') :=
    fun k' h => Step.work _ p .user k' hcur hpc (.move _ _ (absurd rfl) h)
  cases sc with
  | fork | spawn => exact hm _ (.callAlloc _)
  | exit st =>
    show Step s c a (s.exit c p st)
    unfold exit
    split
    · next hi => exact hm _ (.initExiting hi)
    · next hi => exact hm _ (.callExit st hi)
  | wait | waitpid => exact hm _ (.callWait _ _)
  | kill => exact hm _ (.callSignal _ _ (by simp))
  | sigstop =>
    simp only [syscall]
    split
    · exact hm _ Move.refuse
    · next hp => exact hm _ (.callSignal _ _ (fun _ => hp))
  | sigcont =>
    simp only [syscall]
    split
    · exact hm _ Move.refuse
    · exact hm _ (.callSignal _ _ (by simp))
  | getppid => exact hm _ Move.callGetppid

theorem signal_cases {sig : Signal} {pid : ℤ} (hpc : (s.cpus c).pc = .signal sig pid i)
    (ha : a = .go) (h : s.signal c sig pid i = some s') : Step s c a s' := by
  rcases forSlot_eq_some.mp h with ⟨j, rfl, hb⟩ | ⟨-, rfl⟩
  · obtain ⟨hl, hb⟩ := underLock_eq_some.mp hb
    split at hb
    · next hp =>
      cases hb
      exact .work _ p _ _ hcur hpc (.touch _ j _ _ ha (.signal sig pid j hl hp))
    · exact move_cases hcur hpc (fun _ => .inl ha) (.signalNext sig pid j) hb
  · exact move_cases hcur hpc (fun _ => .inl ha) (.signalEnd sig pid i) rfl

theorem allocproc_cases {cr : Creator} {ok : Bool} (hpc : (s.cpus c).pc = .allocproc i cr)
    (ha : a = .go ∨ a = .fail) (h : s.allocproc c p i cr ok = some s') : Step s c a s' := by
  rcases forSlot_eq_some.mp h with ⟨j, rfl, hb⟩ | ⟨-, rfl⟩
  · obtain ⟨hl, hb⟩ := underLock_eq_some.mp hb
    split at hb
    · next hu =>
      split at hb
      · cases ok with
        | false =>
          cases hb
          exact .work _ p _ _ hcur hpc (.allocFail j cr hl hu)
        | true =>
          cases cr with
          | fork =>
            cases hb
            exact .work _ p _ _ hcur hpc (.fork j hl hu)
          | spawn =>
            cases hb
            exact .work _ p _ _ hcur hpc (.spawn j hl hu)
      · cases hb
    · exact move_cases hcur hpc (fun _ => ha) (.allocNext j cr) hb
  · exact move_cases hcur hpc (fun _ => ha) (.allocEnd i cr) rfl

theorem reparent_cases (hpc : (s.cpus c).pc = .reparent i st) (ha : a = .go)
    (h : s.reparent c p i st = some s') : Step s c a s' := by
  rcases forSlot_eq_some.mp h with ⟨j, rfl, hb⟩ | ⟨hi, rfl⟩
  · split at hb
    · next hp =>
      cases hb
      exact .work _ p _ _ hcur hpc (.touch _ j _ _ ha (.reparent j st hp))
    · next hp =>
      exact move_cases hcur hpc (fun _ => .inl ha) (.reparentNext j st hp) hb
  · exact move_cases hcur hpc (fun _ => .inl ha) (.reparentEnd i st hi) rfl

theorem waitScan_cases {hk : Bool} (hpc : (s.cpus c).pc = .waitScan sel addr i hk) (ha : a = .go)
    (h : s.waitScan c p sel addr i hk = some s') : Step s c a s' := by
  rcases forSlot_eq_some.mp h with ⟨j, rfl, hb⟩ | ⟨hi, hb⟩
  · split at hb
    · next ht =>
      exact move_cases hcur hpc (fun _ => .inl ha) (.scanHit sel addr j hk ht) hb
    · next ht =>
      exact move_cases hcur hpc (fun _ => .inl ha)
        (.scanNext sel addr j hk (by simpa using ht)) hb
  · cases hk with
    | false =>
      cases hb
      exact .work _ p _ _ hcur hpc (.release _ (.noKids sel addr i hi))
    | true =>
      exact move_cases hcur hpc (fun _ => .inl ha) (.scanEnd sel addr i hi) (congrArg some hb)

theorem waitVisit_cases (hpc : (s.cpus c).pc = .waitVisit sel addr j) (ha : a = .go)
    (h : s.waitVisit c p sel addr j = some s') : Step s c a s' := by
  obtain ⟨hl, hb⟩ := underLock_eq_some.mp h
  split at hb
  · next hz =>
    split at hb
    · cases hb
      have hr : Work s c a p _ _ _ := Work.reap sel addr j hl hz (s.umem p)
      unfold setUmem at hr
      rw [update_eq_self] at hr
      exact .work _ p _ _ hcur hpc hr
    · dsimp only at hb
      split at hb
      · cases hb
        exact .work _ p _ _ hcur hpc (.reap sel addr j hl hz _)
      · cases hb
        exact .work _ p _ _ hcur hpc (.copyFail sel addr j hz _)
  · next hz =>
    exact move_cases hcur hpc (fun _ => .inl ha) (.visitNext sel addr j hz) hb

theorem waitKilled_cases (hpc : (s.cpus c).pc = .waitKilled sel addr) (ha : a = .go)
    (h : s.waitKilled c p sel addr = some s') : Step s c a s' := by
  obtain ⟨-, hb⟩ := underLock_eq_some.mp h
  split at hb
  · next hk =>
    cases hb
    exact .work _ p _ _ hcur hpc (.release _ (.killed sel addr hk))
  · next hk =>
    exact move_cases hcur hpc (fun _ => .inl ha) (.notKilled sel addr (by simpa using hk)) hb

theorem acquireWait_cases (hpc : (s.cpus c).pc = k) (ha : Acquire k k')
    (h : s.acquireWait c k' = some s') : Step s c a s' := by
  unfold acquireWait at h
  split_ifs at h with hw
  cases h
  exact .work _ p k k' hcur hpc (.acquire k k' ha hw)

/-- **Every step of a process is on the list.** -/
theorem procStep_cases (hpc : (s.cpus c).pc = k) (h : s.procStep c p k a = some s') :
    Step s c a s' := by
  unfold procStep at h
  split at h
  · split_ifs at h with hk
    exact yield_cases hcur (hpc ▸ hk) (hpc ▸ h)
  · split_ifs at h with hk
    exact block_cases hcur (hpc ▸ hk) (hpc ▸ h)
  · cases h
    exact syscall_cases hcur hpc _
  · cases h
    exact .work _ p _ _ hcur hpc (.own _)
  · exact move_cases hcur hpc (absurd rfl) .fault h
  · exact touch_cases hcur hpc rfl (.sysret _) h
  · cases h
    exact .resume p _ _ hcur hpc (.inr ⟨rfl, rfl⟩)
  · cases h
    exact .resume p _ _ hcur hpc (.inl rfl)
  · cases h
    exact .sleepRet p _ _ hcur hpc
  · unfold acquireWait at h
    split_ifs at h with hw
    cases h
    exact .reacquire p _ hcur hpc hw
  · exact signal_cases hcur hpc rfl h
  · obtain ⟨hl, hb⟩ := underLock_eq_some.mp h
    exact touch_cases hcur hpc rfl (.setkilled hl) hb
  · exact allocproc_cases hcur hpc (.inl rfl) h
  · exact allocproc_cases hcur hpc (.inr rfl) h
  · cases h
    exact .work _ p _ _ hcur hpc (.load _ _)
  · cases h
    exact .work _ p _ _ hcur hpc (.loaded _ _)
  · exact move_cases hcur hpc (fun _ => .inr rfl) (.spawnFail _) h
  · exact touch_cases hcur hpc rfl (.spawnTrapframe _ _) h
  · exact touch_cases hcur hpc rfl (.spawnFiles _ _) h
  · obtain ⟨hl, hb⟩ := underLock_eq_some.mp h
    exact touch_cases hcur hpc rfl (.spawnBad _ hl) hb
  · unfold setParent at h
    split_ifs at h with hw
    exact touch_cases hcur hpc rfl (.setParent _ _ _ hw) h
  · obtain ⟨hl, hb⟩ := underLock_eq_some.mp h
    exact touch_cases hcur hpc rfl (.setRunnable _ _ _ hl) hb
  · exact touch_cases hcur hpc rfl (.exitFiles _) h
  · exact touch_cases hcur hpc rfl (.exitCwd _) h
  · exact acquireWait_cases hcur hpc (.exit _) h
  · exact reparent_cases hcur hpc rfl h
  · exact exitZombie_cases hcur hpc h
  · exact move_cases hcur hpc (fun _ => .inl rfl) .panicZombie h
  · exact acquireWait_cases hcur hpc (.wait _ _) h
  · exact waitScan_cases hcur hpc rfl h
  · exact waitVisit_cases hcur hpc rfl h
  · exact waitKilled_cases hcur hpc rfl h
  · exact waitSleep_cases hcur hpc h
  · unfold getppid at h
    split at h
    · next hp => exact move_cases hcur hpc (fun _ => .inl rfl) (.getppidNull hp) h
    · next hp => exact move_cases hcur hpc (fun _ => .inl rfl) (.getppidTest hp) h
  · obtain ⟨q, hq, hb⟩ := map_eq_some_iff.mp h
    exact move_cases hcur hpc (fun _ => .inl rfl) (.getppidLoad q hq) (congrArg some hb)
  · exact move_cases hcur hpc (fun _ => .inl rfl) (.getppidPid _) h
  · cases h

end

/-- **Every step is on the list.** -/
theorem step_cases {l : Label} (h : step s l = some s') : Step s l.1 l.2 s' := by
  unfold step at h
  split at h
  · split_ifs at h with hk
    cases h
    exact .intr _ hk
  · next hpc _ => exact scheduler_cases hpc h
  · next hpc _ =>
    cases h
    exact .back _ hpc
  · next hpc _ => exact wakeup_cases hpc h
  · obtain ⟨_, hp, hb⟩ := bind_eq_some_iff.mp h
    exact procStep_cases hp rfl hb

end Kernel

end Xv6
