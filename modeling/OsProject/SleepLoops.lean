import OsProject.Console
import OsProject.Pipe
import OsProject.ProcTable

/-!
# Loops that sleep, and `kill`

Seven system calls wait in a loop: `wait`, `waitpid`, `sleep`, `usleep`, the two ends of a
pipe and the console. A round of such a loop tests whether there is something to wait for,
asks `killed(p)` whether it should give up, and sleeps. The test is made under a lock that
is held until the process sleeps, so that no wakeup is lost. `kill` does not take that
lock. It sets the flag under `p->lock`, and makes the process runnable if it finds it
asleep.

The model has one process, the victim, in one of the loops, and everything else as what it
can do to the victim: change what the loops read, call `wakeup`, schedule the victim, kill
it. The locks of the loops are not part of the state, they only exclude some of the orders.

A kill that comes between the call of `killed` and the call of `sleep` finds a process that
is running, and the process goes to sleep nevertheless. And `usleep` never asks. These are
the only ways to lose a kill (`killed_not_asleep`).

`usleep` is wrong in another way too. Its variable `ticks` hides the tick counter of the
kernel: it compares the duration with itself, and sleeps on the address of a variable that
no interrupt handler knows. So nothing ever ends the call (`usleep_stays`, `usleep_never`).
-/

namespace Xv6.SleepLoops

/-! ## The code -/

/-- Another process, as far as `wait` and `waitpid` look at it. -/
structure Kid where
  /-- Whether its parent is the victim. -/
  mine : Bool
  pid : ℤ
  zombie : Bool

/-- What the loops read: the process table, the tick counter, a pipe and the console. -/
structure Shared where
  kids : List Kid
  ticks : BitVec 32
  pipe : Pipes.Pipe
  cons : Console.Cons

/-- The system calls, with their arguments. -/
inductive Request
  | wait (addr : ℕ)
  | waitpid (pid : ℤ) (addr : ℕ)
  | sleep (n : BitVec 32)
  | usleep (microseconds : BitVec 32)
  | piperead (n : ℤ)
  | pipewrite (n : ℤ)
  | consoleread (n : ℤ)

/-- The loops, with their variables. -/
inductive Loop
  | wait (addr : ℕ)
  | waitpid (pid : ℤ) (addr : ℕ)
  | sleep (n ticks0 : BitVec 32)
  | usleep (microseconds ticks start_ticks : BitVec 32)
  | piperead (n : ℤ)
  | pipewrite (n : ℤ) (i : ℕ)
  | consoleread (target n : ℤ)

/-- What they sleep on: the victim's slot, the tick counter, the variable `ticks` of
`sys_usleep`, and the counters of the pipe and the console. -/
inductive Chan
  | proc | ticks | usleepTicks | nread | nwrite | consR
  deriving DecidableEq

/-- Where the victim is. -/
inductive Pc
  | user
  /-- At the test of the loop. -/
  | head (c : Loop)
  /-- In the second loop of `piperead`. -/
  | copy (n : ℤ) (i : ℕ)
  /-- About to call `killed`. -/
  | killed (c : Loop)
  /-- About to call `sleep`. -/
  | sleep (c : Loop)
  /-- In `sleep`, after `sched`. -/
  | asleep (c : Loop)
  /-- At the end of `usertrap`, with the result of the system call if there was one. -/
  | leave (r : Option ℤ)
  | exit

/-- The victim: the fields of its slot that the loops and `kill` use, and where it is. -/
structure State where
  shared : Shared
  state : ProcState
  chan : Option Chan
  killed : Bool
  pc : Pc

/-- `microseconds / 1000`, as a `uint`. -/
def usleepTicks (microseconds : BitVec 32) : BitVec 32 :=
  BitVec.ofInt 32 (microseconds.toInt.tdiv 1000)

/-- A system call up to its loop. -/
def start (sh : Shared) : Request → Pc
  | .wait addr => .head (.wait addr)
  | .waitpid pid addr => .head (.waitpid pid addr)
  | .sleep n => .head (.sleep (if n.toInt < 0 then 0 else n) sh.ticks)
  | .usleep microseconds =>
    if microseconds.toInt < 0 then .leave (some (-1))
    else if microseconds.toInt < 1000 then .leave (some 0)
    else .head (.usleep microseconds (usleepTicks microseconds) (usleepTicks microseconds))
  | .piperead n => .head (.piperead n)
  | .pipewrite n => .head (.pipewrite n 0)
  | .consoleread n => .head (.consoleread n n)

/-- The scan that `wait` and `waitpid` share, over the processes that `sel` selects. -/
def scan (sh : Shared) (c : Loop) (sel : Kid → Bool) (addr : ℕ) (ok : Bool) : Shared × Pc :=
  match sh.kids.find? (fun pp => sel pp && pp.zombie) with
  | some pp =>
    if addr ≠ 0 ∧ ok = false then (sh, .leave (some (-1)))
    else ({ sh with kids := sh.kids.eraseP (fun pp => sel pp && pp.zombie) }, .leave (some pp.pid))
  | none => if sh.kids.any sel then (sh, .killed c) else (sh, .leave (some (-1)))

/-- `consoleread`, once there is something to read. -/
def take (sh : Shared) (target n : ℤ) (ok : Bool) : Shared × Pc :=
  let c := sh.cons.buf (sh.cons.r.toNat % Console.INPUT_BUF_SIZE)
  let sh' := { sh with cons := { sh.cons with r := sh.cons.r + 1 } }
  if c = Console.ctrlD then
    (if n < target then sh else sh', .leave (some (target - n)))
  else if ok = false then (sh', .leave (some (target - n)))
  else if c = Console.newline then (sh', .leave (some (target - (n - 1))))
  else (sh', .head (.consoleread target (n - 1)))

/-- The test of a loop. `ok` is whether user memory can be accessed. -/
def head (sh : Shared) (ok : Bool) : Loop → Shared × Pc
  | .wait addr => scan sh (.wait addr) Kid.mine addr ok
  | .waitpid pid addr => scan sh (.waitpid pid addr) (fun pp => decide (pp.pid = pid)) addr ok
  | .sleep n ticks0 =>
    (sh, if sh.ticks - ticks0 < n then .killed (.sleep n ticks0) else .leave (some 0))
  | .usleep microseconds ticks start_ticks =>
    -- `ticks` is the variable of `sys_usleep`
    (sh, if 0 < ticks ∧ ticks - start_ticks < usleepTicks microseconds then
        .sleep (.usleep microseconds ticks start_ticks) else .leave (some 0))
  | .piperead n =>
    (sh, if sh.pipe.nread = sh.pipe.nwrite ∧ sh.pipe.writeopen = true then .killed (.piperead n)
      else .copy n 0)
  | .pipewrite n i =>
    (sh, if i < n then
        if sh.pipe.readopen = false then .leave (some (-1)) else .killed (.pipewrite n i)
      else .leave (some i))
  | .consoleread target n =>
    if 0 < n then
      if sh.cons.r = sh.cons.w then (sh, .killed (.consoleread target n)) else take sh target n ok
    else (sh, .leave (some (target - n)))

/-- What follows if the process has not been killed. `b` is what `copyin` finds. -/
def notKilled (sh : Shared) (b : Option UInt8) : Loop → Shared × Pc
  | .pipewrite n i =>
    if sh.pipe.nwrite = sh.pipe.nread + 512 then (sh, .sleep (.pipewrite n i))
    else
      match b with
      | none => (sh, .leave (some i))
      | some ch =>
        ({ sh with pipe := { sh.pipe with
            data := Function.update sh.pipe.data (sh.pipe.nwrite.toNat % Pipes.PIPESIZE) ch
            nwrite := sh.pipe.nwrite + 1 } }, .head (.pipewrite n (i + 1)))
  | c => (sh, .sleep c)

/-- A round of the second loop of `piperead`. -/
def copy (sh : Shared) (ok : Bool) (n : ℤ) (i : ℕ) : Shared × Pc :=
  if i < n then
    if sh.pipe.nread = sh.pipe.nwrite then (sh, .leave (some i))
    else
      ({ sh with pipe := { sh.pipe with nread := sh.pipe.nread + 1 } },
        if ok then .copy n (i + 1) else .leave (some i))
  else (sh, .leave (some i))

/-- The channel of a loop. -/
def Loop.chan : Loop → Chan
  | .wait _ | .waitpid _ _ => .proc
  | .sleep _ _ => .ticks
  | .usleep _ _ _ => .usleepTicks
  | .piperead _ => .nread
  | .pipewrite _ _ => .nwrite
  | .consoleread _ _ => .consR

namespace State

/-- The victim goes on. -/
def goto (s : State) (x : Shared × Pc) : State := { s with shared := x.1, pc := x.2 }

/-- The next section of the victim's code. -/
def go (s : State) (b : Option UInt8) : Option State :=
  match s.pc with
  | .user => none
  | .head c => some (s.goto (head s.shared b.isSome c))
  | .copy n i => some (s.goto (copy s.shared b.isSome n i))
  | .killed c =>
    if s.killed then some { s with pc := .leave (some (-1)) }
    else some (s.goto (notKilled s.shared b c))
  | .sleep c => some { s with state := .sleeping, chan := some c.chan, pc := .asleep c }
  | .asleep c => some { s with chan := none, pc := .head c }
  | .leave _ => some { s with pc := if s.killed then .exit else .user }
  | .exit => some { s with state := .zombie }

/-- The section of `wakeup(chan)` at the victim's slot. -/
def wakeup (s : State) (chan : Chan) : State :=
  if s.state = .sleeping ∧ s.chan = some chan then { s with state := .runnable } else s

/-- The section of `kill` at the victim's slot. -/
def kill (s : State) : State :=
  { s with killed := true, state := if s.state = .sleeping then .runnable else s.state }

end State

/-- What happens next. -/
inductive Label
  /-- The victim makes a system call. -/
  | call (rq : Request)
  /-- It causes an exception in user mode. -/
  | fault
  /-- It executes a section; `copyin` finds the byte, or user memory cannot be accessed. -/
  | go (b : Option UInt8)
  /-- It gives up the processor at a clock interrupt. -/
  | yield
  /-- The scheduler picks it. -/
  | dispatch
  | kill
  | wakeup (chan : Chan)
  /-- The section of `clockintr` under `tickslock`. -/
  | clockintr
  /-- The others change what the loops read. -/
  | others (sh : Shared)

/-- One step. Nobody calls `wakeup` on the variable of `sys_usleep`. -/
def step (s : State) : Label → Option State
  | .call rq =>
    if s.state = .running then
      match s.pc with
      | .user => some { s with pc := if s.killed then .exit else start s.shared rq }
      | _ => none
    else none
  | .fault =>
    if s.state = .running then
      match s.pc with
      | .user => some { s with killed := true, pc := .leave none }
      | _ => none
    else none
  | .go b => if s.state = .running then s.go b else none
  | .yield =>
    if s.state = .running then
      match s.pc with
      | .user | .leave _ => some { s with state := .runnable }
      | _ => none
    else none
  | .dispatch => if s.state = .runnable then some { s with state := .running } else none
  | .kill => some s.kill
  | .wakeup chan => if chan = .usleepTicks then none else some (s.wakeup chan)
  | .clockintr =>
    some ({ s with shared := { s.shared with ticks := s.shared.ticks + 1 } }.wakeup .ticks)
  | .others sh => some { s with shared := sh }

/-- The victim in user mode. -/
def init (sh : Shared) : State where
  shared := sh
  state := .running
  chan := none
  killed := false
  pc := .user

/-! ## Kills -/

/-- The victim sleeps in one of the loops, although it has been killed. -/
def LeftAsleep (s : State) : Prop :=
  s.killed = true ∧ s.state = .sleeping ∧ ∃ c, s.pc = .asleep c

/-- The loop of `sys_usleep`. -/
def Loop.isUsleep : Loop → Bool
  | .usleep _ _ _ => true
  | _ => false

/-- The places at which a kill is lost: between `killed` and `sleep`, and anywhere in
`sys_usleep`. -/
def Pc.losesKill : Pc → Bool
  | .sleep _ => true
  | .head c | .killed c | .asleep c => c.isUsleep
  | _ => false

/-- The step does not kill the victim at such a place. -/
def Timely (s : State) : Label → Prop
  | .kill => s.pc.losesKill = false
  | _ => True

instance (s : State) : (l : Label) → Decidable (Timely s l)
  | .kill => inferInstanceAs (Decidable (_ = false))
  | .call _ | .fault | .go _ | .yield | .dispatch | .wakeup _ | .clockintr | .others _ =>
    isTrue trivial

variable {s s' : State} {l : Label} {sh : Shared} {c : Loop} {b : Option UInt8} {ok : Bool}

/-- The test of a loop that calls `killed` does not lead past that call. -/
theorem losesKill_head (h : c.isUsleep = false) : (head sh ok c).2.losesKill = false := by
  cases c with
  | usleep => cases h
  | wait | waitpid =>
    unfold head scan
    dsimp only
    split
    · split <;> rfl
    · split <;> rfl
  | sleep | piperead =>
    unfold head
    dsimp only
    split <;> rfl
  | pipewrite =>
    unfold head
    dsimp only
    split
    · split <;> rfl
    · rfl
  | consoleread =>
    unfold head take
    dsimp only
    split
    · split
      · rfl
      · repeat' first | split | rfl
    · rfl

theorem losesKill_copy {n : ℤ} {i : ℕ} : (copy sh ok n i).2.losesKill = false := by
  unfold copy
  split
  · split
    · rfl
    · dsimp only
      split <;> rfl
  · rfl

/-- A victim that has been killed is not asleep, and not where it could miss that. -/
def Noticed (s : State) : Prop :=
  s.killed = true → s.state ≠ .sleeping ∧ s.pc.losesKill = false

/-- A section of the victim. -/
theorem Noticed.go (h : Noticed s) (hgo : s.go b = some s') : Noticed s' := by
  unfold State.go at hgo
  split at hgo
  · cases hgo
  · next c hpc =>
    cases hgo
    intro hk
    obtain ⟨hs, hl⟩ := h hk
    rw [hpc] at hl
    exact ⟨hs, losesKill_head hl⟩
  · cases hgo
    exact fun hk => ⟨(h hk).1, losesKill_copy⟩
  · next c hpc =>
    split at hgo
    · cases hgo
      exact fun hk => ⟨(h hk).1, rfl⟩
    · next hk =>
      cases hgo
      exact fun hk' => absurd hk' hk
  · next c hpc =>
    cases hgo
    intro hk
    have hl := (h hk).2
    rw [hpc] at hl
    cases hl
  · next c hpc =>
    cases hgo
    intro hk
    obtain ⟨hs, hl⟩ := h hk
    rw [hpc] at hl
    exact ⟨hs, hl⟩
  · cases hgo
    refine fun hk => ⟨(h hk).1, ?_⟩
    split <;> rfl
  · next hpc =>
    cases hgo
    refine fun hk => ⟨by simp, (h hk).2⟩

theorem Noticed.wakeup (h : Noticed s) (chan : Chan) : Noticed (s.wakeup chan) := by
  unfold State.wakeup
  split
  · exact fun hk => ⟨by simp, (h hk).2⟩
  · exact h

theorem Noticed.step (h : Noticed s) (hok : Timely s l) (hs : step s l = some s') : Noticed s' := by
  cases l with
  | call =>
    simp only [SleepLoops.step] at hs
    split at hs
    · next hrun =>
      split at hs
      · cases hs
        intro hk
        have hk' : s.killed = true := hk
        refine ⟨(h hk').1, ?_⟩
        rw [if_pos hk']
        rfl
      · cases hs
    · cases hs
  | fault =>
    simp only [SleepLoops.step] at hs
    split_ifs at hs with hrun
    split at hs
    · cases hs
      exact fun _ => ⟨by rw [hrun]; decide, rfl⟩
    · cases hs
  | go =>
    simp only [SleepLoops.step] at hs
    split_ifs at hs
    exact h.go hs
  | yield =>
    simp only [SleepLoops.step] at hs
    split_ifs at hs
    split at hs
    · cases hs
      exact fun hk => ⟨by simp, (h hk).2⟩
    · cases hs
      exact fun hk => ⟨by simp, (h hk).2⟩
    · cases hs
  | dispatch =>
    simp only [SleepLoops.step] at hs
    split at hs
    · cases hs
      exact fun hk => ⟨by simp, (h hk).2⟩
    · cases hs
  | kill =>
    cases hs
    refine fun _ => ⟨?_, hok⟩
    unfold State.kill
    dsimp only
    split
    · decide
    · assumption
  | wakeup chan =>
    simp only [SleepLoops.step] at hs
    split at hs
    · cases hs
    · cases hs
      exact h.wakeup chan
  | clockintr =>
    cases hs
    have hticks : Noticed { s with shared := { s.shared with ticks := s.shared.ticks + 1 } } :=
      h
    exact hticks.wakeup .ticks
  | others =>
    cases hs
    exact h

/-- **A kill is not lost** if it does not come between the victim's call of `killed` and
its call of `sleep`, and not while the victim is in `usleep`: in every state of the run, a
victim that has been killed is not asleep in one of the loops. -/
theorem killed_not_asleep (h : Lts.Runs step Timely (init sh) s) : ¬ LeftAsleep s := by
  have hinv : Noticed s := h.invariant nofun (fun s l s' hI hok hs => hI.step hok hs)
  rintro ⟨hk, hs, -⟩
  exact (hinv hk).1 hs

/-- An empty pipe and an empty console, and nobody else. -/
def quiet : Shared where
  kids := []
  ticks := 0
  pipe := ⟨fun _ => 0, 0, 0, true, true⟩
  cons := ⟨fun _ => 0, 0, 0, 0⟩

/-- A reader that is killed while it sleeps wakes up, asks and leaves. -/
theorem killed_not_asleep_piperead : ∃ s, Lts.Runs step Timely (init quiet) s ∧
    s.killed = true ∧ (∃ c, s.pc = .killed c) ∧ ¬ LeftAsleep s := by
  obtain ⟨s, hrun, hk, hs⟩ : ∃ s ∈ Lts.runIf step Timely (init quiet)
      [.call (.piperead 1), .go none, .go none, .go none, .kill, .dispatch, .go none, .go none],
      s.killed = true ∧ (match s.pc with | .killed _ => true | _ => false) = true := by
    decide +kernel
  replace hrun := Lts.runs_of_runIf hrun
  split at hs
  · next c hpc => exact ⟨s, hrun, hk, ⟨c, hpc⟩, killed_not_asleep hrun⟩
  · cases hs

/-- **Two kills that are lost**: of a reader that has just asked whether it has been
killed, and of a process in `usleep`. -/
theorem kill_lost : (∃ s, Lts.Runs step (fun _ _ => True) (init quiet) s ∧ LeftAsleep s ∧
      ∃ n, s.pc = .asleep (.piperead n)) ∧
    ∃ s, Lts.Runs step (fun _ _ => True) (init quiet) s ∧ LeftAsleep s ∧
      ∃ u t t', s.pc = .asleep (.usleep u t t') := by
  constructor
  · obtain ⟨s, hrun, hk, hsl, hpc⟩ : ∃ s ∈ Lts.run step (init quiet)
        [.call (.piperead 1), .go none, .go none, .kill, .go none],
        s.killed = true ∧ s.state = .sleeping ∧
        (match s.pc with | .asleep (.piperead _) => true | _ => false) = true := by decide +kernel
    split at hpc
    · next n hpc' => exact ⟨s, Lts.runs_of_run hrun, ⟨hk, hsl, _, hpc'⟩, n, hpc'⟩
    · cases hpc
  · obtain ⟨s, hrun, hk, hsl, hpc⟩ : ∃ s ∈ Lts.run step (init quiet)
        [.call (.usleep 1000), .go none, .go none, .kill, .dispatch, .go none, .go none, .go none],
        s.killed = true ∧ s.state = .sleeping ∧
        (match s.pc with | .asleep (.usleep _ _ _) => true | _ => false) = true := by
      decide +kernel
    split at hpc
    · next u t t' hpc' => exact ⟨s, Lts.runs_of_run hrun, ⟨hk, hsl, _, hpc'⟩, u, t, t', hpc'⟩
    · cases hpc

/-! ## `usleep` -/

/-- In `sys_usleep`, at its loop. -/
def Pc.inUsleep : Pc → Bool
  | .head c | .sleep c | .asleep c => c.isUsleep
  | _ => false

/-- The step is made during a call of `sys_usleep`. The others leave the tick counter to the
clock. -/
def During (s : State) : Label → Prop
  | .others sh => s.pc.inUsleep = true ∧ sh.ticks = s.shared.ticks
  | _ => s.pc.inUsleep = true

/-- A process in user mode that has called `sys_usleep`, up to the state `s`. -/
def Called (microseconds : BitVec 32) (s₀ s : State) : Prop :=
  ∃ s₁, step s₀ (.call (.usleep microseconds)) = some s₁ ∧ Lts.Runs step During s₁ s

/-- Whenever the process is blocked, the next clock interrupt makes it runnable. -/
def WokenByClock (microseconds : BitVec 32) : Prop :=
  ∀ s₀ s c, Called microseconds s₀ s → s.pc = .asleep c → s.state = .sleeping →
    ∃ s', step s .clockintr = some s' ∧ s'.state = .runnable

/-- Whenever the process tests the loop after the time is over, or after it has been
killed, the call returns. -/
def EndsInTime (microseconds : BitVec 32) : Prop :=
  ∀ s₀ s c b s', Called microseconds s₀ s → s.pc = .head c →
    (usleepTicks microseconds ≤ s.shared.ticks - s₀.shared.ticks ∨ s.killed = true) →
    step s (.go b) = some s' → ∃ r, s'.pc = .leave r

variable {microseconds : BitVec 32}

/-- The duration is not zero. -/
theorem usleepTicks_pos (h : 1000 ≤ microseconds.toInt) : 0 < usleepTicks microseconds := by
  have hlt : microseconds.toInt < 2 ^ 31 := BitVec.toInt_lt
  have hdiv : microseconds.toInt.tdiv 1000 = microseconds.toInt / 1000 :=
    Int.tdiv_eq_ediv_of_nonneg (by omega)
  unfold usleepTicks
  rw [hdiv, BitVec.lt_def, BitVec.toNat_ofInt]
  show 0 < _
  omega

/-- The loop of a call of `sys_usleep`. -/
def usleepLoop (microseconds : BitVec 32) : Loop :=
  .usleep microseconds (usleepTicks microseconds) (usleepTicks microseconds)

/-- **The test of the loop is always true.** -/
theorem head_usleepLoop (h : 1000 ≤ microseconds.toInt) (sh : Shared) (ok : Bool) :
    head sh ok (usleepLoop microseconds) = (sh, .sleep (usleepLoop microseconds)) := by
  have hpos := usleepTicks_pos h
  unfold usleepLoop head
  dsimp only
  rw [if_pos ⟨hpos, by rw [BitVec.sub_self]; exact hpos⟩]

/-- The process is in the loop, and if it sleeps, then on its own variable. -/
structure Stuck (microseconds : BitVec 32) (s : State) : Prop where
  pc : s.pc = .head (usleepLoop microseconds) ∨ s.pc = .sleep (usleepLoop microseconds) ∨
    s.pc = .asleep (usleepLoop microseconds)
  chan : s.state = .sleeping → s.chan = some .usleepTicks

theorem Stuck.wakeup (h : Stuck microseconds s) (chan : Chan) :
    Stuck microseconds (s.wakeup chan) := by
  unfold State.wakeup
  split
  · exact ⟨h.pc, nofun⟩
  · exact h

section

variable (hus : 1000 ≤ microseconds.toInt)
include hus

theorem Stuck.go (h : Stuck microseconds s) (hrun : s.state = .running) (hgo : s.go b = some s') :
    Stuck microseconds s' := by
  have hawake : ∀ {t : State}, t.state = s.state → t.state = .sleeping →
      t.chan = some Chan.usleepTicks := by
    intro t ht hs
    rw [ht, hrun] at hs
    cases hs
  unfold State.go at hgo
  rcases h.pc with hpc | hpc | hpc
  · rw [hpc] at hgo
    dsimp only at hgo
    rw [head_usleepLoop hus] at hgo
    cases hgo
    exact ⟨.inr (.inl rfl), hawake rfl⟩
  · rw [hpc] at hgo
    cases hgo
    exact ⟨.inr (.inr rfl), fun _ => rfl⟩
  · rw [hpc] at hgo
    cases hgo
    exact ⟨.inl rfl, hawake rfl⟩

theorem Stuck.step (h : Stuck microseconds s) (hs : step s l = some s') :
    Stuck microseconds s' := by
  have huser : s.pc ≠ .user ∧ ∀ r, s.pc ≠ .leave r := by
    rcases h.pc with hpc | hpc | hpc <;> rw [hpc] <;> exact ⟨nofun, nofun⟩
  cases l with
  | call | fault =>
    simp only [SleepLoops.step] at hs
    split at hs
    · split at hs
      · next hpc => exact absurd hpc huser.1
      · cases hs
    · cases hs
  | go =>
    simp only [SleepLoops.step] at hs
    split_ifs at hs with hrun
    exact h.go hus hrun hs
  | yield =>
    simp only [SleepLoops.step] at hs
    split_ifs at hs
    split at hs
    · next hpc => exact absurd hpc huser.1
    · next r hpc => exact absurd hpc (huser.2 r)
    · cases hs
  | dispatch =>
    simp only [SleepLoops.step] at hs
    split at hs
    · cases hs
      exact ⟨h.pc, nofun⟩
    · cases hs
  | kill =>
    cases hs
    refine ⟨h.pc, fun hsl => ?_⟩
    unfold State.kill at hsl
    split_ifs at hsl with hne
    exact absurd hsl hne
  | wakeup chan =>
    simp only [SleepLoops.step] at hs
    split at hs
    · cases hs
    · cases hs
      exact h.wakeup chan
  | clockintr =>
    cases hs
    have hticks : Stuck microseconds
        { s with shared := { s.shared with ticks := s.shared.ticks + 1 } } := ⟨h.pc, h.chan⟩
    exact hticks.wakeup .ticks
  | others =>
    cases hs
    exact ⟨h.pc, h.chan⟩

/-- A call of `sys_usleep` with a duration that is not short. -/
theorem step_usleep (sh : Shared) : step (init sh) (.call (.usleep microseconds)) =
      some { init sh with pc := .head (usleepLoop microseconds) } := by
  show some { init sh with pc := start sh (.usleep microseconds) } = _
  rw [start, if_neg (by omega), if_neg (by omega)]
  rfl

/-- **Nothing ever ends a call of `usleep`** of a millisecond or more. -/
theorem usleep_stays (h : Lts.Runs step (fun _ _ => True)
      { init sh with pc := .head (usleepLoop microseconds) } s) : Stuck microseconds s :=
  h.invariant ⟨.inl rfl, nofun⟩ (fun _ _ _ hI _ hs => hI.step hus hs)

end

/-- A clock interrupt does not wake it. -/
theorem Stuck.clockintr (h : Stuck microseconds s) (hsl : s.state = .sleeping)
    (hs : SleepLoops.step s .clockintr = some s') : s'.state = .sleeping := by
  cases hs
  unfold State.wakeup
  rw [if_neg]
  · exact hsl
  · rintro ⟨-, hchan⟩
    have hc : s.chan = some .ticks := hchan
    rw [h.chan hsl] at hc
    cases hc

/-- **`usleep` does not do what it is for**, whatever the duration: the clock does not
wake the process, and when it tests the loop after it has been killed, the call does not
return. -/
theorem usleep_never (hus : 1000 ≤ microseconds.toInt) :
    ¬ WokenByClock microseconds ∧ ¬ EndsInTime microseconds := by
  have hblock : ∀ sh, ∃ s, Called microseconds (init sh) s ∧ s.state = .sleeping ∧
      s.pc = .asleep (usleepLoop microseconds) := by
    intro sh
    refine ⟨{ init sh with
      state := .sleeping, chan := some .usleepTicks, pc := .asleep (usleepLoop microseconds) },
      ⟨_, step_usleep hus sh, ?_⟩, rfl, rfl⟩
    have htest : step { init sh with pc := .head (usleepLoop microseconds) } (.go none) =
        some { init sh with pc := .sleep (usleepLoop microseconds) } := by
      show some (State.goto _ (head sh _ _)) = _
      rw [head_usleepLoop hus]
      rfl
    have hrun : Lts.Runs step During { init sh with pc := .head (usleepLoop microseconds) }
        { init sh with pc := .sleep (usleepLoop microseconds) } :=
      (Lts.Runs.refl _).tail (l := Label.go none) rfl htest
    exact hrun.tail (l := Label.go none) rfl rfl
  obtain ⟨s, hcalled, hsl, hpc⟩ := hblock quiet
  obtain ⟨s₁, hs₁, hrun⟩ := hcalled
  have hstuck : Stuck microseconds s := by
    rw [step_usleep hus] at hs₁
    cases hs₁
    exact usleep_stays hus (hrun.mono (fun _ _ _ => trivial))
  refine ⟨fun hwoken => ?_, fun hends => ?_⟩
  · obtain ⟨_, hs', hr⟩ := hwoken _ s _ ⟨s₁, hs₁, hrun⟩ hpc hsl
    rw [hstuck.clockintr hsl hs'] at hr
    cases hr
  · -- the process is killed, runs again and comes to the test
    have hin : ∀ {t : State}, t.pc = s.pc → t.pc.inUsleep = true := by
      intro t ht
      rw [ht, hpc]
      rfl
    have hkill : step s .kill = some { s with killed := true, state := .runnable } := by
      show some s.kill = _
      rw [State.kill, if_pos hsl]
    have hback : step { s with killed := true, state := .running } (.go none) =
        some { s with
          killed := true, state := .running, chan := none
          pc := .head (usleepLoop microseconds) } := by
      show State.go _ none = _
      unfold State.go
      rw [hpc]
    have hrun' := ((hrun.tail (l := Label.kill) (hin rfl) hkill).tail (l := Label.dispatch)
      (hin rfl) rfl).tail (l := Label.go none) (hin rfl) hback
    obtain ⟨r, hr⟩ := hends _ _ _ none _ ⟨s₁, hs₁, hrun'⟩ rfl (.inr rfl) rfl
    have hhead : (head s.shared false (usleepLoop microseconds)).2 = .leave r := hr
    rw [head_usleepLoop hus] at hhead
    cases hhead

/-- A second is not different from a millisecond. -/
theorem usleep_never_second : ¬ WokenByClock 1000000 ∧ ¬ EndsInTime 1000000 :=
  usleep_never (by decide)

/-- **A sleep of a millisecond that does not end**: twenty clock interrupts later, and
after a kill, the process sleeps. -/
theorem usleep_asleep : ∃ s, Lts.Runs step (fun _ _ => True) (init quiet) s ∧
    s.shared.ticks = 20 ∧ s.killed = true ∧ s.state = .sleeping ∧
    ∃ t t', s.pc = .asleep (.usleep 1000 t t') := by
  obtain ⟨s, hrun, ht, hk, hsl, hpc⟩ : ∃ s ∈ Lts.run step (init quiet)
      ([.call (.usleep 1000), .go none, .go none] ++ List.replicate 20 .clockintr ++
        [.kill, .dispatch, .go none, .go none, .go none]),
      s.shared.ticks = 20 ∧ s.killed = true ∧ s.state = .sleeping ∧
      (match s.pc with | .asleep (.usleep u _ _) => decide (u = 1000) | _ => false) = true := by
    decide +kernel
  replace hrun := Lts.runs_of_run hrun
  split at hpc
  · next u t t' hpc' => exact ⟨s, hrun, ht, hk, hsl, t, t', of_decide_eq_true hpc ▸ hpc'⟩
  · cases hpc

end Xv6.SleepLoops
