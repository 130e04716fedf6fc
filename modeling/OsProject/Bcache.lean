import OsProject.CircularList
import OsProject.Journal

/-!
# The buffer cache

`bio.c`: `NBUF` buffers in a circular list, sorted by how recently they were used, for the
blocks that processes read and write, and what `log.c` does with them: `log_write` pins the
buffer of a block that is new in the log, and `install_trans` writes it to its home location
and unpins it.

A step is a section under `bcache.lock` or `log.lock`, a transfer by `virtio_disk_rw` – for
which the process has the sleep-lock of the buffer – or taking or releasing a sleep-lock.
There is one disk, whatever `dev` is; all calls are for `ROOTDEV`, which is also `log.dev`.

What the callers owe is in the guards of `exec`: a process changes, writes and releases only
buffers whose lock it has, a `bunpin` that is not the one of `install_trans` undoes a `bpin`,
and while a transaction is committed nobody is in another one, so that `log_write` panics.
`hist` is the history of what was written to the buffers, and `dirt` says of a buffer
whether it has been changed since it was passed to `log_write` or `bwrite`. That
a process passes what it has changed to one of them before `brelse` is not a guard, but a
condition on runs (`State.Logged`).

The contents of blocks are of any type.
-/

namespace Xv6.Bcache

open Function

open Journal (Config)

/-- Number of buffers (`param.h`). -/
abbrev NBUF : ℕ := MAXOPBLOCKS * 3

/-- What has become of the last change of a buffer: it is on disk, it has been passed to
`log_write`, or neither. -/
inductive Dirt
  | clean | logged | dirty
  deriving DecidableEq

/-- `struct buf`, without its pointers, and with the process that has its sleep-lock. -/
structure Buf (β : Type) where
  dev : ℕ
  blockno : ℕ
  valid : Bool
  refcnt : ℕ
  data : β
  lock : Option ℕ
  dirt : Dirt

/-- Where a process is. -/
inductive Pc
  | idle
  /-- In `bget`, before `acquiresleep` returns. -/
  | waiting (k : Fin NBUF)
  /-- In `bread`, with the lock. -/
  | reading (k : Fin NBUF)
  /-- In `brelse`, after `releasesleep`. -/
  | releasing (k : Fin NBUF)
  /-- In `install_trans`, before `bwrite`. -/
  | copied (k : Fin NBUF)
  /-- In `install_trans`, before `bunpin`. -/
  | written (k : Fin NBUF)
  deriving DecidableEq

/-- The calls of `panic`, and what must not happen either. -/
inductive Panic
  | noBuffers | tooBig | outsideTrans
  /-- More rounds of a loop than there are buffers. -/
  | rounds
  deriving DecidableEq

/-- Why a step is not made. -/
inductive Stop
  | blocked
  | panic (e : Panic)
  deriving DecidableEq

/-- The buffers and their pointers, the disk, the log – which blocks are in it, and how far
`install_trans` is, if it is running –, the pins of processes, where the processes are, and
the history. -/
structure State (β : Type) where
  buf : Fin NBUF → Buf β
  links : Links (Fin NBUF)
  disk : ℕ → β
  lh : List ℕ
  tail : Option ℕ
  pins : Fin NBUF → ℕ
  procs : List Pc
  hist : List (ℕ × β)

variable {β : Type}

/-- A buffer that `bread` returns, where the disk has `v`. -/
def Buf.read (b : Buf β) (v : β) : Buf β :=
  if b.valid then b else { b with data := v, valid := true }

namespace State

/-- Where process `p` is. -/
def pc (s : State β) (p : ℕ) : Pc := s.procs.getD p .idle

def setPc (s : State β) (p : ℕ) (x : Pc) : State β := { s with procs := s.procs.set p x }

def setBuf (s : State β) (k : Fin NBUF) (b : Buf β) : State β :=
  { s with buf := update s.buf k b }

/-! ## The functions of `bio.c` -/

/-- `bget`, up to `acquiresleep`. -/
def bget (s : State β) (p dev blockno : ℕ) : Except Stop (State β) :=
  match Links.walk s.links.next
      (fun k => decide ((s.buf k).dev = dev ∧ (s.buf k).blockno = blockno))
      (NBUF + 1) (s.links.next none) with
  | none => .error (.panic .rounds)
  | some (some k) =>
    .ok ((s.setBuf k { s.buf k with refcnt := (s.buf k).refcnt + 1 }).setPc p (.waiting k))
  | some none =>
    match Links.walk s.links.prev (fun k => decide ((s.buf k).refcnt = 0)) (NBUF + 1)
        (s.links.prev none) with
    | none => .error (.panic .rounds)
    | some none => .error (.panic .noBuffers)
    | some (some k) =>
      .ok ((s.setBuf k { s.buf k with dev := dev, blockno := blockno, valid := false,
                                      refcnt := 1 }).setPc p (.waiting k))

/-- `acquiresleep` at the end of `bget`. -/
def acquire (s : State β) (p : ℕ) (k : Fin NBUF) : Except Stop (State β) :=
  if (s.buf k).lock = none then
    .ok ((s.setBuf k { s.buf k with lock := some p }).setPc p (.reading k))
  else .error .blocked

/-- The end of `bread`. -/
def bread (s : State β) (p : ℕ) (k : Fin NBUF) : State β :=
  (s.setBuf k ((s.buf k).read (s.disk (s.buf k).blockno))).setPc p .idle

/-- The contents of a buffer are changed. -/
def fill (s : State β) (k : Fin NBUF) (v : β) : State β :=
  { s.setBuf k { s.buf k with data := v, dirt := .dirty } with
    hist := s.hist ++ [((s.buf k).blockno, v)] }

/-- `bwrite`. -/
def bwrite (s : State β) (k : Fin NBUF) : State β :=
  { s.setBuf k { s.buf k with dirt := .clean } with
    disk := update s.disk (s.buf k).blockno (s.buf k).data }

/-- `brelse`, up to `releasesleep`. -/
def releasesleep (s : State β) (p : ℕ) (k : Fin NBUF) : State β :=
  (s.setBuf k { s.buf k with lock := none }).setPc p (.releasing k)

/-- The section of `brelse` under `bcache.lock`. -/
def brelse (s : State β) (p : ℕ) (k : Fin NBUF) : State β :=
  let s' := (s.setBuf k { s.buf k with refcnt := (s.buf k).refcnt - 1 }).setPc p .idle
  if (s.buf k).refcnt - 1 = 0 then { s' with links := (s.links.unlink k).pushFront k } else s'

/-- `bpin`. -/
def bpin (s : State β) (k : Fin NBUF) : State β :=
  s.setBuf k { s.buf k with refcnt := (s.buf k).refcnt + 1 }

/-- `bunpin`. -/
def bunpin (s : State β) (k : Fin NBUF) : State β :=
  s.setBuf k { s.buf k with refcnt := (s.buf k).refcnt - 1 }

/-! ## The log -/

/-- `log_write`. -/
def logWrite (C : Config) (s : State β) (k : Fin NBUF) : Except Stop (State β) :=
  if LOGSIZE ≤ s.lh.length ∨ C.size - 1 ≤ s.lh.length then .error (.panic .tooBig)
  else if s.tail ≠ none then .error (.panic .outsideTrans)
  else
    let s' := s.setBuf k { s.buf k with dirt := .logged }
    -- a block that is in the log already is absorbed
    if (s.buf k).blockno ∈ s.lh then .ok s'
    else .ok { s'.bpin k with lh := s.lh ++ [(s.buf k).blockno] }

/-- The next step of a process. -/
def run (s : State β) (p : ℕ) : Except Stop (State β) :=
  match s.pc p with
  | .idle => .error .blocked
  | .waiting k => s.acquire p k
  | .reading k => .ok (s.bread p k)
  | .releasing k => .ok (s.brelse p k)
  | .copied k => .ok ((s.bwrite k).setPc p (.written k))
  | .written k => .ok { (s.bunpin k).setPc p .idle with tail := s.tail.map (· + 1) }

end State

/-- What can happen: a process calls `bread`, changes a buffer, passes it to `log_write` or
`bwrite`, pins or unpins it, or releases it; `commit` comes to `install_trans`, which copies
the next block from the log to its home location, and ends; or a process makes the next
step of the function it is in. -/
inductive Label (β : Type)
  | bread (p blockno : ℕ)
  | modify (p : ℕ) (k : Fin NBUF) (v : β)
  | logWrite (p : ℕ) (k : Fin NBUF)
  | bwrite (p : ℕ) (k : Fin NBUF)
  | bpin (p : ℕ) (k : Fin NBUF)
  | bunpin (p : ℕ) (k : Fin NBUF)
  | brelse (p : ℕ) (k : Fin NBUF)
  | commit (p : ℕ)
  | copy (p : ℕ) (j k : Fin NBUF)
  | endCommit (p : ℕ)
  | run (p : ℕ)

/-- Who makes a step. -/
def Label.proc : Label β → ℕ
  | .bread p _ | .modify p _ _ | .logWrite p _ | .bwrite p _ | .bpin p _ | .bunpin p _
  | .brelse p _ | .commit p | .copy p _ _ | .endCommit p | .run p => p

namespace State

/-- Whether a process has the lock of a buffer, and is not in one of the functions. -/
def locks (s : State β) (p : ℕ) (k : Fin NBUF) : Prop :=
  s.pc p = .idle ∧ (s.buf k).lock = some p

instance (s : State β) (p : ℕ) (k : Fin NBUF) : Decidable (s.locks p k) :=
  inferInstanceAs (Decidable (_ ∧ _))

/-- One call, or one step of a call. -/
def call (C : Config) (s : State β) : Label β → Except Stop (State β)
  | .bread p blockno => if s.pc p = .idle then s.bget p ROOTDEV blockno else .error .blocked
  | .modify p k v => if s.locks p k then .ok (s.fill k v) else .error .blocked
  | .logWrite p k => if s.locks p k then s.logWrite C k else .error .blocked
  | .bwrite p k => if s.locks p k then .ok (s.bwrite k) else .error .blocked
  | .bpin p k =>
    if s.locks p k then .ok { s.bpin k with pins := update s.pins k (s.pins k + 1) }
    else .error .blocked
  | .bunpin p k =>
    if s.pc p = .idle ∧ 0 < s.pins k then
      .ok { s.bunpin k with pins := update s.pins k (s.pins k - 1) }
    else .error .blocked
  | .brelse p k => if s.locks p k then .ok (s.releasesleep p k) else .error .blocked
  | .commit p =>
    if s.pc p = .idle ∧ s.tail = none ∧ s.lh ≠ [] then .ok { s with tail := some 0 }
    else .error .blocked
  | .copy p j k =>
    match s.tail with
    | none => .error .blocked
    | some t =>
      if s.locks p j ∧ s.locks p k ∧ (s.buf j).blockno = C.start + t + 1 ∧
          s.lh[t]? = some (s.buf k).blockno then
        .ok ((s.fill k (s.buf j).data).setPc p (.copied k))
      else .error .blocked
  | .endCommit p =>
    if s.pc p = .idle ∧ s.tail = some s.lh.length then .ok { s with lh := [], tail := none }
    else .error .blocked
  | .run p => s.run p

/-- A step of one of the processes. -/
def exec (C : Config) (s : State β) (l : Label β) : Except Stop (State β) :=
  if l.proc < s.procs.length then s.call C l else .error .blocked

/-- **What a process has changed has been passed to `log_write` or `bwrite`** when it
releases the buffer. -/
def Logged (s : State β) : Label β → Prop
  | .brelse _ k => (s.buf k).dirt ≠ .dirty
  | _ => True

instance (s : State β) : (l : Label β) → Decidable (s.Logged l)
  | .brelse _ k => inferInstanceAs (Decidable ((s.buf k).dirt ≠ .dirty))
  | .bread .. | .modify .. | .logWrite .. | .bwrite .. | .bpin .. | .bunpin .. | .commit _
  | .copy .. | .endCommit _ | .run _ => isTrue trivial

end State

/-- A step that is possible. -/
def step (C : Config) (s : State β) (l : Label β) : Option (State β) := (s.exec C l).toOption

/-- After `binit`, with `n` processes. The buffers are zero. -/
def boot (n : ℕ) (zero : β) (disk : ℕ → β) : State β where
  buf := fun _ => { dev := 0, blockno := 0, valid := false, refcnt := 0, data := zero,
                    lock := none, dirt := .clean }
  links := (List.finRange NBUF).foldl Links.pushFront Links.empty
  disk := disk
  lh := []
  tail := none
  pins := fun _ => 0
  procs := List.replicate n .idle
  hist := []

end Xv6.Bcache
