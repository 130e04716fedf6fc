import OsProject.Blocks

/-!
# The inode table

`iget`, `idup`, `ilock`, `iunlock`, `iput` and `ialloc` of `fs.c`, called by any number of
processes. An entry of the table has two kinds of fields: which inode it is for and how
many references there are to it, which `itable.lock` protects, and the copy of the inode
on disk, which the sleep-lock of the entry protects.

A step is what a process does without letting others see anything in between: a section
under `itable.lock`, reading or writing an inode on disk (under the lock of its buffer),
or taking or releasing a sleep-lock. `iput` has several steps when it frees an inode: it
has released `itable.lock` when it truncates the inode, and other processes run.

What the callers owe is in the guards of `exec`. A process calls `ilock` with a pointer
that someone holds a reference for, and the reference is not given up before `iunlock`; it
changes the copy only while it has the lock, calls `iupdate` before it releases it, and
leaves `type` and the links of the root directory non-zero. References come from `ialloc`,
from the root directory, and from the entries of directories that the process has locked.
-/

namespace Xv6.Itable

open Function

open Blocks (Dinode)

/-- `struct inode`, with the process that has its sleep-lock, and whether the copy has been
changed since `iupdate`. -/
structure Inode where
  dev : ℕ
  inum : ℕ
  ref : ℕ
  valid : Bool
  copy : Dinode
  lock : Option ℕ
  changed : Bool

/-- Where `iput` is when it frees an inode, with the sleep-lock. -/
inductive Stage
  | trunc | clear | write | invalidate | unlock
  deriving DecidableEq

/-- A type that an inode is allocated with. -/
abbrev FileType := { type : ℕ // type ≠ 0 }

/-- Where a process is. -/
inductive Pc
  | idle
  /-- In the loop of `ialloc`. -/
  | alloc (dev : ℕ) (type : FileType) (inum : ℕ)
  /-- At the call of `iget` in `ialloc`. -/
  | get (dev inum : ℕ)
  /-- In `ilock`, before `acquiresleep` returns. -/
  | locking (k : Fin NINODE)
  /-- In `ilock`, with the sleep-lock. -/
  | loading (k : Fin NINODE)
  /-- At the beginning of `iput`. -/
  | put (k : Fin NINODE)
  | freeing (k : Fin NINODE) (stage : Stage)
  /-- At the end of `iput`, about to acquire `itable.lock` again. -/
  | drop (k : Fin NINODE)
  deriving DecidableEq

/-- In `iput`, with a reference that still counts. -/
def Pc.puts (k : Fin NINODE) : Pc → Bool
  | .put j | .freeing j _ | .drop j => decide (j = k)
  | _ => false

/-- Freeing an inode. -/
def Pc.frees (k : Fin NINODE) : Pc → Bool
  | .freeing j _ => decide (j = k)
  | _ => false

/-- The calls of `panic`. The last one is that of `sched`, when a process sleeps with a
spin-lock. -/
inductive Panic
  | iget | ilock | noType | iunlock | sched
  deriving DecidableEq

/-- Why a step is not made. -/
inductive Stop
  | blocked
  | panic (e : Panic)
  deriving DecidableEq

/-- The inodes on disk, the entries of directories, `itable`, the references that are held,
and where the processes are. -/
structure State where
  disk : ℕ → ℕ → Dinode
  ents : ℕ → ℕ → List ℕ
  inode : Fin NINODE → Inode
  held : Fin NINODE → ℕ
  procs : List Pc

namespace State

/-- Where process `p` is. -/
def pc (s : State) (p : ℕ) : Pc := s.procs.getD p .idle

def setPc (s : State) (p : ℕ) (x : Pc) : State := { s with procs := s.procs.set p x }

def setInode (s : State) (k : Fin NINODE) (ip : Inode) : State :=
  { s with inode := update s.inode k ip }

def setHeld (s : State) (k : Fin NINODE) (n : ℕ) : State :=
  { s with held := update s.held k n }

def setDisk (s : State) (dev inum : ℕ) (d : Dinode) : State :=
  { s with disk := update s.disk dev (update (s.disk dev) inum d) }

def setEnts (s : State) (dev inum : ℕ) (l : List ℕ) : State :=
  { s with ents := update s.ents dev (update (s.ents dev) inum l) }

/-- **The references to an entry**: those that are held, and those in `iput`. -/
def outstanding (s : State) (k : Fin NINODE) : ℕ := s.held k + s.procs.countP (Pc.puts k)

/-- Whether a process has the sleep-lock of an entry or waits for it. -/
def inUse (s : State) (k : Fin NINODE) : Bool :=
  s.procs.any (fun x => decide (x = .locking k)) ||
    (s.inode k).lock.any (fun p => !(s.pc p).frees k)

/-! ## The functions -/

/-- `iget`, at the end of which the process is idle. -/
def iget (s : State) (p dev inum : ℕ) : Except Stop State :=
  match (List.finRange NINODE).find? (fun k => decide
      (0 < (s.inode k).ref ∧ (s.inode k).dev = dev ∧ (s.inode k).inum = inum)) with
  | some k => .ok (((s.setInode k { s.inode k with ref := (s.inode k).ref + 1 }).setHeld k
      (s.held k + 1)).setPc p .idle)
  | none =>
    match (List.finRange NINODE).find? (fun k => decide ((s.inode k).ref = 0)) with
    | none => .error (.panic .iget)
    | some k => .ok (((s.setInode k
        { s.inode k with dev := dev, inum := inum, ref := 1, valid := false }).setHeld k
        (s.held k + 1)).setPc p .idle)

/-- `ialloc` looks at inode `inum`. -/
def iallocRound (s : State) (ninodes p dev : ℕ) (type : FileType) (inum : ℕ) : State :=
  if ninodes ≤ inum then s.setPc p .idle
  else if (s.disk dev inum).type = 0 then
    (s.setDisk dev inum (.fresh type.1)).setPc p (.get dev inum)
  else s.setPc p (.alloc dev type (inum + 1))

/-- `acquiresleep` in `ilock`. -/
def acquire (s : State) (p : ℕ) (k : Fin NINODE) : Except Stop State :=
  if (s.inode k).lock = none then
    .ok ((s.setInode k { s.inode k with lock := some p }).setPc p (.loading k))
  else .error .blocked

/-- The end of `ilock`. -/
def load (s : State) (p : ℕ) (k : Fin NINODE) : Except Stop State :=
  let ip := s.inode k
  if ip.valid then .ok (s.setPc p .idle)
  else if (s.disk ip.dev ip.inum).type = 0 then .error (.panic .noType)
  else .ok ((s.setInode k { ip with copy := s.disk ip.dev ip.inum, valid := true }).setPc p .idle)

/-- The first section of `iput`. -/
def putFirst (s : State) (p : ℕ) (k : Fin NINODE) : Except Stop State :=
  let ip := s.inode k
  if ip.ref = 1 ∧ ip.valid = true ∧ ip.copy.nlink = 0 then
    if ip.lock = none then
      .ok ((s.setInode k { ip with lock := some p }).setPc p (.freeing k .trunc))
    else .error (.panic .sched)
  else .ok ((s.setInode k { ip with ref := ip.ref - 1 }).setPc p .idle)

/-- `iput` frees an inode, until it releases the sleep-lock. -/
def free (s : State) (p : ℕ) (k : Fin NINODE) : Stage → State
  | .trunc =>
    let ip := { s.inode k with copy := { (s.inode k).copy with size := 0, addrs := fun _ => 0 } }
    ((((s.setInode k ip).setDisk ip.dev ip.inum ip.copy).setEnts ip.dev ip.inum []).setPc p
      (.freeing k .clear))
  | .clear =>
    (s.setInode k { s.inode k with copy := { (s.inode k).copy with type := 0 } }).setPc p
      (.freeing k .write)
  | .write =>
    (s.setDisk (s.inode k).dev (s.inode k).inum (s.inode k).copy).setPc p (.freeing k .invalidate)
  | .invalidate =>
    (s.setInode k { s.inode k with valid := false }).setPc p (.freeing k .unlock)
  | .unlock => (s.setInode k { s.inode k with lock := none }).setPc p (.drop k)

/-- The next step of a process. -/
def run (s : State) (ninodes p : ℕ) : Except Stop State :=
  match s.pc p with
  | .idle => .error .blocked
  | .alloc dev type inum => .ok (s.iallocRound ninodes p dev type inum)
  | .get dev inum => s.iget p dev inum
  | .locking k => s.acquire p k
  | .loading k => s.load p k
  | .put k => s.putFirst p k
  | .freeing k stage => .ok (s.free p k stage)
  | .drop k =>
    .ok ((s.setInode k { s.inode k with ref := (s.inode k).ref - 1 }).setPc p .idle)

end State

/-- What a process can do next: take a reference to the root directory, or to the inode
that an entry of a locked directory names; call the functions; change the copy of a locked
inode, `iupdate` it, or write the entries of a locked directory; or make the next step of
the call that it is in. -/
inductive Label
  | root (p : ℕ)
  | lookup (p : ℕ) (k : Fin NINODE) (n : ℕ)
  | ialloc (p dev : ℕ) (type : FileType)
  | idup (p : ℕ) (k : Fin NINODE)
  | ilock (p : ℕ) (k : Fin NINODE)
  | set (p : ℕ) (k : Fin NINODE) (d : Dinode)
  | iupdate (p : ℕ) (k : Fin NINODE)
  | write (p : ℕ) (k : Fin NINODE) (l : List ℕ)
  | iunlock (p : ℕ) (k : Fin NINODE)
  | iput (p : ℕ) (k : Fin NINODE)
  | run (p : ℕ)

/-- Who makes a step. -/
def Label.proc : Label → ℕ
  | .root p | .lookup p _ _ | .ialloc p _ _ | .idup p _ | .ilock p _ | .set p _ _
  | .iupdate p _ | .write p _ _ | .iunlock p _ | .iput p _ | .run p => p

namespace State

/-- The inode that an entry of a directory names. -/
def entry (s : State) (k : Fin NINODE) (n : ℕ) : Option ℕ :=
  (s.ents (s.inode k).dev (s.inode k).inum)[n]?

/-- Whether a process has the sleep-lock of an entry, and is not in one of the functions. -/
def locks (s : State) (p : ℕ) (k : Fin NINODE) : Prop :=
  s.pc p = .idle ∧ (s.inode k).lock = some p

instance (s : State) (p : ℕ) (k : Fin NINODE) : Decidable (s.locks p k) :=
  inferInstanceAs (Decidable (_ ∧ _))

/-- One call, or one step of a call. -/
def call (s : State) (ninodes : ℕ) : Label → Except Stop State
  | .root p => if s.pc p = .idle then s.iget p ROOTDEV ROOTINO else .error .blocked
  | .lookup p k n =>
    if s.locks p k ∧ (s.inode k).copy.type = T_DIR then
      match s.entry k n with
      | none => .error .blocked
      | some inum => s.iget p (s.inode k).dev inum
    else .error .blocked
  | .ialloc p dev type =>
    if s.pc p = .idle then .ok (s.setPc p (.alloc dev type 1)) else .error .blocked
  | .idup p k =>
    if s.pc p = .idle ∧ 0 < s.held k then
      .ok ((s.setInode k { s.inode k with ref := (s.inode k).ref + 1 }).setHeld k (s.held k + 1))
    else .error .blocked
  | .ilock p k =>
    if s.pc p = .idle ∧ 0 < s.held k then
      if (s.inode k).ref < 1 then .error (.panic .ilock) else .ok (s.setPc p (.locking k))
    else .error .blocked
  | .set p k d =>
    if s.locks p k ∧ d.type ≠ 0 ∧
        ((s.inode k).dev = ROOTDEV → (s.inode k).inum = ROOTINO → d.nlink ≠ 0) then
      .ok (s.setInode k { s.inode k with copy := d, changed := true })
    else .error .blocked
  | .iupdate p k =>
    if s.locks p k then
      .ok ((s.setDisk (s.inode k).dev (s.inode k).inum (s.inode k).copy).setInode k
        { s.inode k with changed := false })
    else .error .blocked
  | .write p k l =>
    if s.locks p k then .ok (s.setEnts (s.inode k).dev (s.inode k).inum l) else .error .blocked
  | .iunlock p k =>
    if s.locks p k ∧ (s.inode k).changed = false then
      if (s.inode k).ref < 1 then .error (.panic .iunlock)
      else .ok (s.setInode k { s.inode k with lock := none })
    else .error .blocked
  | .iput p k =>
    if s.pc p = .idle ∧ 0 < s.held k ∧ (2 ≤ s.held k ∨ s.inUse k = false) then
      .ok ((s.setHeld k (s.held k - 1)).setPc p (.put k))
    else .error .blocked
  | .run p => s.run ninodes p

/-- A step of one of the processes. -/
def exec (s : State) (ninodes : ℕ) (l : Label) : Except Stop State :=
  if l.proc < s.procs.length then s.call ninodes l else .error .blocked

/-- An inode that is not about to be freed: it has links, or there is a reference to it. -/
def Live (s : State) (dev inum : ℕ) : Prop :=
  (s.disk dev inum).nlink ≠ 0 ∨
    ∃ k, 0 < s.held k ∧ (s.inode k).dev = dev ∧ (s.inode k).inum = inum

instance (s : State) (dev inum : ℕ) : Decidable (s.Live dev inum) :=
  inferInstanceAs (Decidable (_ ∨ _))

/-- **The entry of a directory through which a reference is taken names a live inode.** -/
def Found (s : State) : Label → Prop
  | .lookup _ k n => ∀ inum ∈ s.entry k n, s.Live (s.inode k).dev inum
  | _ => True

instance (s : State) : (l : Label) → Decidable (s.Found l)
  | .lookup _ k n =>
    inferInstanceAs (Decidable (∀ inum ∈ s.entry k n, s.Live (s.inode k).dev inum))
  | .root _ | .ialloc .. | .idup .. | .ilock .. | .set .. | .iupdate .. | .write .. | .iunlock ..
  | .iput .. | .run _ => isTrue trivial

end State

/-- A step that is possible. -/
def step (ninodes : ℕ) (s : State) (l : Label) : Option State := (s.exec ninodes l).toOption

/-- After `iinit`, with `n` processes. -/
def boot (n : ℕ) (disk : ℕ → ℕ → Dinode) (ents : ℕ → ℕ → List ℕ) : State where
  disk := disk
  ents := ents
  inode := fun _ => { dev := 0, inum := 0, ref := 0, valid := false, copy := .fresh 0,
                      lock := none, changed := false }
  held := fun _ => 0
  procs := List.replicate n .idle

/-- An image: a free inode has no links, and the root directory has. -/
structure Image (disk : ℕ → ℕ → Dinode) : Prop where
  free : ∀ dev inum, (disk dev inum).type = 0 → (disk dev inum).nlink = 0
  root : (disk ROOTDEV ROOTINO).nlink ≠ 0

end Xv6.Itable
