import OsProject.Inodes
import OsProject.Redo
import OsProject.Runs

/-!
# The log

`log.c`: file-system calls are operations, each between `begin_op` and `end_op`.
They change blocks in the buffer cache and tell `log_write`; when the last
operation ends, `commit` writes the changed blocks to the log, then the header,
then the blocks to their home locations, and clears the header. After a crash
`recover_from_log` does the last two again.

The state is that of the disk, the buffer cache and `struct log`. A label names
an operation and what it does next, or another process that reads a block, the
buffer cache that gives up a buffer, the next disk write of `commit` or of
`recover_from_log`, or a crash. A step makes at most one disk write, so a crash
can come between any two. What runs under `log.lock` is one step.

A block is 256 words, so that the header block is a `struct logheader`, a count
followed by block numbers. The blocks of the log are `start`, the header, up to
`start + size`; the operations change other blocks, called *home* blocks. There
is a buffer for every block that is asked for, and `locked` is its sleep lock.

Operations are numbered, and a number is used once. Three fields are history:
`op` remembers how an operation ended, `dirty` that a buffer has been changed
since it was last passed to `log_write`, and `hist` all that was passed to
`log_write`.
-/

namespace Xv6.Journal

open Option

open Function (update)

/-- The size of a block in words, `BSIZE / sizeof(int)`. -/
abbrev NWORD : ℕ := 256

instance : NeZero NWORD := ⟨by decide⟩

/-- The contents of a block. -/
abbrev Block := Fin NWORD → ℕ

/-- Where the log is on disk: `log.start` and `log.size`. There is at least the
header block. -/
structure Config where
  start : ℕ
  size : ℕ
  size_pos : 0 < size

/-- The log of an image that `mkfs` has made, with `nlog = LOGSIZE`. -/
def mkfs : Config := ⟨2, LOGSIZE, by decide⟩

/-- A block outside the log. -/
def Config.home (C : Config) (b : ℕ) : Prop := ¬ (C.start ≤ b ∧ b < C.start + C.size)

instance (C : Config) (b : ℕ) : Decidable (C.home b) := inferInstanceAs (Decidable (¬ _))

/-- The calls of `panic` in `log.c`. -/
inductive Panic where
  | tooBig | outsideTrans | committing
  deriving DecidableEq

/-- What an operation is doing. -/
inductive OpState where
  | idle
  /-- Between `begin_op` and `end_op`, with the locks of these buffers. -/
  | running (held : List ℕ)
  /-- In `end_op`, and in `commit`. -/
  | closing
  /-- Has returned from `end_op`; another operation will commit. -/
  | ended
  /-- Has returned from `end_op`, and `commit` has returned. -/
  | committed
  /-- Had called `end_op` when a crash came before `commit` returned. -/
  | cutOff
  /-- Had not called `end_op` when a crash came. -/
  | lost
  deriving DecidableEq

/-- Has the operation called `end_op`? -/
def OpState.isOver : OpState → Bool
  | .closing | .ended | .committed | .cutOff => true
  | .idle | .running _ | .lost => false

/-- What is left of an operation after a crash. -/
def OpState.crash : OpState → OpState
  | .running _ => .lost
  | .closing | .ended => .cutOff
  | .idle => .idle
  | .committed => .committed
  | .cutOff => .cutOff
  | .lost => .lost

/-- What becomes of an operation when `commit` has returned. -/
def OpState.finish : OpState → OpState
  | .closing | .ended => .committed
  | .idle => .idle
  | .running held => .running held
  | .committed => .committed
  | .cutOff => .cutOff
  | .lost => .lost

/-- Where the system is: at boot in `recover_from_log`, before `read_head` or in
`install_trans`; up, and not in `commit`; or in `commit` of operation `o`, in
`write_log`, in `install_trans`, or back in `end_op`. -/
inductive Phase where
  | readHead
  | recover (tail : ℕ)
  | normal
  | writeLog (o tail : ℕ)
  | installTrans (o tail : ℕ)
  | finish (o : ℕ)
  deriving DecidableEq

/-- `log.committing`. -/
def Phase.committing : Phase → Bool
  | .writeLog _ _ | .installTrans _ _ | .finish _ => true
  | .readHead | .recover _ | .normal => false

/-- The system has booted. -/
def Phase.up : Phase → Bool
  | .readHead | .recover _ => false
  | .normal | .writeLog _ _ | .installTrans _ _ | .finish _ => true

/-- A call of `log_write`: by which operation, for which block, with which
contents. -/
structure Write where
  op : ℕ
  blockno : ℕ
  data : Block

/-- The state of the system. -/
structure State where
  disk : ℕ → Block
  /-- The contents of the buffers that are valid. -/
  cache : ℕ → Option Block
  refcnt : ℕ → ℕ
  locked : ℕ → Bool
  dirty : ℕ → Bool
  /-- `log.lh`: the first `n` entries of `block`. -/
  lh : List ℕ
  outstanding : ℕ
  phase : Phase
  op : ℕ → OpState
  panic : Option Panic
  hist : List Write

/-- The header in a block, as `read_head` reads it. -/
def getHead (b : Block) : List ℕ := (List.range (b 0)).map (fun i => b (Fin.ofNat NWORD (i + 1)))

/-- The block with the header `lh` in it, as `write_head` writes it: words beyond
the entries stay as they are. -/
def setHead (b : Block) (lh : List ℕ) : Block :=
  fun w => if w = 0 then lh.length else lh.getD (w.val - 1) (b w)

namespace State

/-- The contents of a block for a process that reads it. -/
def read (s : State) (b : ℕ) : Block := (s.cache b).getD (s.disk b)

/-- `bread`, with the reference that `brelse` gives back left out. -/
def bread (s : State) (b : ℕ) : State :=
  { s with cache := update s.cache b (some (s.read b)) }

/-- Fill the buffer of a block, and `bwrite`. -/
def bwrite (s : State) (b : ℕ) (v : Block) : State :=
  { s with cache := update s.cache b (some v), disk := update s.disk b v }

/-- `begin_op`, when it does not sleep. -/
def beginOp (s : State) (o : ℕ) : State :=
  { s with outstanding := s.outstanding + 1, op := update s.op o (.running []) }

/-- `bread` by operation `o`, which has the locks of `held`. -/
def acquire (s : State) (o b : ℕ) (held : List ℕ) : State :=
  { s.bread b with
    refcnt := update s.refcnt b (s.refcnt b + 1)
    locked := update s.locked b true
    op := update s.op o (.running (b :: held)) }

/-- The operation that has the lock of a buffer changes it. -/
def modify (s : State) (b : ℕ) (v : Block) : State :=
  { s with
    cache := update s.cache b (some v), dirty := update s.dirty b true }

/-- `log_write`. -/
def logWrite (C : Config) (s : State) (o b : ℕ) : State :=
  if LOGSIZE ≤ s.lh.length ∨ C.size - 1 ≤ s.lh.length then { s with panic := some .tooBig }
  else if s.outstanding < 1 then { s with panic := some .outsideTrans }
  else
    { s with
      -- a block that is in the log already is absorbed
      lh := if b ∈ s.lh then s.lh else s.lh ++ [b]
      refcnt := if b ∈ s.lh then s.refcnt else update s.refcnt b (s.refcnt b + 1)
      dirty := update s.dirty b false
      hist := s.hist ++ [⟨o, b, s.read b⟩] }

/-- `brelse` by operation `o`, which has the locks of `held`. -/
def brelse (s : State) (o b : ℕ) (held : List ℕ) : State :=
  { s with
    refcnt := update s.refcnt b (s.refcnt b - 1)
    locked := update s.locked b false
    op := update s.op o (.running (held.filter (· ≠ b))) }

/-- `end_op` up to the call of `commit`, which does nothing if nothing was
logged. -/
def endOp (s : State) (o : ℕ) : State :=
  if s.phase.committing then { s with panic := some .committing }
  else if s.outstanding - 1 = 0 then
    { s with
      outstanding := s.outstanding - 1
      phase := if s.lh = [] then .finish o else .writeLog o 0
      op := update s.op o .closing }
  else { s with outstanding := s.outstanding - 1, op := update s.op o .ended }

/-- One round of `write_log`: block `b` goes to its place in the log. -/
def logBlock (C : Config) (s : State) (tail b : ℕ) : State :=
  (s.bread b).bwrite (C.start + tail + 1) (s.read b)

/-- One round of `install_trans`, without `bunpin`: block `b` goes home. -/
def installBlock (C : Config) (s : State) (tail b : ℕ) : State :=
  (s.bread (C.start + tail + 1)).bwrite b (s.read (C.start + tail + 1))

/-- `write_head`. -/
def writeHead (C : Config) (s : State) : State :=
  s.bwrite C.start (setHead (s.read C.start) s.lh)

/-- The next step of `commit` and of the end of `end_op`. -/
def commit (C : Config) (s : State) : Option State :=
  match s.phase with
  | .writeLog o tail =>
    match s.lh[tail]? with
    | some b => some { s.logBlock C tail b with phase := .writeLog o (tail + 1) }
    | none => some { s.writeHead C with phase := .installTrans o 0 }
  | .installTrans o tail =>
    match s.lh[tail]? with
    | some b =>
      some { s.installBlock C tail b with
        refcnt := update s.refcnt b (s.refcnt b - 1)
        phase := .installTrans o (tail + 1) }
    | none => some { { s with lh := [] }.writeHead C with phase := .finish o }
  | .finish _ => some { s with phase := .normal, op := fun o => (s.op o).finish }
  | .readHead | .recover _ | .normal => none

/-- The next step of `recover_from_log`. -/
def recover (C : Config) (s : State) : Option State :=
  match s.phase with
  | .readHead =>
    some { s.bread C.start with lh := getHead (s.read C.start), phase := .recover 0 }
  | .recover tail =>
    match s.lh[tail]? with
    | some b => some { s.installBlock C tail b with phase := .recover (tail + 1) }
    | none => some { { s with lh := [] }.writeHead C with phase := .normal }
  | .normal | .writeLog _ _ | .installTrans _ _ | .finish _ => none

/-- A crash leaves the disk. -/
def crash (s : State) : State where
  disk := s.disk
  cache := fun _ => none
  refcnt := fun _ => 0
  locked := fun _ => false
  dirty := fun _ => false
  lh := []
  outstanding := 0
  phase := .readHead
  op := fun o => (s.op o).crash
  panic := none
  hist := s.hist

end State

/-- A machine that is switched on with this disk. -/
def boot (disk : ℕ → Block) : State where
  disk := disk
  cache := fun _ => none
  refcnt := fun _ => 0
  locked := fun _ => false
  dirty := fun _ => false
  lh := []
  outstanding := 0
  phase := .readHead
  op := fun _ => .idle
  panic := none
  hist := []

/-- What happens next. -/
inductive Label where
  | beginOp (o : ℕ)
  | bread (o b : ℕ)
  | modify (o b : ℕ) (v : Block)
  | logWrite (o b : ℕ)
  | brelse (o b : ℕ)
  | endOp (o : ℕ)
  | commit
  | recover
  /-- A process reads a block. -/
  | fill (b : ℕ)
  /-- `bget` takes the buffer of a block for another one. -/
  | evict (b : ℕ)
  | crash

/-- The step function. An operation passes a buffer it has changed to `log_write`
before it releases it, and releases its buffers before it ends. -/
def step (C : Config) (s : State) : Label → Option State
  | .beginOp o =>
    if s.panic = none ∧ s.phase = .normal ∧ s.op o = .idle ∧
      s.lh.length + (s.outstanding + 1) * MAXOPBLOCKS ≤ LOGSIZE then some (s.beginOp o) else none
  | .bread o b =>
    match s.op o with
    | .running held =>
      if s.panic = none ∧ C.home b ∧ s.locked b = false then some (s.acquire o b held) else none
    | _ => none
  | .modify o b v =>
    match s.op o with
    | .running held => if s.panic = none ∧ b ∈ held then some (s.modify b v) else none
    | _ => none
  | .logWrite o b =>
    match s.op o with
    | .running held => if s.panic = none ∧ b ∈ held then some (s.logWrite C o b) else none
    | _ => none
  | .brelse o b =>
    match s.op o with
    | .running held =>
      if s.panic = none ∧ b ∈ held ∧ s.dirty b = false then some (s.brelse o b held) else none
    | _ => none
  | .endOp o =>
    if s.panic = none ∧ s.op o = .running [] then some (s.endOp o) else none
  | .commit => if s.panic = none then s.commit C else none
  | .recover => if s.panic = none then s.recover C else none
  | .fill b => if s.panic = none then some (s.bread b) else none
  | .evict b =>
    if s.panic = none ∧ s.refcnt b = 0 then
      some { s with cache := update s.cache b none }
    else none
  | .crash => some s.crash

/-! ## What a step does -/

/-- The steps, one constructor for each thing that can happen. -/
inductive Step (C : Config) (s : State) : Label → State → Prop
  | beginOp {o : ℕ} (hphase : s.phase = .normal) (hop : s.op o = .idle)
      (hroom : s.lh.length + (s.outstanding + 1) * MAXOPBLOCKS ≤ LOGSIZE) :
      Step C s (.beginOp o) (s.beginOp o)
  | bread {o b : ℕ} {held : List ℕ} (hop : s.op o = .running held) (hb : C.home b)
      (hlock : s.locked b = false) : Step C s (.bread o b) (s.acquire o b held)
  | modify {o b : ℕ} {v : Block} {held : List ℕ} (hop : s.op o = .running held) (hb : b ∈ held) :
      Step C s (.modify o b v) (s.modify b v)
  | logWrite {o b : ℕ} {held : List ℕ} (hop : s.op o = .running held) (hb : b ∈ held) :
      Step C s (.logWrite o b) (s.logWrite C o b)
  | brelse {o b : ℕ} {held : List ℕ} (hop : s.op o = .running held) (hb : b ∈ held)
      (hclean : s.dirty b = false) : Step C s (.brelse o b) (s.brelse o b held)
  | endOp {o : ℕ} (hop : s.op o = .running []) : Step C s (.endOp o) (s.endOp o)
  | logBlock {o tail b : ℕ} (hphase : s.phase = .writeLog o tail) (hb : s.lh[tail]? = some b) :
      Step C s .commit { s.logBlock C tail b with phase := .writeLog o (tail + 1) }
  | writeHead {o tail : ℕ} (hphase : s.phase = .writeLog o tail) (hend : s.lh[tail]? = none) :
      Step C s .commit { s.writeHead C with phase := .installTrans o 0 }
  | install {o tail b : ℕ} (hphase : s.phase = .installTrans o tail)
      (hb : s.lh[tail]? = some b) :
      Step C s .commit { s.installBlock C tail b with
        refcnt := update s.refcnt b (s.refcnt b - 1)
        phase := .installTrans o (tail + 1) }
  | clear {o tail : ℕ} (hphase : s.phase = .installTrans o tail) (hend : s.lh[tail]? = none) :
      Step C s .commit { { s with lh := [] }.writeHead C with phase := .finish o }
  | finish {o : ℕ} (hphase : s.phase = .finish o) :
      Step C s .commit { s with phase := .normal, op := fun o => (s.op o).finish }
  | readHead (hphase : s.phase = .readHead) :
      Step C s .recover
        { s.bread C.start with lh := getHead (s.read C.start), phase := .recover 0 }
  | reinstall {tail b : ℕ} (hphase : s.phase = .recover tail) (hb : s.lh[tail]? = some b) :
      Step C s .recover { s.installBlock C tail b with phase := .recover (tail + 1) }
  | reclear {tail : ℕ} (hphase : s.phase = .recover tail) (hend : s.lh[tail]? = none) :
      Step C s .recover { { s with lh := [] }.writeHead C with phase := .normal }
  | fill {b : ℕ} : Step C s (.fill b) (s.bread b)
  | evict {b : ℕ} (href : s.refcnt b = 0) :
      Step C s (.evict b) { s with cache := update s.cache b none }
  | crash : Step C s .crash s.crash

variable {C : Config} {s s' : State} {l : Label}

/-- The steps of `commit`. -/
theorem commit_cases (h : s.commit C = some s') : Step C s .commit s' := by
  unfold State.commit at h
  split at h
  · next hphase =>
    split at h <;> cases h
    · next hb => exact .logBlock hphase hb
    · next hend => exact .writeHead hphase hend
  · next hphase =>
    split at h <;> cases h
    · next hb => exact .install hphase hb
    · next hend => exact .clear hphase hend
  · next hphase =>
    cases h
    exact .finish hphase
  all_goals cases h

/-- The steps of `recover_from_log`. -/
theorem recover_cases (h : s.recover C = some s') : Step C s .recover s' := by
  unfold State.recover at h
  split at h
  · next hphase =>
    cases h
    exact .readHead hphase
  · next hphase =>
    split at h <;> cases h
    · next hb => exact .reinstall hphase hb
    · next hend => exact .reclear hphase hend
  all_goals cases h

/-- **Every step is one of these**, and unless it is a crash there has been no
panic. -/
theorem step_cases (h : step C s l = some s') : Step C s l s' ∧ (l ≠ .crash → s.panic = none) := by
  cases l with
  | beginOp =>
    simp only [step, ite_none_right_eq_some, some.injEq] at h
    obtain ⟨⟨hp, h1, h2, h3⟩, rfl⟩ := h
    exact ⟨.beginOp h1 h2 h3, fun _ => hp⟩
  | bread | modify | logWrite | brelse =>
    simp only [step] at h
    split at h
    · next hop =>
      simp only [ite_none_right_eq_some, some.injEq] at h
      obtain ⟨⟨hp, hb⟩, rfl⟩ := h
      refine ⟨?_, fun _ => hp⟩
      first
        | exact .bread hop hb.1 hb.2
        | exact .modify hop hb
        | exact .logWrite hop hb
        | exact .brelse hop hb.1 hb.2
    · cases h
  | endOp =>
    simp only [step, ite_none_right_eq_some, some.injEq] at h
    obtain ⟨⟨hp, h1⟩, rfl⟩ := h
    exact ⟨.endOp h1, fun _ => hp⟩
  | commit =>
    simp only [step, ite_none_right_eq_some] at h
    exact ⟨commit_cases h.2, fun _ => h.1⟩
  | recover =>
    simp only [step, ite_none_right_eq_some] at h
    exact ⟨recover_cases h.2, fun _ => h.1⟩
  | fill =>
    simp only [step, ite_none_right_eq_some, some.injEq] at h
    obtain ⟨hp, rfl⟩ := h
    exact ⟨.fill, fun _ => hp⟩
  | evict =>
    simp only [step, ite_none_right_eq_some, some.injEq] at h
    obtain ⟨⟨hp, h1⟩, rfl⟩ := h
    exact ⟨.evict h1, fun _ => hp⟩
  | crash =>
    simp only [step, some.injEq] at h
    exact ⟨h ▸ .crash, absurd rfl⟩

/-! ## The header block -/

/-- **`read_head` reads what `write_head` has written.** -/
theorem getHead_setHead (b : Block) {lh : List ℕ} (h : lh.length < NWORD) :
    getHead (setHead b lh) = lh := by
  have hlen : setHead b lh 0 = lh.length := if_pos rfl
  refine List.ext_getElem (by simp [getHead, hlen]) fun i hi hi' => ?_
  have hw : (Fin.ofNat NWORD (i + 1)).val = i + 1 := Nat.mod_eq_of_lt (by omega)
  have hne : Fin.ofNat NWORD (i + 1) ≠ 0 := fun he => by
    rw [he] at hw
    exact absurd hw (Nat.succ_ne_zero i).symm
  simp only [getHead, List.getElem_map, List.getElem_range, setHead, if_neg hne, hw]
  exact List.getD_eq_getElem _ _ hi'

end Xv6.Journal
