import OsProject.Pipe
import Mathlib.Algebra.BigOperators.Group.Finset.Piecewise
import Mathlib.Algebra.Order.BigOperators.Group.Finset

/-!
# The users of a pipe

The calls of `pipe.c` once more, now with the processes that make them: which descriptors
they have, whether they have been killed, and the reference counts of the two files that
`pipealloc` has made. A process makes its calls one after another, and closes a descriptor
between calls only; the last close of a file calls `pipeclose`, and the second of these
frees the page.

A process should sleep only while there is a reason to. The loops test the ring before
they sleep, under the lock of the pipe, and whoever changes the ring wakes the others up
before the lock is released. That is, almost: `pipewrite` puts bytes into the ring one at
a time, and a process that is killed after the first of them leaves without calling
`wakeup`. A reader that was asleep then stays asleep although there is something to read
(`reader_stranded`). If no kill hits a process in that loop, everybody who sleeps has a
reason (`sleeps_with_reason`).

The page is a simpler matter. A process in one of the calls has a descriptor, so the file
is open, and so is the end of the pipe.
-/

namespace Xv6.Pipes

open State Option

open Function (apply_update update update_of_ne update_self update_apply)

open Finset (range sum_le_sum)

/-! ## The code -/

/-- The end of the pipe that a call needs: `true` for the end for writing. -/
def Kind.writable : Kind → Bool
  | .write _ => true
  | .read _ => false

/-- `pi->writeopen` or `pi->readopen`. -/
def Pipe.isOpen (pi : Pipe) (writable : Bool) : Bool :=
  if writable then pi.writeopen else pi.readopen

/-- The pipe with its users. -/
structure Users where
  calls : State
  killed : ℕ → Bool
  /-- How many descriptors a process has for each end. -/
  fds : ℕ → Bool → ℕ
  /-- `f->ref` of the two files. -/
  ref : Bool → ℕ
  /-- The processes that are about to call `pipeclose`. -/
  closing : ℕ → Option Bool
  freed : Bool

namespace Users

/-- A process that is not in one of the modelled functions. -/
def Idle (u : Users) (p : ℕ) : Prop :=
  (u.calls.call p).all (fun k => !k.inside) = true ∧ u.closing p = none

instance (u : Users) (p : ℕ) : Decidable (u.Idle p) := inferInstanceAs (Decidable (_ ∧ _))

/-- The section of `kill` at the slot of process `p`. -/
def kill (u : Users) (p : ℕ) : Users :=
  { u with
    killed := update u.killed p true
    calls :=
      match u.calls.call p with
      | some k => if k.pc = .asleep then u.calls.setCall p { k with pc := .acquire } else u.calls
      | none => u.calls }

/-- `filedup`, for a new descriptor of process `q`. -/
def filedup (u : Users) (q : ℕ) (writable : Bool) : Users :=
  { u with
    fds := update u.fds q (update (u.fds q) writable (u.fds q writable + 1))
    ref := update u.ref writable (u.ref writable + 1) }

/-- `fileclose` of a descriptor of process `p`, up to the call of `pipeclose`, if the file
has no other reference. -/
def fileclose (u : Users) (p : ℕ) (writable : Bool) : Users :=
  { u with
    fds := update u.fds p (update (u.fds p) writable (u.fds p writable - 1))
    ref := update u.ref writable (u.ref writable - 1)
    closing :=
      if 0 < u.ref writable - 1 then u.closing else update u.closing p (some writable) }

/-- `pipeclose`, called by process `p`. -/
def pipeclose (u : Users) (p : ℕ) (writable : Bool) : Users :=
  let calls := u.calls.pipeclose writable
  { u with
    calls := calls
    closing := update u.closing p none
    freed := u.freed || (!calls.pipe.readopen && !calls.pipe.writeopen) }

end Users

/-- What happens next. A descriptor is duplicated by `dup`, or by `fork` for a child. -/
inductive Act
  | start (p : ℕ) (kind : Kind) (n : ℤ)
  | run (p : ℕ)
  | kill (p : ℕ)
  | filedup (p q : ℕ) (writable : Bool)
  | fileclose (p : ℕ) (writable : Bool)
  | pipeclose (p : ℕ)

/-- One step. A step of a call is a round of its loop, so the test of `killed` and the `sleep`
after it are not apart here: a kill comes before the round, or finds the process asleep. -/
def act (u : Users) : Act → Option Users
  | .start p kind n =>
    if u.Idle p ∧ 0 < u.fds p kind.writable then
      some { u with calls := u.calls.setCall p ⟨kind, n, 0, .acquire⟩ }
    else none
  | .run p =>
    match u.calls.call p with
    | none => none
    | some k => (u.calls.run p k (u.killed p)).map (fun x => { u with calls := x.1 })
  | .kill p => some (u.kill p)
  | .filedup p q writable =>
    if u.Idle p ∧ u.Idle q ∧ 0 < u.fds p writable then some (u.filedup q writable) else none
  | .fileclose p writable =>
    if u.Idle p ∧ 0 < u.fds p writable then some (u.fileclose p writable) else none
  | .pipeclose p =>
    match u.closing p with
    | none => none
    | some writable => if u.calls.lock = none then some (u.pipeclose p writable) else none

/-- A new pipe, with both descriptors in process 0. -/
def made (data : ℕ → UInt8) : Users where
  calls := fresh data
  killed := fun _ => false
  fds := fun p _ => if p = 0 then 1 else 0
  ref := fun _ => 1
  closing := fun _ => none
  freed := false

/-! ## Sleepers -/

/-- Process `p` sleeps on the channel. -/
def Asleep (s : State) (chan : Chan) (p : ℕ) : Prop :=
  ∃ k, s.call p = some k ∧ k.pc = .asleep ∧ k.kind.chan = chan

variable {s : State} {chan chan' : Chan} {p q c : ℕ} {k : Call} {u u' : Users} {w : Bool}

/-- A process that moves on is not asleep. -/
theorem Asleep.of_setCall (hk : k.pc ≠ .asleep) (h : Asleep (s.setCall c k) chan p) :
    Asleep s chan p := by
  obtain ⟨k', hc, hpc, hch⟩ := h
  rcases setCall_cases hc with ⟨-, rfl⟩ | ⟨-, hc⟩
  · exact absurd hpc hk
  · exact ⟨k', hc, hpc, hch⟩

theorem Asleep.of_wakeup (h : Asleep (s.wakeup chan') chan p) : Asleep s chan p ∧ chan ≠ chan' := by
  obtain ⟨_, hc, hpc, hch⟩ := h
  obtain ⟨k, hck, rfl⟩ := map_eq_some_iff.mp hc
  by_cases hw : k.pc = .asleep ∧ k.kind.chan = chan'
  · rw [if_pos hw] at hpc
    cases hpc
  · rw [if_neg hw] at hpc hch
    exact ⟨⟨k, hck, hpc, hch⟩, fun he => hw ⟨hpc, hch.trans he⟩⟩

theorem Asleep.of_sleep (h : Asleep (s.sleep c k) chan p) :
    k.kind.chan = chan ∨ Asleep s chan p := by
  obtain ⟨k', hc, hpc, hch⟩ := h
  rcases setCall_cases (k := { k with pc := .asleep }) hc with ⟨-, rfl⟩ | ⟨-, hc⟩
  · exact .inl hch
  · exact .inr ⟨k', hc, hpc, hch⟩

/-- Process `p` has the lock, at the head of one of the loops. -/
def Holds (s : State) (p : ℕ) : Prop :=
  ∃ k, s.call p = some k ∧ (k.pc = .loop ∨ k.pc = .copy)

theorem Holds.of_setCall (h : Holds (s.setCall c k) p) :
    (p = c ∧ (k.pc = .loop ∨ k.pc = .copy)) ∨ (p ≠ c ∧ Holds s p) := by
  obtain ⟨k', hc, hpc⟩ := h
  rcases setCall_cases hc with ⟨hp, rfl⟩ | ⟨hp, hc⟩
  · exact .inl ⟨hp, hpc⟩
  · exact .inr ⟨hp, k', hc, hpc⟩

theorem Holds.of_wakeup (h : Holds (s.wakeup chan) p) : Holds s p := by
  obtain ⟨_, hc, hpc⟩ := h
  obtain ⟨k, hck, rfl⟩ := map_eq_some_iff.mp hc
  split_ifs at hpc with hw
  · rcases hpc with hpc | hpc <;> cases hpc
  · exact ⟨k, hck, hpc⟩

/-- The ring is empty and the end for writing is open. -/
def WaitsForBytes (s : State) : Prop := s.pipe.nread = s.pipe.nwrite ∧ s.pipe.writeopen = true

/-- The ring is full and the end for reading is open. -/
def WaitsForRoom (s : State) : Prop :=
  s.pipe.nwrite = s.pipe.nread + 512 ∧ s.pipe.readopen = true

/-- A writer that will call `wakeup` has the lock. -/
def Putting (u : Users) : Prop :=
  ∃ p k src, u.calls.lock = some p ∧ u.calls.call p = some k ∧ k.kind = .write src ∧
    k.pc = .loop ∧ u.killed p = false ∧ u.calls.pipe.readopen = true

/-- A reader that will call `wakeup` has the lock. -/
def Taking (s : State) : Prop :=
  ∃ p k dst, s.lock = some p ∧ s.call p = some k ∧ k.kind = .read dst ∧ k.pc = .copy

/-- **Who sleeps has a reason**, or will be woken before the lock is released. -/
structure Reasons (u : Users) : Prop where
  lock : ∀ p, Holds u.calls p → u.calls.lock = some p
  readers : ∀ p, Asleep u.calls .nread p → WaitsForBytes u.calls ∨ Putting u
  writers : ∀ p, Asleep u.calls .nwrite p → WaitsForRoom u.calls ∨ Taking u.calls

namespace Reasons

variable (h : Reasons u)
include h

/-- Without the lock nobody is on the way to `wakeup`. -/
theorem of_free (hl : u.calls.lock = none) :
    (∀ p, Asleep u.calls .nread p → WaitsForBytes u.calls) ∧
      ∀ p, Asleep u.calls .nwrite p → WaitsForRoom u.calls := by
  refine ⟨fun p hp => ?_, fun p hp => ?_⟩
  · rcases h.readers p hp with hw | ⟨q, _, _, hq, -⟩
    · exact hw
    · rw [hl] at hq
      cases hq
  · rcases h.writers p hp with hw | ⟨q, _, _, hq, -⟩
    · exact hw
    · rw [hl] at hq
      cases hq

/-- While a reader has the lock, no writer does. -/
theorem of_reader {dst : ℕ → Bool} (hc : u.calls.call c = some k) (hk : k.kind = .read dst)
    (hpc : k.pc = .loop ∨ k.pc = .copy) (hp : Asleep u.calls .nread p) : WaitsForBytes u.calls := by
  rcases h.readers p hp with hw | ⟨q, k', src, hq, hc', hk', -⟩
  · exact hw
  · rw [h.lock c ⟨k, hc, hpc⟩] at hq
    cases hq
    rw [hc] at hc'
    cases hc'
    rw [hk] at hk'
    cases hk'

/-- In a `while` loop nobody takes bytes out of the ring. -/
theorem of_loop (hc : u.calls.call c = some k) (hpc : k.pc = .loop)
    (hp : Asleep u.calls .nwrite p) :
    WaitsForRoom u.calls := by
  rcases h.writers p hp with hw | ⟨q, k', dst, hq, hc', -, hpc'⟩
  · exact hw
  · rw [h.lock c ⟨k, hc, .inl hpc⟩] at hq
    cases hq
    rw [hc] at hc'
    cases hc'
    rw [hpc] at hpc'
    cases hpc'

/-- Only one process has the lock. -/
theorem eq_of_holds (hc : Holds u.calls c) (hp : Holds u.calls p) : p = c :=
  Option.some.inj ((h.lock p hp).symm.trans (h.lock c hc))

/-- A process that has the lock returns from the state `s`, in which the others have been
woken if the ring has changed. -/
theorem ret (r : ℤ) (hc : Holds u.calls c) (hs : ∀ p, Holds s p → Holds u.calls p)
    (hr : ∀ p, Asleep s .nread p → WaitsForBytes s)
    (hw : ∀ p, Asleep s .nwrite p → WaitsForRoom s) : Reasons { u with calls := s.ret c k r } := by
  have hasleep : ∀ {chan p}, Asleep (s.ret c k r) chan p → Asleep s chan p := fun hp =>
    Asleep.of_setCall (s := s) (k := { k with pc := .returned r }) nofun hp
  refine ⟨fun p hp => ?_, fun p hp => .inl (hr p (hasleep hp)),
    fun p hp => .inl (hw p (hasleep hp))⟩
  rcases Holds.of_setCall hp with ⟨-, hpc⟩ | ⟨hne, hp⟩
  · rcases hpc with hpc | hpc <;> cases hpc
  · exact absurd (h.eq_of_holds hc (hs p hp)) hne

/-- The same for a process that sleeps. -/
theorem sleep (hc : Holds u.calls c) (hs : ∀ p, Holds s p → Holds u.calls p)
    (hr : ∀ p, Asleep (s.sleep c k) .nread p → WaitsForBytes s)
    (hw : ∀ p, Asleep (s.sleep c k) .nwrite p → WaitsForRoom s) :
    Reasons { u with calls := s.sleep c k } := by
  refine ⟨fun p hp => ?_, fun p hp => .inl (hr p hp), fun p hp => .inl (hw p hp)⟩
  rcases Holds.of_setCall hp with ⟨-, hpc⟩ | ⟨hne, hp⟩
  · rcases hpc with hpc | hpc <;> cases hpc
  · exact absurd (h.eq_of_holds hc (hs p hp)) hne

/-- The same for a process that stays in its loop. -/
theorem lock_setCall (hc : Holds u.calls c) (hs : ∀ p, Holds s p → Holds u.calls p)
    (hp : Holds (s.setCall c k) p) : u.calls.lock = some p := by
  rcases hp.of_setCall with ⟨rfl, -⟩ | ⟨-, hp⟩
  · exact h.lock _ hc
  · exact h.lock _ (hs p hp)

section

variable (hc : u.calls.call c = some k)
include hc

/-- **A round of `pipewrite`.** -/
theorem pipewrite {src : ℕ → Option UInt8} (hk : k.kind = .write src) (hpc : k.pc = .loop) :
    Reasons { u with calls := (u.calls.pipewrite c k src (u.killed c)).1 } := by
  have hholds : Holds u.calls c := ⟨k, hc, .inl hpc⟩
  have hroom : ∀ p, Asleep u.calls .nwrite p → WaitsForRoom u.calls := fun p => h.of_loop hc hpc
  -- after `wakeup` no reader sleeps
  have hwake : ∀ p, Asleep (u.calls.wakeup .nread) .nread p →
      WaitsForBytes (u.calls.wakeup .nread) := fun p hp => absurd rfl hp.of_wakeup.2
  have hroom' : ∀ p, Asleep (u.calls.wakeup .nread) .nwrite p →
      WaitsForRoom (u.calls.wakeup .nread) := fun p hp => hroom p hp.of_wakeup.1
  unfold State.pipewrite
  split
  · split
    · next hstop =>
      -- it has put no byte into the ring since it got the lock
      refine h.ret (-1) hholds (fun _ hp => hp) (fun p hp => ?_) hroom
      rcases h.readers p hp with hw | ⟨q, k', _, hq, -, -, -, hkilled, hopen⟩
      · exact hw
      · rw [h.lock c hholds] at hq
        cases hq
        rw [hkilled, hopen] at hstop
        rcases hstop with hstop | hstop <;> cases hstop
    · next hgo =>
      split
      · next hfull =>
        refine h.sleep hholds (fun _ hp => hp.of_wakeup) (fun p hp => ?_) fun p hp => ?_
        · rcases hp.of_sleep with hchan | hp
          · rw [hk] at hchan
            cases hchan
          · exact hwake p hp
        · exact ⟨hfull, Bool.eq_true_of_not_eq_false (fun hc => hgo (.inl hc))⟩
      · next hfull =>
        split
        · exact h.ret _ hholds (fun _ hp => hp.of_wakeup) hwake hroom'
        · next ch hsrc =>
          refine ⟨fun p hp => h.lock_setCall hholds (fun _ hp => hp) hp, fun p hp => .inr ?_,
            fun p hp => ?_⟩
          · refine ⟨c, _, src, h.lock c hholds, call_setCall_self .., hk, hpc, ?_, ?_⟩
            · exact Bool.eq_false_of_not_eq_true fun hc => hgo (.inr hc)
            · exact Bool.eq_true_of_not_eq_false fun hc => hgo (.inl hc)
          · have hp' : Asleep u.calls .nwrite p :=
              Asleep.of_setCall (by rw [hpc]; nofun) hp
            exact absurd (hroom p hp').1 hfull
  · exact h.ret _ hholds (fun _ hp => hp.of_wakeup) hwake hroom'

variable {dst : ℕ → Bool}

/-- **A round of the first loop of `piperead`.** -/
theorem piperead (hk : k.kind = .read dst) (hpc : k.pc = .loop) :
    Reasons { u with calls := u.calls.piperead c k (u.killed c) } := by
  have hholds : Holds u.calls c := ⟨k, hc, .inl hpc⟩
  have hbytes : ∀ p, Asleep u.calls .nread p → WaitsForBytes u.calls := fun p =>
    h.of_reader hc hk (.inl hpc)
  have hroom : ∀ p, Asleep u.calls .nwrite p → WaitsForRoom u.calls := fun p => h.of_loop hc hpc
  unfold State.piperead
  split
  · next hempty =>
    split
    · exact h.ret (-1) hholds (fun _ hp => hp) hbytes hroom
    · refine h.sleep hholds (fun _ hp => hp) (fun _ _ => hempty) fun p hp => ?_
      rcases hp.of_sleep with hchan | hp
      · rw [hk] at hchan
        cases hchan
      · exact hroom p hp
  · have hasleep : ∀ {chan p}, Asleep (u.calls.setCall c { k with pc := .copy }) chan p →
        Asleep u.calls chan p := fun hp => Asleep.of_setCall (k := { k with pc := .copy }) nofun hp
    exact ⟨fun p hp => h.lock_setCall hholds (fun _ hp => hp) hp,
      fun p hp => .inl (hbytes p (hasleep hp)), fun p hp => .inl (hroom p (hasleep hp))⟩

/-- **A round of the second loop of `piperead`.** -/
theorem pipereadCopy (hk : k.kind = .read dst) (hpc : k.pc = .copy) :
    Reasons { u with calls := (u.calls.pipereadCopy c k dst).1 } := by
  have hholds : Holds u.calls c := ⟨k, hc, .inr hpc⟩
  have hbytes : ∀ p, Asleep u.calls .nread p → WaitsForBytes u.calls := fun p =>
    h.of_reader hc hk (.inr hpc)
  have hend : ∀ r, Reasons { u with calls := (u.calls.wakeup .nwrite).ret c k r } := fun r =>
    h.ret r hholds (fun _ hp => hp.of_wakeup) (fun p hp => hbytes p hp.of_wakeup.1)
      (fun p hp => absurd rfl hp.of_wakeup.2)
  unfold State.pipereadCopy
  split
  · split
    · exact hend _
    · next hempty =>
      -- nobody waits for the byte that is taken
      have hnone : ∀ p, ¬ Asleep u.calls .nread p := fun p hp => hempty (hbytes p hp).1
      dsimp only
      split
      · refine ⟨fun p hp => h.lock_setCall hholds (fun _ hp => hp) hp, fun p hp => ?_,
          fun p hp => .inr ?_⟩
        · exact absurd (Asleep.of_setCall (by rw [hpc]; nofun) hp) (hnone p)
        · exact ⟨c, _, dst, h.lock c hholds, call_setCall_self .., hk, hpc⟩
      · exact h.ret _ hholds (fun _ hp => hp.of_wakeup)
          (fun p hp => absurd hp.of_wakeup.1 (hnone p)) (fun p hp => absurd rfl hp.of_wakeup.2)
  · exact hend _

end

/-- Only the calls and the flags of their processes matter. -/
theorem congr (hcalls : u'.calls = u.calls) (hkilled : u'.killed = u.killed) : Reasons u' := by
  refine ⟨hcalls ▸ h.lock, fun p hp => ?_, hcalls ▸ h.writers⟩
  rcases h.readers p (hcalls ▸ hp) with hw | hput
  · exact .inl (hcalls ▸ hw)
  · unfold Putting at hput ⊢
    rw [hcalls, hkilled]
    exact .inr hput

/-- A process that is not in the lock's possession goes to the lock. -/
theorem toAcquire (hp : ¬ Holds u.calls p) (kind : Kind) (n : ℤ) (i : ℕ) :
    Reasons { u with calls := u.calls.setCall p ⟨kind, n, i, .acquire⟩ } := by
  have hasleep : ∀ {chan q}, Asleep (u.calls.setCall p ⟨kind, n, i, .acquire⟩) chan q →
      Asleep u.calls chan q := fun hq => Asleep.of_setCall (k := ⟨kind, n, i, .acquire⟩) nofun hq
  have hstay : ∀ {q k}, Holds u.calls q → u.calls.call q = some k →
      (u.calls.setCall p ⟨kind, n, i, .acquire⟩).call q = some k := by
    intro q k hq hc
    have hne : q ≠ p := by
      rintro rfl
      exact hp hq
    rw [call_setCall_of_ne _ _ hne, hc]
  refine ⟨fun q hq => ?_, fun q hq => ?_, fun q hq => ?_⟩
  · rcases hq.of_setCall with ⟨-, hpc⟩ | ⟨-, hq⟩
    · rcases hpc with hpc | hpc <;> cases hpc
    · exact h.lock q hq
  · refine (h.readers q (hasleep hq)).imp_right ?_
    rintro ⟨r, k, src, hl, hc, hk, hpc, hrest⟩
    exact ⟨r, k, src, hl, hstay ⟨k, hc, .inl hpc⟩ hc, hk, hpc, hrest⟩
  · refine (h.writers q (hasleep hq)).imp_right ?_
    rintro ⟨r, k, dst, hl, hc, hk, hpc⟩
    exact ⟨r, k, dst, hl, hstay ⟨k, hc, .inr hpc⟩ hc, hk, hpc⟩

/-- A step of a call. -/
theorem run (hc : u.calls.call p = some k) {x : State × List Event}
    (hrun : u.calls.run p k (u.killed p) = some x) : Reasons { u with calls := x.1 } := by
  unfold State.run at hrun
  split at hrun
  · split at hrun
    · next hpc _ hl =>
      cases hrun
      obtain ⟨hbytes, hroom⟩ := h.of_free hl
      have hasleep : ∀ {chan q}, Asleep (u.calls.setCall p { k with pc := .loop }) chan q →
          Asleep u.calls chan q :=
            fun hq => Asleep.of_setCall (k := { k with pc := .loop }) nofun hq
      refine ⟨fun q hq => ?_, fun q hq => .inl (hbytes q (hasleep hq)),
        fun q hq => .inl (hroom q (hasleep hq))⟩
      rcases Holds.of_setCall hq with ⟨rfl, -⟩ | ⟨-, hq⟩
      · rfl
      · have hlock := h.lock q hq
        rw [hl] at hlock
        cases hlock
    · cases hrun
  · next src hpc hk =>
    cases hrun
    exact h.pipewrite hc hk hpc
  · next dst hpc hk =>
    cases hrun
    exact h.piperead hc hk hpc
  · next dst hpc hk =>
    cases hrun
    exact h.pipereadCopy hc hk hpc
  · cases hrun

/-- A close wakes the other side. -/
theorem pipeclose (hl : u.calls.lock = none) (writable : Bool) :
    Reasons { u with calls := u.calls.pipeclose writable } := by
  obtain ⟨hbytes, hroom⟩ := h.of_free hl
  unfold State.pipeclose
  split
  · exact ⟨fun q hq => h.lock q (Holds.of_wakeup hq),
      fun q hq => absurd rfl (Asleep.of_wakeup hq).2,
      fun q hq => .inl (hroom q (Asleep.of_wakeup hq).1)⟩
  · exact ⟨fun q hq => h.lock q (Holds.of_wakeup hq),
      fun q hq => .inl (hbytes q (Asleep.of_wakeup hq).1),
      fun q hq => absurd rfl (Asleep.of_wakeup hq).2⟩

end Reasons

/-- In the loop of `pipewrite`, with the lock. -/
def Call.inWriteLoop (k : Call) : Bool := k.kind.writable && decide (k.pc = .loop)

/-- The step does not kill a process that is in the loop of `pipewrite`, with the lock. -/
def Calm (u : Users) : Act → Prop
  | .kill p => (u.calls.call p).all (fun k => !k.inWriteLoop) = true
  | _ => True

instance (u : Users) : (a : Act) → Decidable (Calm u a)
  | .kill _ => inferInstanceAs (Decidable (_ = true))
  | .start _ _ _ | .run _ | .filedup _ _ _ | .fileclose _ _ | .pipeclose _ => isTrue trivial

/-- A kill of another process. -/
theorem Reasons.kill (h : Reasons u) (hok : Calm u (.kill p)) : Reasons (u.kill p) := by
  -- the writer with the lock, if there is one, is not the victim
  have hkilled : Reasons { u with killed := update u.killed p true } := by
    refine ⟨h.lock, fun q hq => (h.readers q hq).imp_right ?_, h.writers⟩
    rintro ⟨r, k, src, hl, hc, hk, hpc, hr, hopen⟩
    have hne : r ≠ p := by
      rintro rfl
      have hcalm : (u.calls.call r).all (fun k => !k.inWriteLoop) = true := hok
      rw [hc, all_some] at hcalm
      simp [Call.inWriteLoop, Kind.writable, hk, hpc] at hcalm
    exact ⟨r, k, src, hl, hc, hk, hpc, (update_of_ne hne ..).trans hr, hopen⟩
  unfold Users.kill
  split
  · next k hc =>
    split
    · next hpc =>
      refine hkilled.toAcquire ?_ k.kind k.n k.i
      rintro ⟨k', hc', hpc'⟩
      have hc₂ : u.calls.call p = some k' := hc'
      rw [hc] at hc₂
      cases hc₂
      rw [hpc] at hpc'
      rcases hpc' with hpc' | hpc' <;> cases hpc'
    · exact hkilled
  · exact hkilled

theorem Users.Idle.not_holds (h : u.Idle p) : ¬ Holds u.calls p := by
  rintro ⟨_, hc, hpc⟩
  have hidle := h.1
  rw [hc, all_some] at hidle
  rcases hpc with hpc | hpc <;> simp [Call.inside, hpc] at hidle

theorem Reasons.act {a : Act} (h : Reasons u) (hok : Calm u a) (ha : act u a = some u') :
    Reasons u' := by
  cases a with
  | start p kind n =>
    simp only [Pipes.act] at ha
    split_ifs at ha with hidle
    cases ha
    exact h.toAcquire hidle.1.not_holds kind n 0
  | run =>
    simp only [Pipes.act] at ha
    split at ha
    · cases ha
    · next k hc =>
      obtain ⟨_, hx, rfl⟩ := map_eq_some_iff.mp ha
      exact h.run hc hx
  | kill =>
    cases ha
    exact h.kill hok
  | filedup | fileclose =>
    simp only [Pipes.act] at ha
    split at ha
    · cases ha
      exact h.congr rfl rfl
    · cases ha
  | pipeclose =>
    simp only [Pipes.act] at ha
    split at ha
    · cases ha
    · next w hc =>
      split at ha
      · next hl =>
        cases ha
        exact (h.pipeclose hl w).congr rfl rfl
      · cases ha

/-! ## References -/

/-- **The files count their descriptors.** Who is in a call has one; an end is closed only
when its file has no references left; and the page is free only when both are closed. -/
structure Counted (u : Users) (N : ℕ) : Prop where
  bound : ∀ p w, N ≤ p → u.fds p w = 0
  ref : ∀ w, u.ref w = ∑ p ∈ range N, u.fds p w
  inside : ∀ p k, u.calls.call p = some k → k.inside = true → 0 < u.fds p k.kind.writable
  isOpen : ∀ w, 0 < u.ref w → u.calls.pipe.isOpen w = true
  closing : ∀ p w, u.closing p = some w → u.ref w = 0
  freed : u.freed = true → ∀ w, u.calls.pipe.isOpen w = false

section

variable {s' : State} {evs : List Event}

/-- A step of a call opens and closes nothing. -/
theorem Moves.isOpen (h : Moves s s' evs) (w : Bool) : s'.pipe.isOpen w = s.pipe.isOpen w := by
  cases h with
  | put => rfl
  | quiet _ hpipe => rw [hpipe]
  | took _ hpipe =>
    rw [hpipe]
    rfl

/-- Nobody enters a call in a step of one. -/
theorem Moves.inside {k' : Call} (h : Moves s s' evs) (hc : s'.call p = some k')
    (hk : k'.inside = true) : ∃ k, s.call p = some k ∧ k.kind = k'.kind ∧ k.inside = true := by
  cases h with
  | quiet hkept | took _ _ hkept =>
    obtain ⟨k, hc, he, hin, -⟩ := hkept.call p k' hc
    exact ⟨k, hc, he, hin hk⟩
  | @put c k _ _ hck =>
    rcases setCall_cases hc with ⟨rfl, rfl⟩ | ⟨-, hc⟩
    · exact ⟨k, hck, rfl, hk⟩
    · exact ⟨k', hc, rfl, hk⟩

end

namespace Counted

variable {N : ℕ}

variable (h : Counted u N)
include h

/-- The number of references is not zero as long as somebody has a descriptor. -/
theorem ref_pos (hp : 0 < u.fds p w) : 0 < u.ref w := by
  have hN : p < N := by
    by_contra hge
    rw [h.bound p w (not_lt.mp hge)] at hp
    exact absurd hp (lt_irrefl 0)
  rw [h.ref w]
  exact lt_of_lt_of_le hp
    (Finset.single_le_sum (f := fun p => u.fds p w) (fun _ _ => Nat.zero_le _)
      (Finset.mem_range.mpr hN))

/-- **Nobody is in a call when the page is free.** -/
theorem not_freed (hc : u.calls.call p = some k) (hk : k.inside = true) : u.freed = false := by
  by_contra hf
  have hopen := h.isOpen _ (h.ref_pos (h.inside p k hc hk))
  rw [h.freed (Bool.eq_true_of_not_eq_false hf)] at hopen
  cases hopen

/-- The number of processes can be taken larger. -/
theorem mono {M : ℕ} (hM : N ≤ M) : Counted u M := by
  refine ⟨fun p w hp => h.bound p w (hM.trans hp), fun w => ?_, h.inside, h.isOpen, h.closing,
    h.freed⟩
  rw [h.ref w]
  refine Finset.sum_subset (Finset.range_mono hM) fun p _ hp => ?_
  exact h.bound p w (not_lt.mp (fun hlt => hp (Finset.mem_range.mpr hlt)))

/-- A step of a call. -/
theorem moves {s' : State} {evs : List Event} (hm : Moves u.calls s' evs) :
    Counted { u with calls := s' } N :=
  { h with
    inside := fun p k hc hk => by
      obtain ⟨k₀, hc₀, he, hk₀⟩ := hm.inside hc hk
      rw [← he]
      exact h.inside p k₀ hc₀ hk₀
    isOpen := fun w hw => (hm.isOpen w).trans (h.isOpen w hw)
    freed := fun hf w => (hm.isOpen w).trans (h.freed hf w) }

/-- **Another number of descriptors of one process**, for one of the ends. -/
theorem setFds (hp : p < N) {x r : ℕ} {closing : ℕ → Option Bool} (hr : r + u.fds p w = u.ref w + x)
    (hopen : 0 < r → u.calls.pipe.isOpen w = true)
    (hin : ∀ k, u.calls.call p = some k → k.inside = false)
    (hclosing : ∀ q w', closing q = some w' → update u.ref w r w' = 0) :
    Counted { u with
      fds := update u.fds p (update (u.fds p) w x)
      ref := update u.ref w r
      closing := closing } N := by
  have hother : ∀ w', w' ≠ w → ∀ q, update u.fds p (update (u.fds p) w x) q w' = u.fds q w' := by
    intro w' hw' q
    by_cases hq : q = p
    · rw [hq, update_self, update_of_ne hw']
    · rw [update_of_ne hq]
  refine ⟨fun q w' hq => ?_, fun w' => ?_, fun q k hc hk => ?_, fun w' hw' => ?_, hclosing, h.freed⟩
  · have hqp : q ≠ p := by omega
    dsimp only
    rw [update_of_ne hqp]
    exact h.bound q w' hq
  · dsimp only
    by_cases hw' : w' = w
    · subst hw'
      have hsum : ∀ q, update u.fds p (update (u.fds p) w' x) q w' =
          update (fun q => u.fds q w') p x q := by
        intro q
        rw [apply_update (fun _ f => f w') u.fds, update_self]
      have hmem := Finset.mem_range.mpr hp
      rw [update_self, Finset.sum_congr rfl (fun q _ => hsum q), Finset.sum_update_of_mem hmem]
      rw [h.ref w', Finset.sum_eq_add_sum_sdiff_singleton_of_mem hmem] at hr
      omega
    · rw [update_of_ne hw', h.ref w']
      exact Finset.sum_congr rfl fun q _ => (hother w' hw' q).symm
  · have hqp : q ≠ p := by
      rintro rfl
      rw [hin k hc] at hk
      cases hk
    dsimp only
    rw [update_of_ne hqp]
    exact h.inside q k hc hk
  · dsimp only at hw' ⊢
    rw [update_apply] at hw'
    split_ifs at hw' with he
    · subst he
      exact hopen hw'
    · exact h.isOpen w' hw'

/-- Nobody is closing an end that has references. -/
theorem closing_setRef (hpos : 0 < u.ref w) (r : ℕ) {w' : Bool} (hc : u.closing q = some w') :
    update u.ref w r w' = 0 := by
  have h0 := h.closing q w' hc
  rw [update_of_ne, h0]
  rintro rfl
  omega

/-- A process that has a descriptor and is not in a call starts one. -/
theorem start {kind : Kind} (n : ℤ) (hp : 0 < u.fds p kind.writable) :
    Counted { u with calls := u.calls.setCall p ⟨kind, n, 0, .acquire⟩ } N := by
  refine { h with inside := fun q k hc hk => ?_ }
  rcases setCall_cases hc with ⟨rfl, rfl⟩ | ⟨-, hc⟩
  · exact hp
  · exact h.inside q k hc hk

theorem kill (p : ℕ) : Counted (u.kill p) N := by
  have hm : Moves u.calls (u.kill p).calls [] := by
    unfold Users.kill
    split
    · next k hc =>
      split
      · next hpc => exact .quiet (.setPc hc (by simp [Call.inside, hpc]) _) rfl
      · exact .quiet (.refl _) rfl
    · exact .quiet (.refl _) rfl
  exact { h.moves hm with }

theorem pipeclose (hc : u.closing p = some w) : Counted (u.pipeclose p w) N := by
  have hcall : ∀ q k, (u.calls.pipeclose w).call q = some k → k.inside = true →
      0 < u.fds q k.kind.writable := by
    intro q k hq hk
    have hkept : Kept u.calls.call (u.calls.pipeclose w).call := by
      unfold State.pipeclose
      split
      · exact .wakeup { u.calls with pipe := _ } _
      · exact .wakeup { u.calls with pipe := _ } _
    obtain ⟨k₀, hc₀, he, hk₀, -⟩ := hkept.call q k hq
    rw [← he]
    exact h.inside q k₀ hc₀ (hk₀ hk)
  have hpipe : ∀ w', (u.calls.pipeclose w).pipe.isOpen w' =
      if w' = w then false else u.calls.pipe.isOpen w' := by
    intro w'
    cases w <;> cases w' <;> rfl
  refine ⟨h.bound, h.ref, hcall, fun w' hw' => ?_, fun q w' hq => ?_, fun hf w' => ?_⟩
  · have hne : w' ≠ w := by
      rintro rfl
      have hzero : 0 < u.ref w' := hw'
      rw [h.closing p w' hc] at hzero
      exact absurd hzero (lt_irrefl 0)
    show (u.calls.pipeclose w).pipe.isOpen w' = true
    rw [hpipe, if_neg hne]
    exact h.isOpen w' hw'
  · by_cases hqp : q = p
    · subst hqp
      rw [show (u.pipeclose q w).closing q = none from update_self ..] at hq
      cases hq
    · rw [show (u.pipeclose p w).closing q = u.closing q from update_of_ne hqp ..] at hq
      exact h.closing q w' hq
  · show (u.calls.pipeclose w).pipe.isOpen w' = false
    have hf' : (u.freed || (!(u.calls.pipeclose w).pipe.readopen &&
      !(u.calls.pipeclose w).pipe.writeopen)) = true := hf
    rcases Bool.or_eq_true_iff.mp hf' with hf' | hf'
    · rw [hpipe]
      split
      · rfl
      · exact h.freed hf' w'
    · simp only [Bool.and_eq_true, Bool.not_eq_true'] at hf'
      cases w' with
      | false => exact hf'.1
      | true => exact hf'.2

theorem act {a : Act} (ha : act u a = some u') : ∃ M, Counted u' M := by
  have hidle : ∀ {q}, u.Idle q → ∀ k, u.calls.call q = some k → k.inside = false := by
    intro q hq k hc
    have hall := hq.1
    rwa [hc, all_some, Bool.not_eq_true'] at hall
  cases a with
  | start p kind n =>
    simp only [Pipes.act] at ha
    split_ifs at ha with hp
    cases ha
    exact ⟨N, h.start n hp.2⟩
  | run =>
    simp only [Pipes.act] at ha
    split at ha
    · cases ha
    · next k hc =>
      obtain ⟨_, hx, rfl⟩ := map_eq_some_iff.mp ha
      exact ⟨N, h.moves (moves_of_run hc hx)⟩
  | kill p =>
    cases ha
    exact ⟨N, h.kill p⟩
  | filedup p q w =>
    simp only [Pipes.act] at ha
    split_ifs at ha with hpq
    cases ha
    obtain ⟨-, hq, hp⟩ := hpq
    have hpos := h.ref_pos hp
    exact ⟨max N (q + 1), (h.mono (le_max_left _ _)).setFds
      ((Nat.lt_succ_self q).trans_le (le_max_right _ _)) (by omega)
      (fun _ => h.isOpen w hpos) (hidle hq) (fun q' w' hc => h.closing_setRef hpos _ hc)⟩
  | fileclose p w =>
    simp only [Pipes.act] at ha
    split at ha
    · next hp =>
      cases ha
      obtain ⟨hidlep, hp⟩ := hp
      have hpos := h.ref_pos hp
      have hN : p < N := by
        by_contra hge
        rw [h.bound p w (not_lt.mp hge)] at hp
        exact absurd hp (lt_irrefl 0)
      refine ⟨N, h.setFds hN (by omega) (fun _ => h.isOpen w hpos) (hidle hidlep)
        (fun q w' hc => ?_)⟩
      split at hc
      · exact h.closing_setRef hpos _ hc
      · next hlast =>
        rw [update_apply] at hc
        split_ifs at hc with hqp
        · subst hqp
          cases hc
          rw [update_self]
          omega
        · exact h.closing_setRef hpos _ hc
    · cases ha
  | pipeclose =>
    simp only [Pipes.act] at ha
    split at ha
    · cases ha
    · next w hc =>
      split at ha
      · cases ha
        exact ⟨N, h.pipeclose hc⟩
      · cases ha

end Counted

theorem counted_made (data : ℕ → UInt8) : Counted (made data) 1 where
  bound p w hp := if_neg (by omega)
  ref w := by
    rw [Finset.sum_range_one]
    rfl
  inside p k hc := by cases hc
  isOpen w _ := by cases w <;> rfl
  closing p w hc := by cases hc
  freed hf := by cases hf

theorem reasons_made (data : ℕ → UInt8) : Reasons (made data) where
  lock p := by
    rintro ⟨k, hc, -⟩
    cases hc
  readers p := by
    rintro ⟨k, hc, -⟩
    cases hc
  writers p := by
    rintro ⟨k, hc, -⟩
    cases hc

/-- **Who sleeps has a reason, and who is in a call has the page.** In every run in which
no process is killed in the loop of `pipewrite` with the lock: when the lock is free, a
process that sleeps in `piperead` waits for an empty ring that can be filled, and one that
sleeps in `pipewrite` for a full ring that can be emptied; and the page is not freed while
a process is in a call. -/
theorem sleeps_with_reason {data : ℕ → UInt8} (h : Lts.Runs act Calm (made data) u) :
    (u.calls.lock = none → (∀ p, Asleep u.calls .nread p →
        u.calls.pipe.nread = u.calls.pipe.nwrite ∧ u.calls.pipe.writeopen = true) ∧
      ∀ p, Asleep u.calls .nwrite p →
        u.calls.pipe.nwrite = u.calls.pipe.nread + 512 ∧ u.calls.pipe.readopen = true) ∧
    ∀ p k, u.calls.call p = some k → k.inside = true →
      0 < u.fds p k.kind.writable ∧ u.freed = false := by
  obtain ⟨hr, N, hN⟩ : Reasons u ∧ ∃ N, Counted u N :=
    h.invariant (I := fun u => Reasons u ∧ ∃ N, Counted u N)
      ⟨reasons_made data, 1, counted_made data⟩
      (fun u a u' hI hok ha => by
        obtain ⟨hr, N, hN⟩ := hI
        exact ⟨hr.act hok ha, hN.act ha⟩)
  exact ⟨hr.of_free, fun p k hc hk => ⟨hN.inside p k hc hk, hN.not_freed hc hk⟩⟩

/-- Whether process `p` sleeps on the channel. -/
def sleepsOn (s : State) (chan : Chan) (p : ℕ) : Bool :=
  (s.call p).any (fun k => decide (k.pc = .asleep) && decide (k.kind.chan = chan))

theorem asleep_of_sleepsOn (h : sleepsOn s chan p = true) : Asleep s chan p := by
  obtain ⟨k, hc, hk⟩ := (any_eq_true ..).mp h
  rw [Bool.and_eq_true, decide_eq_true_eq, decide_eq_true_eq] at hk
  exact ⟨k, hc, hk⟩

/-- Process 0 has a child, which sleeps in `piperead`. -/
def childReads : List Act :=
  [.filedup 0 1 false, .start 1 (.read (fun _ => true)) 1, .run 1, .run 1]

/-- The child sleeps, and the ring is empty. -/
theorem sleeps_with_reason_child : ∃ u, Lts.Runs act Calm (made (fun _ => 0)) u ∧
    Asleep u.calls .nread 1 ∧ u.calls.pipe.nread = u.calls.pipe.nwrite ∧ u.freed = false := by
  obtain ⟨u, hrun, hs, hl⟩ : ∃ u ∈ Lts.runIf act Calm (made (fun _ => 0)) childReads,
      sleepsOn u.calls .nread 1 = true ∧ u.calls.lock = none := by decide +kernel
  replace hrun := Lts.runs_of_runIf hrun
  have hasleep := asleep_of_sleepsOn hs
  obtain ⟨hreason, hpage⟩ := sleeps_with_reason hrun
  obtain ⟨k, hc, hpc, -⟩ := id hasleep
  exact ⟨u, hrun, hasleep, ((hreason hl).1 1 hasleep).1,
    (hpage 1 k hc (by simp [Call.inside, hpc])).2⟩

/-- **A reader that is stranded**: the parent writes two bytes and is killed after the
first. It returns -1, the lock is free, the ring is not empty, and the child sleeps. -/
theorem reader_stranded : ∃ u, Lts.Runs act (fun _ _ => True) (made (fun _ => 0)) u ∧
    u.calls.lock = none ∧ Asleep u.calls .nread 1 ∧ u.calls.pipe.nread ≠ u.calls.pipe.nwrite := by
  obtain ⟨u, hrun, hs, hl, hne⟩ : ∃ u ∈ Lts.run act (made (fun _ => 0))
      (childReads ++ [.start 0 (.write (fun _ => some 7)) 2, .run 0, .run 0, .kill 0, .run 0]),
      sleepsOn u.calls .nread 1 = true ∧ u.calls.lock = none ∧
      u.calls.pipe.nread ≠ u.calls.pipe.nwrite := by decide +kernel
  exact ⟨u, Lts.runs_of_run hrun, hl, asleep_of_sleepsOn hs, hne⟩

end Xv6.Pipes
