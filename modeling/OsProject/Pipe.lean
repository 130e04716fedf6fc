import OsProject.Ring
import OsProject.Runs

/-!
# Pipes

`pipewrite`, `piperead` and `pipeclose` of `pipe.c`, for any number of calls on
one pipe. A call holds the lock of the pipe from `acquire` until it sleeps or
returns; a round of one of its loops is one step. The test of `killed` and the
`sleep` after it are in one round, so that no kill comes between them
(`SleepLoops` has them apart). Between two steps of a call that sleeps, others
run, the call may be woken for no reason of the pipe's, and its process may be
killed.

What is put into the ring and what is taken out of it is recorded, byte by byte,
in the order in which it happens.
-/

namespace Xv6.Pipes

open Function List Option

/-- Size of the ring (`pipe.c`). -/
abbrev PIPESIZE : ℕ := 512

/-- `struct pipe`, without its lock. -/
structure Pipe where
  data : ℕ → UInt8
  nread : UInt32
  nwrite : UInt32
  readopen : Bool
  writeopen : Bool

/-- What a call sleeps on: the address of a counter. -/
inductive Chan
  | nread | nwrite
  deriving DecidableEq

/-- Where a call is. -/
inductive Pc
  /-- About to acquire the lock: at the start, or on the way out of `sleep`. -/
  | acquire
  /-- At the head of the `while` loop, with the lock. -/
  | loop
  /-- At the head of the `for` loop of `piperead`, with the lock. -/
  | copy
  | asleep
  | returned (r : ℤ)
  deriving DecidableEq

/-- `pipewrite` from user memory, where `src i` is what `copyin` finds at
`addr + i`; or `piperead` into it, where `dst i` is whether `copyout` can write
there. -/
inductive Kind
  | write (src : ℕ → Option UInt8)
  | read (dst : ℕ → Bool)

/-- The channel a call sleeps on. -/
def Kind.chan : Kind → Chan
  | write _ => .nwrite
  | read _ => .nread

/-- A call, with its variables `n` and `i`. -/
structure Call where
  kind : Kind
  n : ℤ
  i : ℕ
  pc : Pc

/-- A call that has not returned. -/
def Call.inside (k : Call) : Bool :=
  match k.pc with
  | .returned _ => false
  | _ => true

/-- A byte put into the ring by a call, or taken out of it. -/
inductive Event
  | put (c : ℕ) (ch : UInt8)
  | took (c : ℕ) (ch : UInt8)

/-- The pipe, who holds its lock, and the calls. -/
structure State where
  pipe : Pipe
  lock : Option ℕ
  call : ℕ → Option Call

namespace State

/-- A call at another place. -/
def setCall (s : State) (c : ℕ) (k : Call) : State :=
  { s with call := update s.call c (some k) }

/-- `wakeup`: the calls that sleep on the channel go on. -/
def wakeup (s : State) (chan : Chan) : State :=
  { s with call := fun c => (s.call c).map (fun k =>
      if k.pc = .asleep ∧ k.kind.chan = chan then { k with pc := .acquire } else k) }

/-- `sleep`, which releases the lock. -/
def sleep (s : State) (c : ℕ) (k : Call) : State :=
  { s.setCall c { k with pc := .asleep } with lock := none }

/-- `release` and `return r`. -/
def ret (s : State) (c : ℕ) (k : Call) (r : ℤ) : State :=
  { s.setCall c { k with pc := .returned r } with lock := none }

/-- A byte into the ring. -/
def put (s : State) (ch : UInt8) : State :=
  { s with pipe := { s.pipe with
      data := update s.pipe.data (s.pipe.nwrite.toNat % PIPESIZE) ch
      nwrite := s.pipe.nwrite + 1 } }

/-- A byte out of the ring. -/
def take (s : State) : State × UInt8 :=
  ({ s with pipe := { s.pipe with nread := s.pipe.nread + 1 } },
    s.pipe.data (s.pipe.nread.toNat % PIPESIZE))

/-- A round of the loop of `pipewrite`. -/
def pipewrite (s : State) (c : ℕ) (k : Call) (src : ℕ → Option UInt8) (killed : Bool) :
    State × List Event :=
  if (k.i : ℤ) < k.n then
    if s.pipe.readopen = false ∨ killed = true then (s.ret c k (-1), [])
    else if s.pipe.nwrite = s.pipe.nread + 512 then ((s.wakeup .nread).sleep c k, [])
    else
      match src k.i with
      | none => ((s.wakeup .nread).ret c k k.i, [])
      | some ch => ((s.put ch).setCall c { k with i := k.i + 1 }, [.put c ch])
  else ((s.wakeup .nread).ret c k k.i, [])

/-- A round of the first loop of `piperead`. -/
def piperead (s : State) (c : ℕ) (k : Call) (killed : Bool) : State :=
  if s.pipe.nread = s.pipe.nwrite ∧ s.pipe.writeopen = true then
    if killed then s.ret c k (-1) else s.sleep c k
  else s.setCall c { k with pc := .copy }

/-- A round of the second loop of `piperead`. A byte that cannot be copied out is
gone. -/
def pipereadCopy (s : State) (c : ℕ) (k : Call) (dst : ℕ → Bool) : State × List Event :=
  if (k.i : ℤ) < k.n then
    if s.pipe.nread = s.pipe.nwrite then ((s.wakeup .nwrite).ret c k k.i, [])
    else
      let (s, ch) := s.take
      if dst k.i then (s.setCall c { k with i := k.i + 1 }, [.took c ch])
      else ((s.wakeup .nwrite).ret c k k.i, [.took c ch])
  else ((s.wakeup .nwrite).ret c k k.i, [])

/-- The next step of a call. -/
def run (s : State) (c : ℕ) (k : Call) (killed : Bool) : Option (State × List Event) :=
  match k.pc, k.kind with
  | .acquire, _ =>
    if s.lock = none then some ({ s.setCall c { k with pc := .loop } with lock := some c }, [])
    else none
  | .loop, .write src => some (s.pipewrite c k src killed)
  | .loop, .read _ => some (s.piperead c k killed, [])
  | .copy, .read dst => some (s.pipereadCopy c k dst)
  | _, _ => none

/-- `pipeclose` of one end. -/
def pipeclose (s : State) (writable : Bool) : State :=
  if writable then { s with pipe := { s.pipe with writeopen := false } }.wakeup .nread
  else { s with pipe := { s.pipe with readopen := false } }.wakeup .nwrite

end State

/-- What happens next: a new call, a step of a call whose process is killed or
not, a call woken by `kill` or `sigcont`, an end closed. -/
inductive Label
  | start (c : ℕ) (kind : Kind) (n : ℤ)
  | run (c : ℕ) (killed : Bool)
  | wake (c : ℕ)
  | close (writable : Bool)

/-- One step. -/
def exec (s : State) : Label → Option (State × List Event)
  | .start c kind n =>
    match s.call c with
    | none => some (s.setCall c ⟨kind, n, 0, .acquire⟩, [])
    | some _ => none
  | .run c killed =>
    match s.call c with
    | none => none
    | some k => s.run c k killed
  | .wake c =>
    match s.call c with
    | none => none
    | some k => if k.pc = .asleep then some (s.setCall c { k with pc := .acquire }, []) else none
  | .close writable => if s.lock = none then some (s.pipeclose writable, []) else none

/-- One step, with what has been put in and taken out so far. -/
def step (x : State × List Event) (l : Label) : Option (State × List Event) :=
  (exec x.1 l).map (fun y => (y.1, x.2 ++ y.2))

/-- A pipe as `pipealloc` makes it, in a page with any contents. -/
def fresh (data : ℕ → UInt8) : State where
  pipe := ⟨data, 0, 0, true, true⟩
  lock := none
  call := fun _ => none

/-! ## The order of the bytes -/

/-- The bytes that have been put in. -/
def putBytes (log : List Event) : List UInt8 :=
  log.filterMap (fun e => match e with | .put _ ch => some ch | .took _ _ => none)

/-- Those that one call has put in. -/
def putBy (c : ℕ) (log : List Event) : List UInt8 :=
  log.filterMap (fun e => match e with
    | .put c' ch => if c' = c then some ch else none
    | .took _ _ => none)

/-- The bytes that have been taken out. -/
def tookBytes (log : List Event) : List UInt8 :=
  log.filterMap (fun e => match e with | .put _ _ => none | .took _ ch => some ch)

variable {s s' : State} {c : ℕ} {k : Call} {ch : UInt8} {log : List Event}
  {evs : List Event} {l : Label} {f g g' : ℕ → Option Call}

@[simp] theorem State.call_setCall_self (s : State) (c : ℕ) (k : Call) :
    (s.setCall c k).call c = some k := update_self ..

theorem State.call_setCall_of_ne (s : State) (k : Call) {c' : ℕ} (h : c' ≠ c) :
    (s.setCall c k).call c' = s.call c' := update_of_ne h ..

/-- Which call it is, once a call has been set. -/
theorem State.setCall_cases {p : ℕ} {k' : Call} (h : (s.setCall c k).call p = some k') :
    p = c ∧ k' = k ∨ p ≠ c ∧ s.call p = some k' := by
  by_cases hp : p = c
  · rw [hp, call_setCall_self] at h
    exact .inl ⟨hp, (Option.some.inj h).symm⟩
  · exact .inr ⟨hp, (call_setCall_of_ne s k hp).symm.trans h⟩

/-- The calls are the same ones, and writers have written as much. Nobody has entered a call,
and nobody is back in one. -/
structure Kept (f g : ℕ → Option Call) : Prop where
  call : ∀ c k', g c = some k' → ∃ k, f c = some k ∧ k.kind = k'.kind ∧
    (k'.inside = true → k.inside = true) ∧ ∀ src, k.kind = .write src → k.i = k'.i
  known : ∀ c, g c = none → f c = none

namespace Kept

theorem refl (f : ℕ → Option Call) : Kept f f :=
  ⟨fun _ k hc => ⟨k, hc, rfl, id, fun _ _ => rfl⟩, fun _ h => h⟩

theorem trans (h : Kept f g) (h' : Kept g g') : Kept f g' := by
  refine ⟨fun c k₂ hc => ?_, fun c hc => h.known c (h'.known c hc)⟩
  obtain ⟨k₁, hc₁, hk₁, hin₁, hi₁⟩ := h'.call c k₂ hc
  obtain ⟨k, hc, hk, hin, hi⟩ := h.call c k₁ hc₁
  exact ⟨k, hc, hk.trans hk₁, hin ∘ hin₁,
    fun src hs => (hi src hs).trans (hi₁ src (hk.symm.trans hs))⟩

/-- A call that moves on: if it writes, with as many bytes written. -/
theorem setCall {k' : Call} (hc : f c = some k) (hin : k.inside = true) (hkind : k'.kind = k.kind)
    (hi : k'.i = k.i ∨ ∃ dst, k.kind = .read dst) : Kept f (update f c (some k')) := by
  refine ⟨fun c₂ k₂ hc₂ => ?_, fun c₂ hc₂ => ?_⟩
  · by_cases h : c₂ = c
    · rw [h, update_self] at hc₂
      cases hc₂
      refine ⟨k, by rw [h, hc], hkind.symm, fun _ => hin, fun src hs => ?_⟩
      rcases hi with hi | ⟨dst, hd⟩
      · exact hi.symm
      · rw [hd] at hs
        cases hs
    · rw [update_of_ne h] at hc₂
      exact (refl f).call c₂ k₂ hc₂
  · by_cases h : c₂ = c
    · rw [h, update_self] at hc₂
      cases hc₂
    · rwa [update_of_ne h] at hc₂

/-- A call goes to another place. -/
theorem setPc (hc : f c = some k) (hin : k.inside = true) (pc : Pc) :
    Kept f (update f c (some { k with pc := pc })) := setCall hc hin rfl (.inl rfl)

theorem wakeup (s : State) (chan : Chan) : Kept s.call (s.wakeup chan).call := by
  refine ⟨fun c k' hc => ?_, fun c hc => map_eq_none_iff.mp hc⟩
  obtain ⟨k, hck, rfl⟩ := map_eq_some_iff.mp hc
  by_cases hw : k.pc = .asleep ∧ k.kind.chan = chan
  · rw [if_pos hw]
    exact ⟨k, hck, rfl, fun _ => by simp [Call.inside, hw.1], fun _ _ => rfl⟩
  · rw [if_neg hw]
    exact (refl _).call c k hck

/-- `wakeup` of one channel, and then this call elsewhere. -/
theorem wakeup_setPc (hc : s.call c = some k) (hin : k.inside = true) (hpc : k.pc ≠ .asleep)
    (chan : Chan) (pc : Pc) :
    Kept s.call ((s.wakeup chan).setCall c { k with pc := pc }).call := by
  have hw : (s.wakeup chan).call c = some k := by
    simp [State.wakeup, hc, hpc]
  exact (wakeup s chan).trans (setPc hw hin pc)

end Kept

/-- **What a step of a call does to the ring**: nothing; or a writer that has found room puts
its next byte in; or a reader takes a byte out. -/
inductive Moves (s : State) : State → List Event → Prop
  | quiet {s' : State} : Kept s.call s'.call → s'.pipe = s.pipe → Moves s s' []
  | put {c : ℕ} {k : Call} {src : ℕ → Option UInt8} {ch : UInt8} : s.call c = some k →
      k.inside = true → k.kind = .write src → src k.i = some ch →
      s.pipe.nwrite ≠ s.pipe.nread + 512 →
      Moves s ((s.put ch).setCall c { k with i := k.i + 1 }) [.put c ch]
  | took {s' : State} {c : ℕ} : s.pipe.nread ≠ s.pipe.nwrite → s'.pipe = s.take.1.pipe →
      Kept s.call s'.call → Moves s s' [.took c s.take.2]

section

variable (hc : s.call c = some k)
include hc

theorem moves_pipewrite {src : ℕ → Option UInt8} (hpc : k.pc = .loop) (hk : k.kind = .write src)
    (killed : Bool) : Moves s (s.pipewrite c k src killed).1 (s.pipewrite c k src killed).2 := by
  have hne : k.pc ≠ .asleep := by simp [hpc]
  have hin : k.inside = true := by simp [Call.inside, hpc]
  unfold State.pipewrite
  split
  · split
    · exact .quiet (.setPc hc hin _) rfl
    · split
      · exact .quiet (.wakeup_setPc hc hin hne _ _) rfl
      · next hfull =>
        split
        · exact .quiet (.wakeup_setPc hc hin hne _ _) rfl
        · next hsrc => exact .put hc hin hk hsrc hfull
  · exact .quiet (.wakeup_setPc hc hin hne _ _) rfl

theorem moves_piperead (hpc : k.pc = .loop) (killed : Bool) :
    Moves s (s.piperead c k killed) [] := by
  have hin : k.inside = true := by simp [Call.inside, hpc]
  unfold State.piperead
  split
  · split
    · exact .quiet (.setPc hc hin _) rfl
    · exact .quiet (.setPc hc hin _) rfl
  · exact .quiet (.setPc hc hin _) rfl

theorem moves_pipereadCopy {dst : ℕ → Bool} (hpc : k.pc = .copy) (hk : k.kind = .read dst) :
    Moves s (s.pipereadCopy c k dst).1 (s.pipereadCopy c k dst).2 := by
  have hne : k.pc ≠ .asleep := by simp [hpc]
  have hin : k.inside = true := by simp [Call.inside, hpc]
  have hc' : s.take.1.call c = some k := hc
  unfold State.pipereadCopy
  split
  · split
    · exact .quiet (.wakeup_setPc hc hin hne _ _) rfl
    · next hempty =>
      dsimp only
      split
      · exact .took hempty rfl (.setCall hc hin rfl (.inr ⟨dst, hk⟩))
      · exact .took hempty rfl (.wakeup_setPc hc' hin hne _ _)
  · exact .quiet (.wakeup_setPc hc hin hne _ _) rfl

/-- **Every step of a call is one of these.** -/
theorem moves_of_run {killed : Bool} (h : s.run c k killed = some (s', evs)) : Moves s s' evs := by
  unfold State.run at h
  split at h
  · next hpc =>
    split at h
    · cases h
      exact .quiet (.setPc hc (by simp [Call.inside, hpc]) _) rfl
    · cases h
  · next src hpc hk =>
    have := moves_pipewrite hc hpc hk killed
    rwa [some.inj h] at this
  · next hpc _ =>
    cases h
    exact moves_piperead hc hpc killed
  · next dst hpc hk =>
    have := moves_pipereadCopy hc hpc hk
    rwa [some.inj h] at this
  · cases h

end

/-- **The ring and the record.** The ring holds what has been put in from the first
byte that has not been taken out, the counters count both, and what a writer has
put in is the start of its source. -/
structure Inv (s : State) (log : List Event) : Prop where
  holds : Ring.Holds PIPESIZE s.pipe.data (putBytes log) (tookBytes log).length
  nread : s.pipe.nread = UInt32.ofNat (tookBytes log).length
  nwrite : s.pipe.nwrite = UInt32.ofNat (putBytes log).length
  order : tookBytes log <+: putBytes log
  own : ∀ c k src, s.call c = some k → k.kind = .write src →
    (putBy c log).map some = (List.range k.i).map src
  silent : ∀ c, s.call c = none → putBy c log = []

theorem Inv.init (data : ℕ → UInt8) : Inv (fresh data) [] :=
  ⟨.nil data, rfl, rfl, prefix_refl [], (fun _ _ _ hc => by cases hc), fun _ _ => rfl⟩

section

variable (I : Inv s log)
include I

theorem Inv.kept (h : Kept s.call g) : (∀ k src, g c = some k → k.kind = .write src →
      (putBy c log).map some = (List.range k.i).map src) ∧ (g c = none → putBy c log = []) := by
  refine ⟨fun k src hc hk => ?_, fun hc => I.silent c (h.known c hc)⟩
  obtain ⟨k₀, hc₀, hk₀, -, hi⟩ := h.call c k hc
  rw [← hi src (hk₀.trans hk)]
  exact I.own c k₀ src hc₀ (hk₀.trans hk)

/-- A step that neither puts nor takes a byte. -/
theorem Inv.quiet (h : Kept s.call s'.call) (hdata : s'.pipe.data = s.pipe.data)
    (hr : s'.pipe.nread = s.pipe.nread) (hw : s'.pipe.nwrite = s.pipe.nwrite) : Inv s' log :=
  ⟨hdata ▸ I.holds, hr ▸ I.nread, hw ▸ I.nwrite, I.order, fun _ => (I.kept h).1,
    fun _ => (I.kept h).2⟩

/-- A new call. -/
theorem Inv.start (hc : s.call c = none) (kind : Kind) (n : ℤ) :
    Inv (s.setCall c ⟨kind, n, 0, .acquire⟩) log := by
  refine { I with own := fun c₂ k₂ src hc₂ hk₂ => ?_, silent := fun c₂ hc₂ => I.silent c₂ ?_ }
  · rcases State.setCall_cases hc₂ with ⟨rfl, rfl⟩ | ⟨-, hc₂⟩
    · rw [I.silent c₂ hc]
      rfl
    · exact I.own c₂ k₂ src hc₂ hk₂
  · by_cases h : c₂ = c
    · rw [h, hc]
    · rwa [State.call_setCall_of_ne _ _ h] at hc₂

/-- A writer that has found the ring not full has room. -/
theorem Inv.room (hfull : s.pipe.nwrite ≠ s.pipe.nread + 512) :
    (putBytes log).length < (tookBytes log).length + PIPESIZE := by
  refine lt_of_le_of_ne I.holds.room fun he => hfull ?_
  rw [I.nread, I.nwrite, he, UInt32.ofNat_add]
  rfl

/-- A reader that has found the ring not empty finds a byte. -/
theorem Inv.pending (hempty : s.pipe.nread ≠ s.pipe.nwrite) :
    (tookBytes log).length < (putBytes log).length := by
  refine lt_of_le_of_ne I.holds.le fun he => hempty ?_
  rw [I.nread, I.nwrite, he]

theorem Inv.put {src : ℕ → Option UInt8} (hc : s.call c = some k) (hk : k.kind = .write src)
    (hsrc : src k.i = some ch) (hfull : s.pipe.nwrite ≠ s.pipe.nread + 512) :
    Inv ((s.put ch).setCall c { k with i := k.i + 1 }) (log ++ [.put c ch]) := by
  have hput : putBytes (log ++ [.put c ch]) = putBytes log ++ [ch] := by
    simp [putBytes]
  have htook : tookBytes (log ++ [.put c ch]) = tookBytes log := by
    simp [tookBytes]
  refine ⟨?_, ?_, ?_, ?_, fun c₂ k₂ src₂ hc₂ hk₂ => ?_, fun c₂ hc₂ => ?_⟩
  · rw [hput, htook]
    show Ring.Holds _ (update _ (s.pipe.nwrite.toNat % PIPESIZE) ch) _ _
    rw [I.nwrite, Ring.toNat_ofNat_mod (by decide)]
    exact I.holds.push (I.room hfull)
  · rw [htook]
    exact I.nread
  · show s.pipe.nwrite + 1 = _
    rw [hput, I.nwrite, length_append, UInt32.ofNat_add]
    rfl
  · rw [hput, htook]
    exact I.order.trans (prefix_append _ _)
  · by_cases h : c₂ = c
    · subst h
      obtain rfl : { k with i := k.i + 1 } = k₂ := by simpa using hc₂
      obtain rfl : src = src₂ := Kind.write.inj (hk.symm.trans hk₂)
      rw [range_succ, map_append, ← I.own c₂ k src hc hk]
      simp [putBy, hsrc]
    · rw [State.call_setCall_of_ne _ _ h] at hc₂
      rw [← I.own c₂ k₂ src₂ hc₂ hk₂]
      simp [putBy, Ne.symm h]
  · by_cases h : c₂ = c
    · subst h
      simp at hc₂
    · rw [State.call_setCall_of_ne _ _ h] at hc₂
      rw [← I.silent c₂ hc₂]
      simp [putBy, Ne.symm h]

theorem Inv.took (hempty : s.pipe.nread ≠ s.pipe.nwrite) (hpipe : s'.pipe = s.take.1.pipe)
    (h : Kept s.call s'.call) : Inv s' (log ++ [.took c s.take.2]) := by
  have hput : putBytes (log ++ [.took c s.take.2]) = putBytes log := by
    simp [putBytes]
  have htook : tookBytes (log ++ [.took c s.take.2]) = tookBytes log ++ [s.take.2] := by
    simp [tookBytes]
  have hby : ∀ c₂, putBy c₂ (log ++ [.took c s.take.2]) = putBy c₂ log := by
    simp [putBy]
  have hlen := I.pending hempty
  have hread : s.take.2 = (putBytes log)[(tookBytes log).length] := by
    show s.pipe.data (s.pipe.nread.toNat % PIPESIZE) = _
    rw [I.nread, Ring.toNat_ofNat_mod (by decide)]
    exact I.holds.read hlen
  refine ⟨?_, ?_, ?_, ?_, fun c₂ k₂ src₂ hc₂ hk₂ => ?_, fun c₂ hc₂ => ?_⟩
  · rw [hput, htook, length_append, hpipe]
    exact I.holds.pop hlen
  · rw [htook, hpipe, length_append, UInt32.ofNat_add, ← I.nread]
    rfl
  · rw [hput, hpipe]
    exact I.nwrite
  · -- the byte that is taken continues the prefix
    rw [hput, htook, hread]
    exact Ring.concat_getElem_prefix I.order hlen
  · rw [hby]
    exact (I.kept h).1 k₂ src₂ hc₂ hk₂
  · rw [hby]
    exact (I.kept h).2 hc₂

theorem Inv.moves (h : Moves s s' evs) : Inv s' (log ++ evs) := by
  cases h with
  | quiet hq hpipe =>
    rw [append_nil]
    exact I.quiet hq (by rw [hpipe]) (by rw [hpipe]) (by rw [hpipe])
  | put hc hin hk hsrc hfull => exact I.put hc hk hsrc hfull
  | took hempty hpipe hs => exact I.took hempty hpipe hs

/-- **A step.** -/
theorem Inv.exec (h : exec s l = some (s', evs)) : Inv s' (log ++ evs) := by
  unfold Pipes.exec at h
  cases l with
  | start c kind n =>
    dsimp only at h
    split at h
    · next hc =>
      cases h
      rw [append_nil]
      exact I.start hc kind n
    · cases h
  | run =>
    dsimp only at h
    split at h
    · cases h
    · next hc => exact I.moves (moves_of_run hc h)
  | wake =>
    dsimp only at h
    split at h
    · cases h
    · next hc =>
      split_ifs at h with hpc
      cases h
      exact I.moves (.quiet (.setPc hc (by simp [Call.inside, hpc]) _) rfl)
  | close =>
    dsimp only at h
    split_ifs at h
    cases h
    rw [append_nil]
    unfold State.pipeclose
    split
    · exact I.quiet (.wakeup { s with pipe := _ } _) rfl rfl rfl
    · exact I.quiet (.wakeup { s with pipe := _ } _) rfl rfl rfl

end

theorem Inv.of_runs {data : ℕ → UInt8} {x : State × List Event}
    (h : Lts.Runs step (fun _ _ => True) (fresh data, []) x) : Inv x.1 x.2 := by
  refine h.invariant (I := fun x => Inv x.1 x.2) (Inv.init data) fun x l x' I _ hstep => ?_
  obtain ⟨⟨_, _⟩, he, rfl⟩ := map_eq_some_iff.mp hstep
  exact I.exec he

/-- The number of bytes in the ring, as the counters give it. -/
theorem Inv.toNat_sub (I : Inv s log) :
    (s.pipe.nwrite - s.pipe.nread).toNat = (putBytes log).length - (tookBytes log).length := by
  rw [I.nread, I.nwrite]
  exact Ring.toNat_ofNat_sub I.holds.le I.holds.room (by decide)

/-- **Pipes are first in, first out.** Whatever writers and readers of the pipe do, in
whatever order, the counters are at most `PIPESIZE` apart; the bytes that readers
have taken out of the ring are the first of those that writers have put in; the
counters count both, modulo 2^32; and what a writer has put in are the bytes of its
source up to where it is, in their order. -/
theorem pipe_fifo {data : ℕ → UInt8} {s : State} {log : List Event}
    (h : Lts.Runs step (fun _ _ => True) (fresh data, []) (s, log)) :
    (s.pipe.nwrite - s.pipe.nread).toNat ≤ PIPESIZE ∧
      (s.pipe.nwrite - s.pipe.nread).toNat = (putBytes log).length - (tookBytes log).length ∧
      tookBytes log <+: putBytes log ∧ s.pipe.nread = UInt32.ofNat (tookBytes log).length ∧
      s.pipe.nwrite = UInt32.ofNat (putBytes log).length ∧
      ∀ c k src, s.call c = some k → k.kind = .write src →
        (putBy c log).map some = (List.range k.i).map src := by
  have I := Inv.of_runs h
  have hroom := I.holds.room
  refine ⟨?_, I.toNat_sub, I.order, I.nread, I.nwrite, I.own⟩
  rw [I.toNat_sub]
  omega

/-- A reader sleeps on an empty pipe, is woken by a writer and takes what it wrote. -/
theorem pipe_fifo_wake :
    ∃ s log, Lts.Runs step (fun _ _ => True) (fresh (fun _ => 0), []) (s, log) ∧
      tookBytes log = [7] ∧ putBytes log = [7, 8] ∧ tookBytes log <+: putBytes log := by
  obtain ⟨⟨s, log⟩, hrun, htook, hput⟩ : ∃ x ∈ Lts.run step (fresh (fun _ => 0), [])
      [.start 0 (.read fun _ => true) 1, .run 0 false, .run 0 false,
       .start 1 (.write fun i => if i < 2 then some (7 + UInt8.ofNat i) else none) 5,
       .run 1 false, .run 1 false, .run 1 false, .run 1 false,
       .run 0 false, .run 0 false, .run 0 false, .run 0 false],
      tookBytes x.2 = [7] ∧ putBytes x.2 = [7, 8] := by decide +kernel
  replace hrun := Lts.runs_of_run hrun
  exact ⟨s, log, hrun, htook, hput, (pipe_fifo hrun).2.2.1⟩

end Xv6.Pipes
