import Mathlib.Logic.Relation

/-!
# Runs of a labelled transition function

A system is given by a partial function `step : σ → ℓ → Option σ`: a state,
a label that says who moves and how, and the state after the move, or
nothing when the move is not possible there.

What is proved about such a system is proved of its *runs*, and often only
of the runs whose moves all satisfy a side condition. The condition reads
the state the move starts from, so it is a relation `ok : σ → ℓ → Prop`
rather than a set of labels. `Runs step ok s s'` says that some sequence of
moves, each satisfying `ok` where it is made, leads from `s` to `s'`.

`Runs.invariant` is the induction every safety property goes through. A
property that holds *until* something happens is not an invariant, and
`Runs.stays_until` is its rule: either the property still holds at the end, or
the run splits at the first move that ended it. `run` executes a list of
labels, and `runs_of_run` and `runs_of_runIf` turn an execution into a run.

A property of the *history* of a run – that something has happened once, or
that what happens now was announced before – is an invariant of the system
that also keeps a log (`logged`).
-/

namespace Lts

open Option

variable {σ ℓ : Type*} {step : σ → ℓ → Option σ} {ls : List ℓ}

/-- One move that satisfies the side condition `ok` where it is made. -/
def Guarded (step : σ → ℓ → Option σ) (ok : σ → ℓ → Prop) (s s' : σ) : Prop :=
  ∃ l, ok s l ∧ step s l = some s'

/-- **A run**: finitely many moves, each satisfying `ok` where it is made. -/
def Runs (step : σ → ℓ → Option σ) (ok : σ → ℓ → Prop) : σ → σ → Prop :=
  Relation.ReflTransGen (Guarded step ok)

namespace Runs

variable {ok ok' : σ → ℓ → Prop} {s s' s'' : σ}

/-- The run without a move. -/
theorem refl (s : σ) : Runs step ok s s := Relation.ReflTransGen.refl

/-- A run followed by one more move. -/
theorem tail {l : ℓ} (h : Runs step ok s s') (hok : ok s' l)
    (hs : step s' l = some s'') : Runs step ok s s'' :=
  Relation.ReflTransGen.tail h ⟨l, hok, hs⟩

/-- Two runs, one after the other. -/
theorem trans (h : Runs step ok s s') (h' : Runs step ok s' s'') : Runs step ok s s'' :=
  Relation.ReflTransGen.trans h h'

/-- A weaker side condition admits more runs. -/
theorem mono (hok : ∀ s l, ok s l → ok' s l) (h : Runs step ok s s') : Runs step ok' s s' :=
  Relation.ReflTransGen.mono (fun _ _ ⟨l, hl, hs⟩ => ⟨l, hok _ _ hl, hs⟩) _ _ h

/-- **The invariant rule**: what holds at the start and is kept by every
admitted move holds at the end. -/
theorem invariant {I : σ → Prop} (h : Runs step ok s s') (h₀ : I s)
    (hI : ∀ s l s', I s → ok s l → step s l = some s' → I s') : I s' := by
  induction h with
  | refl => exact h₀
  | tail _ hstep ih =>
    obtain ⟨l, hl, hs⟩ := hstep
    exact hI _ l _ ih hl hs

/-- **The rule for what holds until a move of a given kind**: if every
admitted move either keeps `P` or is one that `Q` describes, then `P` holds
at the end of the run, or the run splits at a move `Q` describes that was
made while `P` still held. -/
theorem stays_until {P : σ → Prop} {Q : σ → ℓ → σ → Prop} (h : Runs step ok s s') (h₀ : P s)
    (hP : ∀ s₁ l s₂, Runs step ok s s₁ → P s₁ → ok s₁ l → step s₁ l = some s₂ → P s₂ ∨ Q s₁ l s₂) :
    P s' ∨ ∃ s₁ l s₂, Runs step ok s s₁ ∧ P s₁ ∧ ok s₁ l
      ∧ step s₁ l = some s₂ ∧ Q s₁ l s₂ ∧ Runs step ok s₂ s' := by
  induction h with
  | refl => exact .inl h₀
  | tail hrun hstep ih =>
    obtain ⟨l, hl, hs⟩ := hstep
    rcases ih with hp | ⟨s₁, l₁, s₂, hr₁, hp₁, hok₁, hs₁, hq₁, hr₂⟩
    · rcases hP _ l _ hrun hp hl hs with hp' | hq
      · exact .inl hp'
      · exact .inr ⟨_, l, _, hrun, hp, hl, hs, hq, refl _⟩
    · exact .inr ⟨s₁, l₁, s₂, hr₁, hp₁, hok₁, hs₁, hq₁, hr₂.tail hl hs⟩

end Runs

/-! ## Keeping a log -/

section Log

variable {ε : Type*} {ev : σ → ℓ → σ → List ε}

/-- The system that also records what each move emits. -/
def logged (step : σ → ℓ → Option σ) (ev : σ → ℓ → σ → List ε) (x : σ × List ε) (l : ℓ) :
    Option (σ × List ε) :=
  (step x.1 l).map (fun s' => (s', x.2 ++ ev x.1 l s'))

/-- A move with the log is a move, and appends what it emits. -/
theorem logged_eq_some {x x' : σ × List ε} {l : ℓ} : logged step ev x l = some x' ↔
      step x.1 l = some x'.1 ∧ x'.2 = x.2 ++ ev x.1 l x'.1 := by
  unfold logged
  rw [map_eq_some_iff]
  constructor
  · rintro ⟨_, hs, rfl⟩
    exact ⟨hs, rfl⟩
  · rintro ⟨hs, hlog⟩
    exact ⟨x'.1, hs, by rw [← hlog]⟩

end Log

/-! ## Executing a list of labels -/

/-- Execute the labels in order, from left to right. -/
def run (step : σ → ℓ → Option σ) (s : σ) : List ℓ → Option σ
  | [] => some s
  | l :: ls => (step s l).bind (fun s' => run step s' ls)

/-- Execute the labels in order, stopping at the first that does not satisfy
the side condition. -/
def runIf (step : σ → ℓ → Option σ) (ok : σ → ℓ → Prop)
    [∀ s l, Decidable (ok s l)] (s : σ) : List ℓ → Option σ
  | [] => some s
  | l :: ls =>
    if ok s l then (step s l).bind (fun s' => runIf step ok s' ls) else none

/-- What a checked execution reaches, a run reaches. -/
theorem runs_of_runIf {ok : σ → ℓ → Prop} [∀ s l, Decidable (ok s l)] {s s' : σ}
    (h : runIf step ok s ls = some s') : Runs step ok s s' := by
  induction ls generalizing s with
  | nil =>
    rw [runIf, some.injEq] at h
    exact h ▸ Runs.refl s
  | cons l ls ih =>
    rw [runIf] at h
    split at h
    · next hl =>
      obtain ⟨_, hs, hrun⟩ := bind_eq_some_iff.mp h
      exact ((Runs.refl s).tail hl hs).trans (ih hrun)
    · exact absurd h (by simp)

/-- What an execution reaches, a run without side condition reaches. -/
theorem runs_of_run {s s' : σ} (h : run step s ls = some s') :
    Runs step (fun _ _ => True) s s' := by
  induction ls generalizing s with
  | nil =>
    rw [run, some.injEq] at h
    exact h ▸ Runs.refl s
  | cons l ls ih =>
    obtain ⟨_, hs, hrun⟩ := bind_eq_some_iff.mp h
    exact ((Runs.refl s).tail trivial hs).trans (ih hrun)

/-- An execution that ends in a state with some property gives a run that does. -/
theorem exists_runs {P : σ → Prop} {s : σ} (ls : List ℓ) (h : ∃ s' ∈ run step s ls, P s') :
    ∃ s', Runs step (fun _ _ => True) s s' ∧ P s' := by
  obtain ⟨s', hs, hP⟩ := h
  exact ⟨s', runs_of_run hs, hP⟩

/-- So does a checked execution, with the side condition. -/
theorem exists_runs_if {P : σ → Prop} {ok : σ → ℓ → Prop} [∀ s l, Decidable (ok s l)] {s : σ}
    (ls : List ℓ) (h : ∃ s' ∈ runIf step ok s ls, P s') : ∃ s', Runs step ok s s' ∧ P s' := by
  obtain ⟨s', hs, hP⟩ := h
  exact ⟨s', runs_of_runIf hs, hP⟩

end Lts
