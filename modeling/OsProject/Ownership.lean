import Mathlib.Data.Nat.Basic
import Mathlib.Data.Set.Lattice
import Mathlib.Order.CompletePartialOrder
import Mathlib.Logic.Function.Basic
import Mathlib.Logic.Pairwise

/-!
# Owning the blocks of a bitmap

Blocks are numbered, and a bitmap says which of them are in use. They are used
by *places*: variables of some kind, each of which holds a block number, or 0
for none. The blocks below `lo` are used for something else and are always
marked, so 0 is never the number of a block that a place holds.

The bitmap is *exact* if a block is marked when some place holds it, and
otherwise not, and no two places hold the same block. An allocation takes a
block that is not marked, and stores it in an empty place; a deallocation
empties some places and clears the marks of the blocks they held. Both keep the
bitmap exact, and that is all a proof about an allocator needs to know of where
its places are and how they are found.

Without a bitmap there is only the question of who owns what. `Apart` says that no
two owners have something in common; it stays so if some of them exchange what
they own among themselves (`Apart.exchange`).
-/

namespace Ownership

open Function (update update_of_ne update_self update_apply)

variable {P : Type*}

/-- **The bitmap is exact**: the blocks from `lo` up to `hi` are those that the
places hold, each of them once. -/
structure Exact (lo hi : ℕ) (held : P → ℕ) (marked : ℕ → Bool) : Prop where
  /-- Two places do not hold the same block. -/
  inj : ∀ p q, held p ≠ 0 → held p = held q → p = q
  /-- A place holds one of the blocks. -/
  range : ∀ p, held p ≠ 0 → lo ≤ held p ∧ held p < hi
  /-- A block is marked if a place holds it. -/
  marked_iff : ∀ b, lo ≤ b → b < hi → (marked b = true ↔ ∃ p, held p = b)
  /-- The other blocks are marked. -/
  reserved : ∀ b, b < lo → marked b = true
  /-- Block 0 is one of them. -/
  pos : 0 < lo

namespace Exact

variable {lo hi b : ℕ} {held held' : P → ℕ} {marked marked' : ℕ → Bool} {p : P}

variable (h : Exact lo hi held marked)
include h

/-- A block that is held is marked. -/
theorem marked_of_held (hp : held p ≠ 0) : marked (held p) = true :=
  (h.marked_iff _ (h.range p hp).1 (h.range p hp).2).mpr ⟨p, rfl⟩

/-- **A block that is not marked is held by nobody.** -/
theorem free (hb : marked b = false) (p : P) : held p ≠ b := by
  rintro rfl
  by_cases hp : held p = 0
  · rw [hp, h.reserved 0 h.pos] at hb
    cases hb
  · rw [h.marked_of_held hp] at hb
    cases hb

/-- A block that is not marked is one that can be handed out. -/
theorem le_of_free (hb : marked b = false) : lo ≤ b := by
  by_contra hlt
  rw [h.reserved b (by omega)] at hb
  cases hb

/-- **A marked block is held by exactly one place.** -/
theorem existsUnique (hlo : lo ≤ b) (hhi : b < hi) (hb : marked b = true) : ∃! p, held p = b := by
  obtain ⟨p, hp⟩ := (h.marked_iff b hlo hhi).mp hb
  have hpos := h.pos
  refine ⟨p, hp, fun q hq => ?_⟩
  exact (h.inj p q (by omega) (hp.trans hq.symm)).symm

/-- **Allocation**: a block that was not marked is stored in an empty place. -/
theorem attach [DecidableEq P] (hp : held p = 0) (hb : marked b = false) (hhi : b < hi) :
    Exact lo hi (update held p b) (update marked b true) := by
  have hlo := h.le_of_free hb
  have hpos := h.pos
  have hne := h.free hb
  constructor
  · intro q r hq hqr
    by_cases hqp : q = p <;> by_cases hrp : r = p
    · rw [hqp, hrp]
    · subst hqp
      rw [update_self, update_of_ne hrp] at hqr
      exact absurd hqr.symm (hne r)
    · subst hrp
      rw [update_self, update_of_ne hqp] at hqr
      exact absurd hqr (hne q)
    · rw [update_of_ne hqp] at hq hqr
      rw [update_of_ne hrp] at hqr
      exact h.inj q r hq hqr
  · intro q hq
    by_cases hqp : q = p
    · subst hqp
      rw [update_self]
      exact ⟨hlo, hhi⟩
    · rw [update_of_ne hqp] at hq ⊢
      exact h.range q hq
  · intro b' hlo' hhi'
    by_cases hbb : b' = b
    · subst hbb
      rw [update_self]
      exact ⟨fun _ => ⟨p, update_self ..⟩, fun _ => rfl⟩
    · rw [update_of_ne hbb, h.marked_iff b' hlo' hhi']
      constructor
      · rintro ⟨q, rfl⟩
        have hqp : q ≠ p := by
          rintro rfl
          omega
        exact ⟨q, update_of_ne hqp _ _⟩
      · rintro ⟨q, hq⟩
        rw [update_apply] at hq
        split_ifs at hq with hqp
        · subst hqp
          exact absurd hq.symm hbb
        · exact ⟨q, hq⟩
  · intro b' hb'
    rw [update_of_ne (by omega)]
    exact h.reserved b' hb'
  · exact hpos

/-- **Deallocation**: some places are emptied, and the blocks they held lose
their marks. -/
theorem detach (S : P → Prop) (hin : ∀ p, S p → held' p = 0) (hout : ∀ p, ¬ S p → held' p = held p)
    (hmark : ∀ b, marked' b = true ↔ marked b = true ∧ ∀ p, S p → held p ≠ 0 → held p ≠ b) :
    Exact lo hi held' marked' := by
  have hpos := h.pos
  have hold : ∀ p, held' p ≠ 0 → ¬ S p ∧ held' p = held p := by
    intro p hp
    have hs : ¬ S p := fun hs => hp (hin p hs)
    exact ⟨hs, hout p hs⟩
  constructor
  · intro p q hp hpq
    obtain ⟨-, he⟩ := hold p hp
    obtain ⟨-, he'⟩ := hold q (hpq ▸ hp)
    exact h.inj p q (he ▸ hp) (by rw [← he, ← he', hpq])
  · intro p hp
    obtain ⟨-, he⟩ := hold p hp
    rw [he]
    exact h.range p (he ▸ hp)
  · intro b hlo hhi
    rw [hmark, h.marked_iff b hlo hhi]
    constructor
    · rintro ⟨⟨p, rfl⟩, hno⟩
      have hs : ¬ S p := fun hs => hno p hs (by omega) rfl
      exact ⟨p, hout p hs⟩
    · rintro ⟨p, rfl⟩
      obtain ⟨hs, he⟩ := hold p (by omega)
      refine ⟨⟨p, he.symm⟩, fun q hq hq0 hqp => ?_⟩
      rw [he] at hqp
      exact hs (h.inj q p hq0 hqp ▸ hq)
  · intro b hb
    rw [hmark]
    refine ⟨h.reserved b hb, fun p _ hp hpb => ?_⟩
    have := (h.range p hp).1
    omega
  · exact hpos

end Exact

/-! ## Owners -/

variable {ι α : Type*} {own own' : ι → Set α} {S : Set ι} {i j : ι} {x : α}

/-- **No two owners own the same thing.** -/
def Apart (own : ι → Set α) : Prop := Pairwise (Function.onFun Disjoint own)

/-- What some of the owners own together. -/
def together (own : ι → Set α) (S : Set ι) : Set α := {x | ∃ i ∈ S, x ∈ own i}

theorem mem_together_pair : x ∈ together own {i, j} ↔ x ∈ own i ∨ x ∈ own j := by
  simp only [together, Set.mem_insert_iff, Set.mem_singleton_iff, exists_eq_or_imp,
    exists_eq_left, Set.mem_ofPred_eq]

theorem Apart.eq (h : Apart own) (hi : x ∈ own i) (hj : x ∈ own j) : i = j := by
  by_contra hne
  exact Set.disjoint_left.mp (h hne) hi hj

theorem Apart.notMem_together (h : Apart own) (hi : i ∉ S) (hx : x ∈ own i) :
    x ∉ together own S := by
  rintro ⟨j, hj, hxj⟩
  exact hi (h.eq hx hxj ▸ hj)

/-- **An exchange**: what the owners in `S` own afterwards is part of what they owned
together, and they share nothing; the others own what they owned. -/
theorem Apart.exchange (h : Apart own) (S : Set ι) (hout : ∀ i ∉ S, own' i = own i)
    (hin : ∀ i ∈ S, own' i ⊆ together own S)
    (hdis : ∀ i ∈ S, ∀ j ∈ S, i ≠ j → Disjoint (own' i) (own' j)) : Apart own' := by
  intro i j hne
  refine Set.disjoint_left.mpr fun x hi hj => ?_
  by_cases hiS : i ∈ S
  · by_cases hjS : j ∈ S
    · exact Set.disjoint_left.mp (hdis i hiS j hjS hne) hi hj
    · rw [hout j hjS] at hj
      exact h.notMem_together hjS hj (hin i hiS hi)
  · rw [hout i hiS] at hi
    by_cases hjS : j ∈ S
    · exact h.notMem_together hiS hi (hin j hjS hj)
    · rw [hout j hjS] at hj
      exact hne (h.eq hi hj)

end Ownership
