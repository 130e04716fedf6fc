import Mathlib.Data.List.GetD
import Mathlib.Logic.Function.Basic

/-!
# A pool of processes

Any number of processes, each somewhere in its program: a list of program counters, where a
process is known by its position and one that is not in the list is idle (`d`). When a
process moves, the list is set at one position; seen as a function, it is updated there
(`Pool.getD_set`), and the number of processes at places of some kind changes by what that
process contributes (`Pool.countP_set`).
-/

namespace Pool

open Function List

variable {π : Type*} {l : List π} {d x y : π} {p q : ℕ} {f : π → Bool}

/-- **A move, seen as a function.** -/
theorem getD_set (hp : p < l.length) :
    (fun q => (l.set p y).getD q d) = update (fun q => l.getD q d) p y := by
  funext q
  by_cases hq : q = p
  · rw [hq, update_self, getD_eq_getElem?_getD, getElem?_set_self hp, Option.getD_some]
  · rw [update_of_ne hq, getD_eq_getElem?_getD, getElem?_set_ne (Ne.symm hq), getD_eq_getElem?_getD]

/-- A process that stays where it is. -/
theorem set_self (hp : p < l.length) (h : l.getD p d = x) : l.set p x = l := by
  rw [← h, getD_eq_getElem l d hp, set_getElem_self hp]

/-- **Counting after a move.** -/
theorem countP_set (hp : p < l.length) (f : π → Bool) :
    (l.set p y).countP f + (f (l.getD p d)).toNat = l.countP f + (f y).toNat := by
  have hle : (if f l[p] = true then 1 else 0) ≤ l.countP f := boole_getElem_le_countP hp
  rw [List.countP_set hp, List.getD_eq_getElem l d hp]
  generalize l.countP f = n at hle ⊢
  generalize f l[p] = a at hle ⊢
  generalize f y = b
  cases a <;> cases b <;> simp at hle ⊢ <;> omega

/-- A process that is not idle is in the list. -/
theorem mem_of_getD (h : l.getD p d = x) (hx : x ≠ d) : x ∈ l := by
  rw [getD_eq_getElem?_getD] at h
  cases hq : l[p]? with
  | none =>
    rw [hq] at h
    exact absurd h.symm hx
  | some =>
    rw [hq, Option.getD_some] at h
    exact mem_of_getElem? (h ▸ hq)

theorem lt_length (h : l.getD p d ≠ d) : p < l.length := by
  by_contra hp
  rw [getD_eq_getElem?_getD, getElem?_eq_none (Nat.not_lt.mp hp)] at h
  exact h rfl

/-- Nobody is at a place of a kind that counts 0. -/
theorem eq_false_of_countP (h : l.countP f = 0) (hd : f d = false) (p : ℕ) :
    f (l.getD p d) = false := by
  by_contra hp
  have hne : l.getD p d ≠ d := by
    intro he
    rw [he] at hp
    exact hp hd
  exact countP_eq_zero.mp h _ (mem_of_getD rfl hne) (eq_true_of_ne_false hp)

/-- Two processes count twice. -/
theorem two_le_countP (hqp : q ≠ p) (hd : f d = false) (hp : f (l.getD p d) = true)
    (hq : f (l.getD q d) = true) : 2 ≤ l.countP f := by
  have hlt : p < l.length := lt_length (fun he => by rw [he, hd] at hp; cases hp)
  have hc : (l.set p d).countP f + (f (l.getD p d)).toNat = l.countP f + (f d).toNat :=
    countP_set hlt f
  have hne : (l.set p d).countP f ≠ 0 := by
    intro h0
    have := eq_false_of_countP h0 hd q
    rw [congrFun (getD_set hlt) q, update_of_ne hqp, hq] at this
    cases this
  rw [hp, hd, Bool.toNat_true, Bool.toNat_false] at hc
  omega

theorem countP_pos (hd : f d = false) (hp : f (l.getD p d) = true) : 0 < l.countP f := by
  refine Nat.pos_of_ne_zero fun h0 => ?_
  rw [eq_false_of_countP h0 hd p] at hp
  cases hp

end Pool
