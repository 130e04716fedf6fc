import Mathlib.Data.Fintype.BigOperators
import Mathlib.Logic.Function.Basic

/-!
# How often a value is taken

A reference count should be the number of places that refer to an object. The places are
the arguments of a function, which says for each of them what it refers to; the number is
the size of a fiber of this function. Changing what one place refers to changes two of
these numbers by one (`Fiber.update`), and that is all that is needed about them.
-/

variable {α β : Type*} [Fintype α] [DecidableEq β]

/-- **The number of places where `g` takes the value `b`.** -/
def fiber (g : α → β) (b : β) : ℕ := (Finset.univ.filter (fun a => g a = b)).card

namespace Fiber

open Function Finset

variable {g : α → β} {a : α} {b c : β}

theorem pos_iff : 0 < fiber g b ↔ ∃ a, g a = b := by
  rw [fiber, card_pos]
  simp only [Finset.Nonempty, mem_filter, mem_univ, true_and]

theorem eq_zero_iff : fiber g b = 0 ↔ ∀ a, g a ≠ b := by
  rw [fiber, card_eq_zero, filter_eq_empty_iff]
  exact ⟨fun h a => h (mem_univ a), fun h a _ => h a⟩

theorem none_eq_zero (b : β) : fiber (fun _ : α => (none : Option β)) (some b) = 0 :=
  eq_zero_iff.mpr (fun _ => nofun)

variable [DecidableEq α]

/-- **One place refers to something else.** -/
theorem update (g : α → β) (a : α) (b c : β) :
    fiber (update g a c) b + (if g a = b then 1 else 0) = fiber g b + (if c = b then 1 else 0) := by
  have hrest : ∑ x ∈ Finset.univ.erase a, (if Function.update g a c x = b then 1 else 0) =
      ∑ x ∈ Finset.univ.erase a, (if g x = b then 1 else 0) :=
    sum_congr rfl (fun x hx => by
      rw [update_of_ne (ne_of_mem_erase hx)])
  rw [fiber, fiber, card_filter, card_filter, ← add_sum_erase _ _ (mem_univ a), hrest, update_self,
    ← add_sum_erase _ _ (mem_univ a)]
  omega

/-- **A place that referred to nothing** now refers to `c`. -/
theorem update_some {g : α → Option β} (hg : g a = none) (b c : β) :
    fiber (Function.update g a (some c)) (some b) =
      fiber g (some b) + (if c = b then 1 else 0) := by
  have h := update g a (some b) (some c)
  rw [hg, if_neg nofun, add_zero] at h
  simp only [Option.some.injEq] at h
  exact h

/-- **A place that referred to `c`** now refers to nothing. -/
theorem update_none {g : α → Option β} (hg : g a = some c) (b : β) :
    fiber (Function.update g a none) (some b) + (if c = b then 1 else 0) = fiber g (some b) := by
  have h := update g a (some b) none
  rw [hg, if_neg (c := none = some b) nofun, add_zero] at h
  simp only [Option.some.injEq] at h
  exact h

/-- **A row of places that referred to nothing** is filled. -/
theorem update_row {ι γ : Type*} [Fintype ι] [DecidableEq γ] {g g' : α × ι → Option γ}
    {o : ι → Option γ} (hold : ∀ k, g (a, k) = none) (hrow : ∀ k, g' (a, k) = o k)
    (hother : ∀ x, x.1 ≠ a → g' x = g x) (c : γ) :
    fiber g' (some c) = fiber g (some c) + fiber o (some c) := by
  have hrest : ∑ x ∈ Finset.univ.erase a, ∑ k, (if g' (x, k) = some c then 1 else 0) =
      ∑ x ∈ Finset.univ.erase a, ∑ k, (if g (x, k) = some c then 1 else 0) :=
    sum_congr rfl (fun x hx => sum_congr rfl (fun k _ => by
      rw [hother (x, k) (ne_of_mem_erase hx)]))
  have hnew : ∑ k, (if g' (a, k) = some c then 1 else 0) = fiber o (some c) := by
    rw [fiber, card_filter]
    exact sum_congr rfl fun k _ => by rw [hrow k]
  have hnone : ∑ k, (if g (a, k) = some c then 1 else 0) = 0 :=
    sum_eq_zero (fun k _ => by rw [hold k, if_neg nofun])
  rw [fiber, fiber, card_filter, card_filter, Fintype.sum_prod_type,
    Fintype.sum_prod_type, ← add_sum_erase _ _ (mem_univ a), hrest, hnew,
    ← add_sum_erase _ (fun x => ∑ k, (if g (x, k) = some c then 1 else 0)) (mem_univ a), hnone]
  omega

end Fiber
