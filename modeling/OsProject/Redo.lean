import Mathlib.Data.List.Basic
import Mathlib.Logic.Function.Basic

/-!
# Redo logs

A store maps addresses to values. A redo log holds new values for a list `L` of
addresses, which are then copied to the store one after the other. If that is
interrupted, it can be started again from the log, any number of times: what
the store will be in the end is `D`, as long as the log holds the values of `D`
for the addresses in `L`, and the store has the values of `D` everywhere else
(`Recovers`).

`Recovers P d L k log D` says this with the first `k` addresses known to have
been copied, for the addresses in `P`, those that do not belong to the log
itself. Copying the next one increases `k` (`Recovers.install`); being
interrupted sets it back to 0 (`Recovers.restart`); at the end the store is
`D` (`Recovers.installed`).
-/

namespace Redo

open Function List

variable {ι α ω : Type*}

/-! ## Replaying writes -/

section Replay

variable [DecidableEq ι]

/-- The store after the writes `ws`, where `w` writes `val w` to `key w`. -/
def replay (key : ω → ι) (val : ω → α) (d : ι → α) (ws : List ω) : ι → α :=
  ws.foldl (fun d w => update d (key w) (val w)) d

variable {key : ω → ι} {val : ω → α} {d : ι → α} {ws ws' : List ω} {a : ι}

theorem replay_append : replay key val d (ws ++ ws') = replay key val (replay key val d ws) ws' :=
  foldl_append

theorem replay_snoc (w : ω) : replay key val d (ws ++ [w]) =
    update (replay key val d ws) (key w) (val w) :=
  replay_append

/-- An address that is not written keeps its value. -/
theorem replay_of_ne (h : ∀ w ∈ ws, key w ≠ a) : replay key val d ws a = d a := by
  induction ws generalizing d with
  | nil => rfl
  | cons w ws ih =>
    have hw : a ≠ key w := fun he => h w mem_cons_self he.symm
    rw [replay, foldl_cons]
    exact (ih (fun w' hw' => h w' (mem_cons_of_mem _ hw'))).trans (update_of_ne hw ..)

end Replay

/-! ## Recovering -/

/-- The log holds `D` on `L`, and the store is `D` on every address in `P` that is
not in `L` from the `k`th on. -/
structure Recovers (P : ι → Prop) (d : ι → α) (L : List ι) (k : ℕ) (log : ℕ → α) (D : ι → α) :
    Prop where
  logged : ∀ i b, L[i]? = some b → log i = D b
  store : ∀ b, P b → b ∉ L.drop k → d b = D b

variable {P : ι → Prop} {d d' D E : ι → α} {L : List ι} {k : ℕ} {log log' : ℕ → α} {a : ι}

/-- With an empty log the store is what it will be. -/
theorem Recovers.nil (h : ∀ b, P b → d b = D b) : Recovers P d [] k log D :=
  ⟨fun i b hb => by simp at hb, fun b hb _ => h b hb⟩

theorem Recovers.of_nil (h : Recovers P d [] k log D) (ha : P a) : d a = D a :=
  h.store a ha (by simp)

/-- **Committing**: the log is filled with new values, and the store keeps the
old ones. -/
theorem Recovers.commit (h : ∀ b, P b → d b = D b) (hE : ∀ b, P b → b ∉ L → E b = D b)
    (hlog : ∀ i b, L[i]? = some b → log i = E b) : Recovers P d L 0 log E :=
  ⟨hlog, fun b hb hL => (h b hb).trans (hE b hb hL).symm⟩

variable (h : Recovers P d L k log D)
include h

/-- **Starting again.** -/
theorem Recovers.restart : Recovers P d L 0 log D :=
  ⟨h.logged, fun b hb hL => h.store b hb (fun hk => hL (mem_of_mem_drop hk))⟩

/-- **Copying the next value.** -/
theorem Recovers.install [DecidableEq ι] (hk : L[k]? = some a) :
    Recovers P (update d a (log k)) L (k + 1) log D := by
  refine ⟨h.logged, fun b hb hL => ?_⟩
  by_cases hba : b = a
  · rw [hba, update_self]
    exact h.logged k a hk
  · rw [update_of_ne hba]
    refine h.store b hb fun hd => hL ?_
    obtain ⟨hlt, hka⟩ := List.getElem?_eq_some_iff.mp hk
    rw [drop_eq_getElem_cons hlt, mem_cons, hka] at hd
    exact hd.resolve_left hba

/-- **When everything has been copied the store is what it should be.** -/
theorem Recovers.installed (hk : L[k]? = none) (ha : P a) : d a = D a := by
  refine h.store a ha ?_
  rw [drop_eq_nil_of_le (getElem?_eq_none_iff.mp hk)]
  exact not_mem_nil

/-- What matters of the store is in `P`, and of the log below the length of
`L`. -/
theorem Recovers.congr (hd : ∀ b, P b → d' b = d b) (hlog : ∀ i, i < L.length → log' i = log i) :
    Recovers P d' L k log' D := by
  refine ⟨fun i b hb => ?_, fun b hb hL => (hd b hb).trans (h.store b hb hL)⟩
  rw [hlog i (List.getElem?_eq_some_iff.mp hb).1]
  exact h.logged i b hb

end Redo
