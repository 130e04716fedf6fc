import Mathlib.Data.Nat.Basic
import Mathlib.Data.List.Basic
import Mathlib.Order.Basic

/-!
# Copying across pages

A range of addresses that is cut into pages of `P` bytes is copied page by page,
and a page that is not accessible stops the copy. How far it gets is a property
of the addresses alone: `extent` counts the bytes before the first page that is
not accessible, one byte at a time. A loop that goes a chunk at a time computes
the same number (`extent_chunk`), so what it copies can be said without
chunks.

There are two directions. Bytes that are read go to consecutive places of a
buffer (`fill`). Bytes that are written go wherever a translation sends their
addresses, and two addresses may share a place; then the later byte is the one
that stays (`store`, `store_hit`, `store_miss`).
-/

namespace Paged

open Function

/-! ## How far a copy gets -/

section Extent

variable (P : ℕ) (ok : ℕ → Bool)

/-- The number of bytes, of the `len` bytes from address `a` on, that come before
the first page that is not accessible. -/
def extent : ℕ → ℕ → ℕ
  | _, 0 => 0
  | a, len + 1 => if ok (a / P) then extent (a + 1) len + 1 else 0

variable {P ok} {a n len : ℕ}

theorem extent_le (a len : ℕ) : extent P ok a len ≤ len := by
  induction len generalizing a with
  | zero => exact le_rfl
  | succ len ih =>
    rw [extent]
    split
    · exact Nat.succ_le_succ (ih (a + 1))
    · exact Nat.zero_le _

/-- What is copied is accessible. -/
theorem ok_of_lt_extent {i : ℕ} (h : i < extent P ok a len) : ok ((a + i) / P) = true := by
  induction len generalizing a i with
  | zero => exact absurd h (Nat.not_lt_zero i)
  | succ len ih =>
    rw [extent] at h
    split at h
    · next hok =>
      cases i with
      | zero => exact hok
      | succ i =>
        have hi := ih (Nat.lt_of_succ_lt_succ h)
        rwa [Nat.add_assoc, Nat.add_comm 1 i] at hi
    · exact absurd h (Nat.not_lt_zero i)

/-- The byte where a copy stops early is not accessible. -/
theorem not_ok_of_extent_lt (h : extent P ok a len < len) :
    ok ((a + extent P ok a len) / P) = false := by
  induction len generalizing a with
  | zero => exact absurd h (Nat.not_lt_zero _)
  | succ len ih =>
    rw [extent] at h ⊢
    split at h
    · next hok =>
      rw [if_pos hok, ← Nat.add_assoc, Nat.add_right_comm]
      exact ih (Nat.lt_of_succ_lt_succ h)
    · next hok =>
      rw [if_neg hok]
      exact Bool.eq_false_iff.mpr hok

/-- **A copy is complete exactly if every page of the range is accessible.** -/
theorem extent_eq_iff : extent P ok a len = len ↔ ∀ b, a ≤ b → b < a + len → ok (b / P) = true := by
  constructor
  · intro h b hab hb
    obtain ⟨i, rfl⟩ := Nat.exists_eq_add_of_le hab
    exact ok_of_lt_extent (h.symm ▸ Nat.lt_of_add_lt_add_left hb)
  · intro h
    by_contra hne
    have hlt : extent P ok a len < len := lt_of_le_of_ne (extent_le a len) hne
    have hok := h _ (Nat.le_add_right a _) (Nat.add_lt_add_left hlt a)
    rw [not_ok_of_extent_lt hlt] at hok
    cases hok

/-- **A chunk of an accessible page can be taken off at once.** -/
theorem extent_chunk (hok : ok (a / P) = true) (hn : n ≤ len) (hin : a % P + n ≤ P) :
    extent P ok a len = n + extent P ok (a + n) (len - n) := by
  induction n generalizing a len with
  | zero => rw [Nat.zero_add, Nat.add_zero, Nat.sub_zero]
  | succ n ih =>
    obtain ⟨len, rfl⟩ : ∃ l, len = l + 1 := ⟨len - 1, by omega⟩
    rw [extent, if_pos hok]
    rcases Nat.eq_zero_or_pos n with rfl | hpos
    · rw [Nat.zero_add, Nat.add_comm 1, Nat.add_sub_cancel]
    · -- the next byte is still in the same page
      have hlt : a % P + 1 < P := by omega
      have hmod : (a + 1) % P = a % P + 1 := by
        rw [Nat.add_mod, Nat.mod_eq_of_lt (show 1 < P by omega), Nat.mod_eq_of_lt hlt]
      have hdiv : (a + 1) / P = a / P := by
        rw [Nat.add_div (by omega : 0 < P), Nat.mod_eq_of_lt (show 1 < P by omega),
          if_neg (by omega), Nat.div_eq_of_lt (show 1 < P by omega), Nat.add_zero]
      have hrest := ih (hdiv.symm ▸ hok) (show n ≤ len by omega) (by omega)
      rw [hrest, Nat.add_right_comm, Nat.add_sub_add_right]
      congr 2
      omega

theorem extent_of_not_ok (h : ok (a / P) = false) : extent P ok a len = 0 := by
  cases len with
  | zero => rfl
  | succ => rw [extent, if_neg (Bool.eq_false_iff.mp h)]

/-- Where the range begins does not matter if it is empty. -/
theorem extent_eq_of_or {b : ℕ} (h : len = 0 ∨ b = a) :
    extent P ok b len = extent P ok a len := by
  rcases h with rfl | rfl
  · rfl
  · rfl

end Extent

/-! ## Reading into a buffer -/

section Fill

variable {β : Type*}

/-- A buffer with the first `k` values of `f` from place `d` on. -/
def fill (dst : ℕ → β) (d : ℕ) (f : ℕ → β) (k : ℕ) : ℕ → β :=
  fun i => if d ≤ i ∧ i < d + k then f (i - d) else dst i

variable {dst f : ℕ → β} {d n k : ℕ}

theorem fill_zero : fill dst d f 0 = dst := by
  funext i
  exact if_neg fun h => absurd (lt_of_le_of_lt h.1 h.2) (lt_irrefl _)

/-- Filling on from where the last piece ended. -/
theorem fill_fill : fill (fill dst d f n) (d + n) (fun i => f (n + i)) k =
    fill dst d f (n + k) := by
  funext i
  unfold fill
  by_cases h : d + n ≤ i ∧ i < d + n + k
  · rw [if_pos h, if_pos ⟨by omega, by omega⟩]
    show f (n + (i - (d + n))) = f (i - d)
    rw [show n + (i - (d + n)) = i - d by omega]
  · rw [if_neg h]
    by_cases h' : d ≤ i ∧ i < d + n
    · rw [if_pos h', if_pos ⟨h'.1, by omega⟩]
    · rw [if_neg h', if_neg (by omega)]

theorem fill_one : fill dst d f 1 = update dst d (f 0) := by
  funext i
  unfold fill
  by_cases h : i = d
  · subst h
    rw [if_pos ⟨le_rfl, Nat.lt_succ_self i⟩, Nat.sub_self, update_self]
  · rw [if_neg (by omega), update_of_ne h]

theorem fill_congr {f' : ℕ → β} (h : ∀ i < k, f i = f' i) : fill dst d f k = fill dst d f' k := by
  funext i
  unfold fill
  split
  · exact h _ (by omega)
  · rfl

end Fill

/-! ## Writing through a translation -/

section Store

variable {L β : Type*} [DecidableEq L]

/-- Write the values in order, the one at position `i` to the place `loc i`. -/
def store (M : L → β) : (ℕ → L) → List β → L → β
  | _, [] => M
  | loc, b :: bs => store (update M (loc 0) b) (fun i => loc (i + 1)) bs

variable {M : L → β} {loc : ℕ → L} {bs cs : List β} {x : L}

theorem store_append :
    store M loc (bs ++ cs) = store (store M loc bs) (fun i => loc (bs.length + i)) cs := by
  induction bs generalizing M loc with
  | nil => simp only [List.nil_append, List.length_nil, Nat.zero_add, store]
  | cons b bs ih =>
    rw [List.cons_append, store, store, ih]
    congr 1
    funext i
    rw [List.length_cons, Nat.add_right_comm]

/-- **No other place changes.** -/
theorem store_miss (loc : ℕ → L) (h : ∀ i < bs.length, loc i ≠ x) : store M loc bs x = M x := by
  induction bs generalizing M loc with
  | nil => rfl
  | cons b bs ih =>
    rw [store, ih _ (fun i hi => h (i + 1) (Nat.succ_lt_succ hi)),
      update_of_ne (h 0 (Nat.succ_pos _)).symm]

/-- **The last value written to a place is there.** -/
theorem store_hit (loc : ℕ → L) {i : ℕ} (hi : i < bs.length)
    (hlast : ∀ j, i < j → j < bs.length → loc j ≠ loc i) : store M loc bs (loc i) = bs[i] := by
  induction bs generalizing M loc i with
  | nil => exact absurd hi (Nat.not_lt_zero i)
  | cons b bs ih =>
    rw [store]
    cases i with
    | zero =>
      rw [store_miss _ (fun j hj => hlast (j + 1) (Nat.succ_pos j) (Nat.succ_lt_succ hj)),
        update_self]
      rfl
    | succ i =>
      exact ih (fun i => loc (i + 1)) (Nat.lt_of_succ_lt_succ hi)
        (fun j hij hj => hlast (j + 1) (Nat.succ_lt_succ hij) (Nat.succ_lt_succ hj))

theorem store_congr {loc' : ℕ → L} (h : ∀ i < bs.length, loc i = loc' i) :
    store M loc bs = store M loc' bs := by
  induction bs generalizing M loc loc' with
  | nil => rfl
  | cons b bs ih =>
    rw [store, store, h 0 (Nat.succ_pos _), ih (fun i hi => h (i + 1) (Nat.succ_lt_succ hi))]

end Store

end Paged
