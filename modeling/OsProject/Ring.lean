import Mathlib.Data.List.Basic
import Mathlib.Data.Nat.ModEq
import Mathlib.Logic.Function.Basic

/-!
# Rings with free-running counters

A ring of `N` cells holds the end of a stream: the element at position `i` of the
stream is in cell `i % N`. The reader and the writer each count what they have
done so far, and neither counter is ever reset – they are unsigned numbers that
wrap around, and only their difference matters.

`Ring.Holds` ties the cells to the positions of the stream, which are natural
numbers and do not wrap; `Ring.index_eq` and `Ring.toNat_ofNat_sub` say that the
code, which only sees the counters, computes the right cells and distances.
-/

namespace Ring

open Function List

variable {α : Type*} {N M b a : ℕ}

/-! ## Counters -/

/-- **The cell of a counter that has wrapped** is the cell of the position. -/
theorem index_eq (h : N ∣ M) (i : ℕ) : i % M % N = i % N := Nat.mod_mod_of_dvd i h

/-- Two positions less than a period apart are equal if their counters are. -/
theorem eq_of_mod_eq {r w : ℕ} (hrw : r ≤ w) (hlt : w < r + M) (h : w % M = r % M) : w = r := by
  have hdvd : M ∣ w - r := (Nat.modEq_iff_dvd' hrw).mp h.symm
  have := Nat.eq_zero_of_dvd_of_lt hdvd (by omega)
  omega

/-- The cell of a 32-bit counter. -/
theorem toNat_ofNat_mod (h : N ∣ 2 ^ 32) (n : ℕ) : (UInt32.ofNat n).toNat % N = n % N := by
  rw [UInt32.toNat_ofNat']
  exact index_eq h n

/-- **The distance of two 32-bit counters** is that of the positions, however often they
have wrapped. -/
theorem toNat_ofNat_sub (hab : a ≤ b) (hb : b ≤ a + N) (hN : N < 2 ^ 32) :
    (UInt32.ofNat b - UInt32.ofNat a).toNat = b - a := by
  rw [← UInt32.ofNat_sub hab, UInt32.toNat_ofNat']
  exact Nat.mod_eq_of_lt ((Nat.sub_le_iff_le_add'.mpr hb).trans_lt hN)

theorem ofNat_inj (hab : a ≤ b) (hb : b ≤ a + N) (hN : N < 2 ^ 32) :
    UInt32.ofNat a = UInt32.ofNat b ↔ a = b := by
  refine ⟨fun h => ?_, fun h => by rw [h]⟩
  have := toNat_ofNat_sub hab hb hN
  rw [h, UInt32.sub_self, UInt32.toNat_zero] at this
  omega

/-- The cell of a 16-bit counter. -/
theorem toNat_ofNat_mod₁₆ (h : N ∣ 2 ^ 16) (n : ℕ) : (UInt16.ofNat n).toNat % N = n % N := by
  rw [UInt16.toNat_ofNat']
  exact index_eq h n

/-- 16-bit counters are equal if the positions are. -/
theorem ofNat_inj₁₆ (hab : a ≤ b) (hb : b ≤ a + N) (hN : N < 2 ^ 16) :
    UInt16.ofNat a = UInt16.ofNat b ↔ a = b := by
  refine ⟨fun h => ?_, fun h => by rw [h]⟩
  have hmod := congrArg UInt16.toNat h
  rw [UInt16.toNat_ofNat', UInt16.toNat_ofNat'] at hmod
  have hlt : b < a + 2 ^ 16 := by omega
  exact (eq_of_mod_eq hab hlt hmod.symm).symm

/-- What has been read, with the next element, is still the beginning of the stream. -/
theorem concat_getElem_prefix {t xs : List α} (h : t <+: xs) (hlt : t.length < xs.length) :
    t ++ [xs[t.length]] <+: xs := by
  obtain ⟨rest, rfl⟩ := h
  cases rest with
  | nil => simp at hlt
  | cons x rest =>
    refine ⟨rest, ?_⟩
    rw [getElem_append_right (le_refl _), append_assoc]
    simp

/-! ## Cells -/

/-- **The ring holds a stream from position `r` on.** -/
structure Holds (N : ℕ) (buf : ℕ → α) (stream : List α) (r : ℕ) : Prop where
  le : r ≤ stream.length
  room : stream.length ≤ r + N
  cell : ∀ i (h : i < stream.length), r ≤ i → buf (i % N) = stream[i]

namespace Holds

variable {buf : ℕ → α} {stream : List α} {r : ℕ} {a : α}

theorem nil (buf : ℕ → α) : Holds N buf [] 0 :=
  ⟨le_refl 0, Nat.zero_le _, fun i hi => absurd hi (Nat.not_lt_zero i)⟩

section

variable (H : Holds N buf stream r)
include H

section

variable (hroom : stream.length < r + N)
include hroom

/-- Writing the next cell of a ring that is not full overwrites nothing that is still to be
read. -/
theorem write : Holds N (update buf (stream.length % N) a) stream r := by
  refine ⟨H.le, H.room, fun i hi hri => ?_⟩
  -- cells of positions less than `N` apart are different
  have hne : i % N ≠ stream.length % N := fun he =>
    absurd (eq_of_mod_eq hi.le (by omega) he.symm) (by omega)
  rw [update_of_ne hne]
  exact H.cell i hi hri

/-- What is in the next cell becomes the next element of the stream. -/
theorem extend (ha : buf (stream.length % N) = a) : Holds N buf (stream ++ [a]) r := by
  refine ⟨?_, ?_, fun i hi hri => ?_⟩
  · rw [length_append]
    exact Nat.le_add_right_of_le H.le
  · rw [length_append]
    exact hroom
  · rw [length_append, length_singleton] at hi
    by_cases hlast : i = stream.length
    · subst hlast
      rw [getElem_concat_length rfl, ha]
    · have hlt : i < stream.length := by omega
      rw [getElem_append_left hlt]
      exact H.cell i hlt hri

/-- A ring that is not full takes another element. -/
theorem push : Holds N (update buf (stream.length % N) a) (stream ++ [a]) r :=
  (H.write hroom).extend hroom (update_self ..)

end

/-- Reading an element frees its cell. -/
theorem pop (hr : r < stream.length) : Holds N buf stream (r + 1) :=
  ⟨hr, le_trans H.room (by omega), fun i hi hri => H.cell i hi (by omega)⟩

/-- What is read is the element at the position of the reader. -/
theorem read (hr : r < stream.length) : buf (r % N) = stream[r] := H.cell r hr (le_refl r)

end

/-- The last element can be taken back as long as it has not been read. -/
theorem unpush (H : Holds N buf (stream ++ [a]) r) (hr : r ≤ stream.length) :
    Holds N buf stream r := by
  refine ⟨hr, ?_, fun i hi hri => ?_⟩
  · have := H.room
    rw [length_append, length_singleton] at this
    omega
  · have := H.cell i (by rw [length_append, length_singleton]; omega) hri
    rwa [getElem_append_left hi] at this

end Holds

end Ring
