import Mathlib.Data.Nat.Basic
import Mathlib.Algebra.Group.Nat.Defs
import Mathlib.Logic.Function.Basic

/-!
# `memmove`

The kernel has a `memmove` in `string.c` and the user library one in `ulib.c`. Both copy up or
down, one byte at a time, and so overwrite a part of the source if the ranges overlap. The kernel
copies down only if the destination begins inside the source, the user library whenever it begins
at the source or behind it.

Addresses are 64 bit and pointers wrap around, so that the end of a range may be the address `0`.
Copying up is right unless the destination begins inside the source (`copyUp_eq`), and copying
down unless the source begins inside the destination (`copyDown_eq`); the two tests make sure of
that in a memory that the ranges do not run past (`memmove_moves`).
-/

namespace Xv6

open Function (update update_self update_of_ne)

/-- What is in memory. -/
abbrev Bytes64 := UInt64 → UInt8

variable {m : Bytes64} {dst src : UInt64} {n : ℕ}

/-! ## The loops -/

/-- `while(n-- > 0) *d++ = *s++`. -/
def copyUp : ℕ → Bytes64 → UInt64 → UInt64 → Bytes64
  | 0, m, _, _ => m
  | n + 1, m, d, s => copyUp n (update m d (m s)) (d + 1) (s + 1)

/-- `while(n-- > 0) *--d = *--s`. -/
def copyDown : ℕ → Bytes64 → UInt64 → UInt64 → Bytes64
  | 0, m, _, _ => m
  | n + 1, m, d, s => copyDown n (update m (d - 1) (m (s - 1))) (d - 1) (s - 1)

/-- `memmove` of `string.c`. -/
def Kstring.memmove (m : Bytes64) (dst src : UInt64) (n : UInt32) : Bytes64 :=
  if n = 0 then m
  else if src < dst ∧ src + n.toUInt64 > dst then
    copyDown n.toNat m (dst + n.toUInt64) (src + n.toUInt64)
  else copyUp n.toNat m dst src

/-- `memmove` of `ulib.c`. -/
def Ulib.memmove (m : Bytes64) (dst src : UInt64) (n : Int32) : Bytes64 :=
  if src > dst then copyUp n.toInt.toNat m dst src
  else copyDown n.toInt.toNat m (dst + UInt64.ofInt n.toInt) (src + UInt64.ofInt n.toInt)

/-! ## What they leave -/

/-- The memory after `n` bytes have been moved. -/
def moved (m : Bytes64) (dst src : UInt64) (n : ℕ) : Bytes64 :=
  fun a => if (a - dst).toNat < n then m (src + (a - dst)) else m a

/-- An address is the start of a range and a distance from it. -/
theorem exists_add (d a : UInt64) : ∃ x, a = d + x := ⟨a - d, by grind⟩

theorem toNat_sub_one {x : UInt64} (h : x ≠ 0) : (x - 1).toNat + 1 = x.toNat := by
  have hx : x.toNat ≠ 0 := fun h0 => h (UInt64.toNat_inj.mp h0)
  have := x.toNat_lt
  rw [UInt64.toNat_sub]
  simp only [UInt64.reduceToNat]
  omega

theorem copyUp_eq (hn : n < 2 ^ 64) (h : dst = src ∨ n ≤ (dst - src).toNat) :
    copyUp n m dst src = moved m dst src n := by
  induction n generalizing m dst src with
  | zero => rfl
  | succ n ih =>
    have hstep : dst + 1 - (src + 1) = dst - src := by grind
    rw [copyUp, ih (by omega) (by rw [hstep]; exact h.imp (by rintro rfl; rfl) (by omega))]
    funext a
    obtain ⟨x, rfl⟩ := exists_add dst a
    have hx : dst + x - (dst + 1) = x - 1 := by grind
    have hsrc : src + 1 + (x - 1) = src + x := by grind
    have hd : dst + x - dst = x := by grind
    simp only [moved, hx, hsrc, hd]
    by_cases hx0 : x = 0
    · subst hx0
      rw [if_neg (by simp; omega), if_pos (by simp), UInt64.add_zero, UInt64.add_zero, update_self]
    · have hlt := toNat_sub_one hx0
      have hself : dst + x ≠ dst := by grind
      by_cases hxn : x.toNat < n + 1
      · rw [if_pos (by omega), if_pos hxn, update_of_ne]
        -- the byte has not been overwritten
        intro he
        have hk : dst - src = x := by grind
        rw [hk] at h
        rcases h with h | h
        · exact hx0 (by grind)
        · omega
      · rw [if_neg (by omega), if_neg hxn, update_of_ne hself]

theorem copyDown_eq (hn : n < 2 ^ 64) (h : dst = src ∨ n ≤ (src - dst).toNat) :
    copyDown n m (dst + UInt64.ofNat n) (src + UInt64.ofNat n) = moved m dst src n := by
  induction n generalizing m with
  | zero => rfl
  | succ n ih =>
    have hlast : ∀ p : UInt64, p + UInt64.ofNat (n + 1) - 1 = p + UInt64.ofNat n := fun p => by
      rw [UInt64.ofNat_add]
      grind
    rw [copyDown, hlast, hlast, ih (by omega) (h.imp_right (by omega))]
    funext a
    obtain ⟨x, rfl⟩ := exists_add dst a
    have hd : dst + x - dst = x := by grind
    have hofNat : (UInt64.ofNat n).toNat = n := UInt64.toNat_ofNat_of_lt' (Nat.lt_of_succ_lt hn)
    simp only [moved, hd]
    by_cases hxn : x = UInt64.ofNat n
    · rw [hxn, hofNat, if_neg (by omega), if_pos (by omega), update_self]
    · have hne : x.toNat ≠ n := fun he => hxn (UInt64.toNat_inj.mp (he.trans hofNat.symm))
      have hself : dst + x ≠ dst + UInt64.ofNat n := by grind
      by_cases hlt : x.toNat < n
      · rw [if_pos hlt, if_pos (by omega), update_of_ne]
        -- the byte has not been overwritten
        intro he
        have hk : src - dst = UInt64.ofNat n - x := by grind
        rw [hk, UInt64.toNat_sub, hofNat] at h
        rcases h with h | h
        · exact hxn (by grind)
        · omega
      · rw [if_neg hlt, if_neg (by omega), update_of_ne hself]

/-- The destination has the bytes that the source had, and nothing else is changed. -/
structure Moves (m m' : Bytes64) (dst src : UInt64) (n : ℕ) : Prop where
  moved : ∀ i < n, m' (dst + UInt64.ofNat i) = m (src + UInt64.ofNat i)
  same : ∀ a, (∀ i < n, a ≠ dst + UInt64.ofNat i) → m' a = m a

theorem moves_moved (hn : n < 2 ^ 64) : Moves m (moved m dst src n) dst src n where
  moved i hi := by
    have hd : dst + UInt64.ofNat i - dst = UInt64.ofNat i := by grind
    rw [moved, hd, if_pos]
    rwa [UInt64.toNat_ofNat_of_lt' (lt_trans hi hn)]
  same a ha := if_neg fun hlt => ha _ hlt (by rw [UInt64.ofNat_toNat]; grind)

/-! ## The two functions -/

theorem Kstring.memmove_eq {k : UInt32} (hs : src.toNat + k.toNat ≤ 2 ^ 64)
    (hd : dst.toNat + k.toNat ≤ 2 ^ 64) :
    Kstring.memmove m dst src k = moved m dst src k.toNat := by
  have hk := k.toNat_lt
  have hcast : k.toUInt64 = UInt64.ofNat k.toNat := by simp
  unfold Kstring.memmove
  split_ifs with h0 hdown
  · rw [h0]
    rfl
  · rw [hcast]
    refine copyDown_eq (by omega) (.inr ?_)
    have hlt := UInt64.lt_iff_toNat_lt.mp hdown.1
    rw [UInt64.toNat_sub]
    omega
  · refine copyUp_eq (by omega) ?_
    rw [UInt64.lt_iff_toNat_lt, gt_iff_lt, UInt64.lt_iff_toNat_lt, UInt64.toNat_add,
      UInt32.toNat_toUInt64] at hdown
    rw [UInt64.toNat_sub, ← UInt64.toNat_inj]
    omega

theorem Ulib.memmove_eq {k : Int32} (hk : k.toInt = n) (hs : src.toNat + n ≤ 2 ^ 64)
    (hd : dst.toNat + n ≤ 2 ^ 64) : Ulib.memmove m dst src k = moved m dst src n := by
  have hlt := k.toInt_lt
  have hcast : UInt64.ofInt n = UInt64.ofNat n := by
    unfold UInt64.ofInt
    congr
    omega
  unfold Ulib.memmove
  rw [hk, Int.toNat_natCast, hcast]
  split_ifs with hup
  · have hup := UInt64.lt_iff_toNat_lt.mp hup
    refine copyUp_eq (by omega) (.inr ?_)
    rw [UInt64.toNat_sub]
    omega
  · have hup := UInt64.lt_iff_toNat_lt.not.mp hup
    refine copyDown_eq (by omega) ?_
    rw [UInt64.toNat_sub, ← UInt64.toNat_inj]
    omega

/-- **Both copies move the bytes**, for every overlap of the ranges and every length that their
parameter can hold, **and so agree.** -/
theorem memmove_moves (m : Bytes64) (dst src : UInt64) (n : ℕ) (hs : src.toNat + n ≤ 2 ^ 64)
    (hd : dst.toNat + n ≤ 2 ^ 64) :
    (∀ k : UInt32, k.toNat = n → Moves m (Kstring.memmove m dst src k) dst src n) ∧
    (∀ k : Int32, k.toInt = n → Moves m (Ulib.memmove m dst src k) dst src n) ∧
    ∀ (k : UInt32) (k' : Int32), k.toNat = n → k'.toInt = n →
      Kstring.memmove m dst src k = Ulib.memmove m dst src k' := by
  refine ⟨?_, fun k hk => ?_, ?_⟩
  · rintro k rfl
    rw [Kstring.memmove_eq hs hd]
    exact moves_moved (by have := k.toNat_lt; omega)
  · rw [Ulib.memmove_eq hk hs hd]
    exact moves_moved (by have := k.toInt_lt; omega)
  · rintro k k' rfl hk'
    rw [Kstring.memmove_eq hs hd, Ulib.memmove_eq hk' hs hd]

/-- Two bytes at the end of memory are moved down by one. -/
theorem memmove_moves_last : Moves (fun a => a.toUInt8)
    (Ulib.memmove (fun a => a.toUInt8) (-3) (-2) 2) (-3) (-2) 2 :=
  (memmove_moves _ (-3) (-2) 2 (by decide) (by decide)).2.1 2 (by decide)

end Xv6
