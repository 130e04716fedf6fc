import Mathlib.Data.List.Induction
import Mathlib.Algebra.BigOperators.Ring.List
import OsProject.Sysfile

/-!
# The entries of a directory

The contents of a directory are a sequence of 16-byte entries. The loops of
`fs.c` over them are searches in the list of entries (`ents`): `dirlookup` for
the first entry with a name, `dirlink` for the first that is not in use. A write
of an entry replaces one element of the list or adds one to its end.
-/

namespace Xv6

open List

open Blocks.State (dirent)

/-- The entries of a directory with these contents. -/
def ents (data : List UInt8) : List (List UInt8) :=
  (List.range (data.length / 16)).map (fun k => (data.drop (16 * k)).take 16)

/-- An entry in use with this name, as `dirlookup` compares them. -/
def Named (name de : List UInt8) : Prop := direntInum de ≠ 0 ∧ namecmp name (de.drop 2) = 0

instance (name de : List UInt8) : Decidable (Named name de) := inferInstanceAs (Decidable (_ ∧ _))

/-- What the contents of a directory are like: whole entries, and fewer than 4 GB. -/
structure Whole (data : List UInt8) : Prop where
  dvd : 16 ∣ data.length
  lt : data.length < 2 ^ 32

variable {data name de a b : List UInt8} {k n inum : ℕ}

@[simp] theorem length_ents (data : List UInt8) : (ents data).length = data.length / 16 := by
  simp [ents]

/-- What is read at an entry. -/
theorem readi_ents (hd : data.length < 2 ^ 32) (h : k < (ents data).length) :
    readi data (16 * k) 16 = (ents data)[k] := by
  rw [length_ents] at h
  rw [show (ents data)[k] = (data.drop (16 * k)).take 16 by simp [ents], readi, if_neg]
  rw [Nat.mod_eq_of_lt (by omega)]
  omega

theorem length_of_mem_ents (h : de ∈ ents data) : de.length = 16 := by
  obtain ⟨_, hk, rfl⟩ := mem_map.mp h
  have := mem_range.mp hk
  rw [length_take, length_drop]
  omega

theorem Whole.count_eq (h : Whole data) : (data.length + 15) / 16 = (ents data).length := by
  obtain ⟨_, _⟩ := h.dvd
  rw [length_ents]
  omega

/-- **The loop of `dirlookup`** finds the first entry in use with the name. -/
theorem dirScan_drop (name : List UInt8) (hd : data.length < 2 ^ 32)
    (hn : k + n = (ents data).length) :
    dirScan data name (16 * k) n =
      .ok ((((ents data).drop k).find? (fun de => decide (Named name de))).map direntInum) := by
  induction n generalizing k with
  | zero =>
    rw [drop_eq_nil_of_le (by omega)]
    rfl
  | succ n ih =>
    have hk : k < (ents data).length := by omega
    have hlen := length_of_mem_ents (getElem_mem hk)
    have ih' := ih (k := k + 1) (by omega)
    rw [dirScan, readi_ents hd hk, drop_eq_getElem_cons hk]
    rw [mul_add, mul_one] at ih'
    generalize (ents data)[k] = de at hlen
    show (if de.length ≠ 16 then _ else if direntInum de = 0 then _ else _) = _
    rw [if_neg (fun h => h hlen)]
    by_cases h0 : direntInum de = 0
    · rw [if_pos h0, find?_cons_of_neg (by simp [Named, h0]), ih']
    · rw [if_neg h0]
      by_cases hm : namecmp name (de.drop 2) = 0
      · rw [if_pos hm, find?_cons_of_pos (by simp [Named, h0, hm])]
        rfl
      · rw [if_neg hm, find?_cons_of_neg (by simp [Named, hm]), ih']

theorem dirScan_eq (h : Whole data) : dirScan data name 0 ((data.length + 15) / 16) =
      .ok (((ents data).find? (fun de => decide (Named name de))).map direntInum) := by
  have := dirScan_drop name h.lt (zero_add _)
  rwa [mul_zero, drop_zero, ← h.count_eq] at this

/-! ## Changing an entry -/

theorem length_dirent (name : List UInt8) (inum : ℕ) : (dirent name inum).length = 16 := by
  simp [dirent]

/-- The number in an entry. -/
theorem direntInum_dirent : direntInum (dirent name inum) = inum % 2 ^ 16 := by
  show (UInt8.ofNat inum).toNat + 256 * (UInt8.ofNat (inum / 256)).toNat = inum % 2 ^ 16
  rw [UInt8.toNat_ofNat', UInt8.toNat_ofNat']
  omega

/-- An entry at the end. -/
theorem ents_append (hdvd : 16 ∣ data.length) (hde : de.length = 16) :
    ents (data ++ de) = ents data ++ [de] := by
  obtain ⟨m, hm⟩ := hdvd
  have hlen : (data ++ de).length / 16 = m + 1 := by
    rw [length_append]
    omega
  have hm' : data.length / 16 = m := by omega
  unfold ents
  rw [hlen, hm', range_succ, map_append]
  congr 1
  · refine map_congr_left fun k hk => ?_
    have := mem_range.mp hk
    rw [drop_append_of_le_length (by omega), take_append_of_le_length]
    rw [length_drop]
    omega
  · rw [map_singleton, ← hm, drop_left, ← hde, take_length]

/-- The entries, written one after the other. -/
theorem ents_flatten {des : List (List UInt8)} (h : ∀ de ∈ des, de.length = 16) :
    ents des.flatten = des := by
  induction des using reverseRecOn with
  | nil => rfl
  | append_singleton des de ih =>
    have hdes : ∀ d ∈ des, d.length = 16 := fun d hd => h d (mem_append_left _ hd)
    have hdvd : 16 ∣ des.flatten.length := by
      rw [length_flatten]
      refine dvd_sum fun m hm => ?_
      obtain ⟨d, hd, rfl⟩ := mem_map.mp hm
      rw [hdes d hd]
    rw [flatten_append, flatten_singleton,
      ents_append hdvd (h de (mem_append_right _ (mem_singleton.mpr rfl))), ih hdes]

/-! ## Names -/

/-- **Names are compared as strings**, of which the second is filled with NULs. -/
theorem strncmp_eq_zero_iff (ha : 0 ∉ a) (hb : 0 ∉ b) (hla : a.length ≤ n)
    (hlb : b.length ≤ n) : strncmp n a (b ++ List.replicate (n - b.length) 0) = 0 ↔ a = b := by
  induction n generalizing a b with
  | zero =>
    rw [eq_nil_of_length_eq_zero (Nat.le_zero.mp hla),
      eq_nil_of_length_eq_zero (Nat.le_zero.mp hlb)]
    exact iff_of_true rfl rfl
  | succ n ih =>
    rw [strncmp]
    cases a with
    | nil =>
      cases b with
      | nil => simp [replicate_succ]
      | cons y =>
        have hy : y ≠ 0 := fun h => hb (h ▸ mem_cons_self)
        have : y.toNat ≠ 0 := fun h => hy (UInt8.toNat_inj.mp h)
        simp [this]
    | cons x =>
      have hx : x ≠ 0 := fun h => ha (h ▸ mem_cons_self)
      have hx' : x.toNat ≠ 0 := fun h => hx (UInt8.toNat_inj.mp h)
      cases b with
      | nil => simp [replicate_succ, hx, hx']
      | cons y =>
        by_cases hxy : x = y
        · subst hxy
          have := ih (fun h => ha (mem_cons_of_mem x h)) (fun h => hb (mem_cons_of_mem x h))
            (Nat.le_of_succ_le_succ hla) (Nat.le_of_succ_le_succ hlb)
          simpa [hx] using this
        · have hne : x.toNat ≠ y.toNat := fun h => hxy (UInt8.toNat_inj.mp h)
          rw [if_neg (fun h => hxy h.2)]
          simp only [cons_append, headD_cons, cons.injEq, hxy, false_and, iff_false]
          omega

/-- `strncmp` looks at `n` bytes. -/
theorem strncmp_take (n : ℕ) (a q : List UInt8) : strncmp n (a.take n) q = strncmp n a q := by
  induction n generalizing a q with
  | zero => rfl
  | succ n ih =>
    cases a with
    | nil => rfl
    | cons =>
      simp only [take_succ_cons, strncmp, headD_cons, tail_cons, ih]
      rfl

theorem take_name (h : 0 ∉ b) : 0 ∉ b.take DIRSIZ ∧ (b.take DIRSIZ).length ≤ DIRSIZ :=
  ⟨fun hc => h (mem_of_mem_take hc), length_take_le _ _⟩

/-- **Two names are the same for a directory** if they have the same first `DIRSIZ` bytes. -/
theorem namecmp_dirent (ha : 0 ∉ a) (hb : 0 ∉ b) :
    namecmp a ((dirent b inum).drop 2) = 0 ↔ a.take DIRSIZ = b.take DIRSIZ := by
  rw [namecmp, ← strncmp_take]
  exact strncmp_eq_zero_iff (take_name ha).1 (take_name hb).1 (take_name ha).2 (take_name hb).2

/-- **An entry has the name it was written with.** -/
theorem named_dirent_iff (ha : 0 ∉ a) (hb : 0 ∉ b) (hla : a.length ≤ DIRSIZ)
    (hlb : b.length ≤ DIRSIZ) (h0 : 0 < inum) (h : inum < 2 ^ 16) :
    Named a (dirent b inum) ↔ a = b := by
  rw [Named, namecmp_dirent ha hb, take_of_length_le hla, take_of_length_le hlb,
    direntInum_dirent, Nat.mod_eq_of_lt h]
  exact and_iff_right (ne_of_gt h0)

end Xv6
