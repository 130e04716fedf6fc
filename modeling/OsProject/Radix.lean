import Mathlib.Data.Set.Insert
import Mathlib.Data.List.Induction
import Mathlib.Logic.Function.Basic

/-!
# Trees of tables in a memory

A radix tree kept in memory is a table whose entries hold the addresses of
further tables, down to a fixed depth. `M a i` is the word in entry `i` of the
table at address `a`, and `dec` tells whether a word is a link, and to where.
Nothing else about memories, addresses or words is assumed.

The tree is not recorded anywhere: it is what one finds by following links
(`descend`). What makes it a tree is that no table is found along two paths
(`IsTree`), and this is what a program that changes it relies on. Writing an
entry of a table at the bottom changes no path (`descend_update_leaf`); hanging
a fresh table under an empty entry adds one path and one table (`descend_link`). The tables below
two entries have nothing in common
(`IsTree.child_disjoint`), so the tree can be taken down piece by piece.
-/

namespace Radix

open Function List Option

variable {A ι W : Type*} (dec : W → Option A)

/-- The table at the end of a path. -/
def descend (M : A → ι → W) : A → List ι → Option A
  | a, [] => some a
  | a, i :: p => (dec (M a i)).bind (fun b => descend M b p)

/-- No table at depth `d` or above is found along two paths. -/
def IsTree (M : A → ι → W) (root : A) (d : ℕ) : Prop :=
  ∀ p q a, p.length ≤ d → q.length ≤ d → descend dec M root p = some a →
    descend dec M root q = some a → p = q

/-- The tables down to depth `d`. -/
def nodes (M : A → ι → W) (root : A) (d : ℕ) : Set A :=
  {a | ∃ p : List ι, p.length ≤ d ∧ descend dec M root p = some a}

variable {dec} {M M' : A → ι → W} {root a b g x : A} {i j : ι} {p q : List ι} {d : ℕ}

@[simp] theorem descend_nil : descend dec M a [] = some a := rfl

theorem descend_cons :
    descend dec M a (i :: p) = (dec (M a i)).bind (fun b => descend dec M b p) := rfl

theorem descend_append :
    descend dec M a (p ++ q) = (descend dec M a p).bind (fun b => descend dec M b q) := by
  induction p generalizing a with
  | nil => rfl
  | cons i p ih =>
    rw [cons_append, descend_cons, descend_cons, bind_assoc]
    exact congrArg _ (funext (fun b => ih))

theorem descend_snoc :
    descend dec M a (p ++ [i]) = (descend dec M a p).bind (fun b => dec (M b i)) := by
  rw [descend_append]
  refine congrArg _ (funext (fun b => ?_))
  rw [descend_cons]
  cases dec (M b i) <;> rfl

theorem root_mem_nodes : root ∈ nodes dec M root d := ⟨[], Nat.zero_le _, rfl⟩

/-- A path depends on the entries it follows. -/
theorem descend_congr
    (h : ∀ q i, (q ++ [i]) <+: p → ∀ b, descend dec M a q = some b → M' b i = M b i) :
    descend dec M' a p = descend dec M a p := by
  induction p using reverseRecOn with
  | nil => rfl
  | append_singleton p i ih =>
    have hp : descend dec M' a p = descend dec M a p :=
      ih (fun q j hq => h q j (hq.trans (prefix_append p [i])))
    rw [descend_snoc, descend_snoc, hp]
    cases hb : descend dec M a p with
    | none => rfl
    | some b => exact congrArg dec (h p i prefix_rfl b hb)

theorem length_lt_of_snoc (h : (q ++ [i]) <+: p) : q.length < p.length := by
  have hl := h.length_le
  rwa [length_append, length_singleton] at hl

/-- Memories that agree on the tables above depth `d` have the same paths. -/
theorem descend_congr_nodes (h : ∀ q b, q.length < d → descend dec M root q = some b → M' b = M b)
    (hp : p.length ≤ d) : descend dec M' root p = descend dec M root p :=
  descend_congr (fun q i hq b hb =>
    congrFun (h q b ((length_lt_of_snoc hq).trans_le hp) hb) i)

/-- The same paths make the same tree. -/
theorem IsTree.congr (h : IsTree dec M root d)
    (hM : ∀ p, p.length ≤ d → descend dec M' root p = descend dec M root p) :
    IsTree dec M' root d := by
  intro p q a hp hq ha ha'
  rw [hM p hp] at ha
  rw [hM q hq] at ha'
  exact h p q a hp hq ha ha'

theorem nodes_congr (hM : ∀ p, p.length ≤ d → descend dec M' root p = descend dec M root p) :
    nodes dec M' root d = nodes dec M root d := by
  ext a
  refine exists_congr fun p => and_congr_right (fun hp => ?_)
  rw [hM p hp]

section Update

variable [DecidableEq A]

/-- **Writing a table at the bottom changes no path.** -/
theorem descend_update_leaf (h : IsTree dec M root d) (hg : descend dec M root p = some g)
    (hp : p.length = d) (row : ι → W) (hq : q.length ≤ d) :
    descend dec (update M g row) root q = descend dec M root q := by
  refine descend_congr_nodes (fun q' b hq' hb => ?_) hq
  have hne : b ≠ g := by
    rintro rfl
    rw [h q' p b hq'.le (le_of_eq hp) hb hg, hp] at hq'
    exact lt_irrefl _ hq'
  rw [update_of_ne hne]

variable [DecidableEq ι]

/-- The memory after a fresh table `x`, holding `zero`, was hung under entry
`i` of table `g` with the word `w`. -/
def link (M : A → ι → W) (g : A) (i : ι) (x : A) (zero : ι → W) (w : W) : A → ι → W :=
  update (update M x zero) g (update (M g) i w)

variable (h : IsTree dec M root d)
include h

variable (hg : descend dec M root p = some g)
include hg

variable {zero : ι → W} {w : W}

/-- **Hanging a fresh table under an empty entry adds one path.** -/
theorem descend_link (hp : p.length < d) (hi : dec (M g i) = none) (hx : x ∉ nodes dec M root d)
    (hzero : ∀ j, dec (zero j) = none) (hw : dec w = some x) (hq : q.length ≤ d) :
    descend dec (link M g i x zero w) root q =
      if q = p ++ [i] then some x else descend dec M root q := by
  have hxg : x ≠ g := by
    rintro rfl
    exact hx ⟨p, hp.le, hg⟩
  -- by induction on the path, whose last entry is followed last
  induction q using reverseRecOn with
  | nil => simp
  | append_singleton q j ih =>
    rw [length_append, length_singleton] at hq
    rw [descend_snoc, ih (by omega)]
    by_cases hqp : q = p ++ [i]
    · -- below the new table there is nothing yet
      have hne : q ++ [j] ≠ p ++ [i] := by
        rw [← hqp]
        simp
      rw [if_pos hqp, if_neg hne, descend_snoc, hqp, descend_snoc, hg]
      simp [link, hxg, hzero, hi]
    · rw [if_neg hqp]
      cases hb : descend dec M root q with
      | none =>
        have hne : q ++ [j] ≠ p ++ [i] := by
          intro he
          rw [(append_singleton_inj.mp he).1, hg] at hb
          cases hb
        rw [if_neg hne, descend_snoc, hb]
        rfl
      | some b =>
        have hbx : b ≠ x := by
          rintro rfl
          exact hx ⟨q, by omega, hb⟩
        by_cases hbg : b = g
        · have hqeq : q = p := h q p g (by omega) hp.le (hbg ▸ hb) hg
          subst hqeq
          by_cases hji : j = i
          · simp [link, hbg, hji, hw]
          · have hne : q ++ [j] ≠ q ++ [i] := by simpa using hji
            rw [if_neg hne, descend_snoc, hb]
            simp [link, hbg, hji]
        · have hne : q ++ [j] ≠ p ++ [i] := by
            intro he
            rw [(append_singleton_inj.mp he).1, hg] at hb
            exact hbg (some.inj hb).symm
          rw [if_neg hne, descend_snoc, hb]
          simp [link, hbg, hbx]

/-- **The result is a tree with one table more.** -/
theorem IsTree.link (hp : p.length < d) (hi : dec (M g i) = none) (hx : x ∉ nodes dec M root d)
    (hzero : ∀ j, dec (zero j) = none) (hw : dec w = some x) :
    IsTree dec (Radix.link M g i x zero w) root d := by
  have hdesc := fun {q : List ι} (hq : q.length ≤ d) =>
    descend_link h hg hp hi hx hzero hw hq
  intro q r a hq hr ha ha'
  rw [hdesc hq] at ha
  rw [hdesc hr] at ha'
  by_cases hqp : q = p ++ [i] <;> by_cases hrp : r = p ++ [i]
  · rw [hqp, hrp]
  · rw [if_pos hqp, some.injEq] at ha
    rw [if_neg hrp, ← ha] at ha'
    exact absurd ⟨r, hr, ha'⟩ hx
  · rw [if_pos hrp, some.injEq] at ha'
    rw [if_neg hqp, ← ha'] at ha
    exact absurd ⟨q, hq, ha⟩ hx
  · rw [if_neg hqp] at ha
    rw [if_neg hrp] at ha'
    exact h q r a hq hr ha ha'

theorem nodes_link (hp : p.length < d) (hi : dec (M g i) = none) (hx : x ∉ nodes dec M root d)
    (hzero : ∀ j, dec (zero j) = none) (hw : dec w = some x) :
    nodes dec (Radix.link M g i x zero w) root d = insert x (nodes dec M root d) := by
  have hdesc := fun {q : List ι} (hq : q.length ≤ d) =>
    descend_link h hg hp hi hx hzero hw hq
  have hpi : (p ++ [i]).length ≤ d := by
    rw [length_append]
    exact hp
  ext a
  constructor
  · rintro ⟨q, hq, ha⟩
    rw [hdesc hq] at ha
    split_ifs at ha with hqp
    · exact .inl (some.inj ha).symm
    · exact .inr ⟨q, hq, ha⟩
  · rintro (rfl | ⟨q, hq, ha⟩)
    · exact ⟨p ++ [i], hpi, by rw [hdesc hpi, if_pos rfl]⟩
    · refine ⟨q, hq, ?_⟩
      have hqp : q ≠ p ++ [i] := by
        rintro rfl
        rw [descend_snoc, hg] at ha
        exact absurd (ha.symm.trans hi) (by simp)
      rw [hdesc hq, if_neg hqp, ha]

end Update

/-! ## Subtrees -/

/-- The tables of a tree are its root and the tables below its entries. -/
theorem mem_nodes_succ : a ∈ nodes dec M root (d + 1) ↔
      a = root ∨ ∃ i b, dec (M root i) = some b ∧ a ∈ nodes dec M b d := by
  constructor
  · rintro ⟨p, hp, ha⟩
    cases p with
    | nil => exact .inl (some.inj ha).symm
    | cons i p =>
      rw [descend_cons] at ha
      obtain ⟨b, hb, ha⟩ := bind_eq_some_iff.mp ha
      exact .inr ⟨i, b, hb, p, Nat.le_of_succ_le_succ hp, ha⟩
  · rintro (rfl | ⟨i, b, hb, p, hp, ha⟩)
    · exact root_mem_nodes
    · refine ⟨i :: p, Nat.succ_le_succ hp, ?_⟩
      rw [descend_cons, hb]
      exact ha

theorem nodes_zero : nodes dec M root 0 = {root} := by
  ext a
  constructor
  · rintro ⟨p, hp, ha⟩
    rw [length_eq_zero_iff.mp (Nat.le_zero.mp hp)] at ha
    exact (some.inj ha).symm
  · rintro rfl
    exact root_mem_nodes

variable (h : IsTree dec M root (d + 1))
include h

/-- What is below an entry of a tree is a tree. -/
theorem IsTree.child (hb : dec (M root i) = some b) : IsTree dec M b d := by
  intro p q a hp hq ha ha'
  have hcons : ∀ {r}, descend dec M b r = some a → descend dec M root (i :: r) = some a := by
    intro r hr
    rw [descend_cons, hb]
    exact hr
  exact (cons.inj (h (i :: p) (i :: q) a (Nat.succ_le_succ hp) (Nat.succ_le_succ hq)
    (hcons ha) (hcons ha'))).2

theorem IsTree.root_notMem_child (hb : dec (M root i) = some b) : root ∉ nodes dec M b d := by
  rintro ⟨p, hp, ha⟩
  have hroot : descend dec M root (i :: p) = some root := by
    rw [descend_cons, hb]
    exact ha
  cases h (i :: p) [] root (Nat.succ_le_succ hp) (Nat.zero_le _) hroot rfl

/-- **The tables below two entries have nothing in common.** -/
theorem IsTree.child_disjoint (hij : i ≠ j) (hb : dec (M root i) = some b)
    (hg : dec (M root j) = some g) (ha : a ∈ nodes dec M b d) : a ∉ nodes dec M g d := by
  obtain ⟨p, hp, ha⟩ := ha
  rintro ⟨q, hq, ha'⟩
  have hl : descend dec M root (i :: p) = some a := by
    rw [descend_cons, hb]
    exact ha
  have hr : descend dec M root (j :: q) = some a := by
    rw [descend_cons, hg]
    exact ha'
  exact hij (cons.inj (h _ _ a (Nat.succ_le_succ hp) (Nat.succ_le_succ hq) hl hr)).1

end Radix
