import Mathlib.Data.List.Nodup
import Mathlib.Logic.Function.Basic

/-!
# Doubly linked circular lists

A list kept in place: each node has a pointer to the next node and one to the previous
node, and a sentinel, which is no element, closes the circle. A node is an `Option α`, with
`none` for the sentinel.

`Links.Seg L x l y` says that from node `x`, the pointers lead through the elements `l` to
node `y`, and back. The list is a circle when `x` and `y` are the sentinel (`Links.Circle`).
Removing an element and putting it in front are four assignments of pointers each; a search
follows the pointers of one direction until it is back at the sentinel, and finds what a
search of `l` finds.
-/

/-- The pointers of all nodes. -/
structure Links (α : Type*) where
  next : Option α → Option α
  prev : Option α → Option α

namespace Links

open List

open Function (update update_of_ne update_self)

variable {α : Type*}

/-- The pointers through the elements `l`, from one node to another and back. -/
def Seg (L : Links α) : Option α → List α → Option α → Prop
  | x, [], y => L.next x = y ∧ L.prev y = x
  | x, a :: l, y => L.next x = some a ∧ L.prev (some a) = x ∧ L.Seg (some a) l y

variable {L L' : Links α} {x y : Option α} {a : α} {l l₁ l₂ as : List α}

theorem seg_append : L.Seg x (l₁ ++ a :: l₂) y ↔ L.Seg x l₁ (some a) ∧ L.Seg (some a) l₂ y := by
  induction l₁ generalizing x with
  | nil => exact and_assoc.symm
  | cons b l₁ ih =>
    show _ ∧ _ ∧ L.Seg (some b) (l₁ ++ a :: l₂) y ↔ (_ ∧ _ ∧ L.Seg (some b) l₁ (some a)) ∧ _
    rw [ih, and_assoc, and_assoc]

namespace Seg

/-- The pointers of other nodes do not matter. -/
theorem congr (h : L.Seg x l y) (hx : L'.next x = L.next x) (hy : L'.prev y = L.prev y)
    (hl : ∀ a ∈ l, L'.next (some a) = L.next (some a) ∧ L'.prev (some a) = L.prev (some a)) :
    L'.Seg x l y := by
  induction l generalizing x with
  | nil => exact ⟨hx.trans h.1, hy.trans h.2⟩
  | cons a l ih =>
    have ha := hl a mem_cons_self
    exact ⟨hx.trans h.1, ha.2.trans h.2.1, ih h.2.2 ha.1 (fun b hb => hl b (mem_cons_of_mem a hb))⟩

/-- The first node. -/
theorem next_mem (h : L.Seg x l y) : L.next x = y ∨ ∃ a ∈ l, L.next x = some a := by
  cases l with
  | nil => exact .inl h.1
  | cons a => exact .inr ⟨a, mem_cons_self, h.1⟩

/-- The last node. -/
theorem prev_mem (h : L.Seg x l y) : L.prev y = x ∨ ∃ a ∈ l, L.prev y = some a := by
  induction l generalizing x with
  | nil => exact .inl h.2
  | cons a l ih =>
    rcases ih h.2.2 with he | ⟨b, hb, he⟩
    · exact .inr ⟨a, mem_cons_self, he⟩
    · exact .inr ⟨b, mem_cons_of_mem a hb, he⟩

end Seg

/-- The pointers in the other direction. -/
def swap (L : Links α) : Links α := ⟨L.prev, L.next⟩

theorem Seg.reverse (h : L.Seg x l y) : L.swap.Seg y l.reverse x := by
  induction l generalizing x with
  | nil => exact ⟨h.2, h.1⟩
  | cons a l ih =>
    rw [reverse_cons]
    exact seg_append.mpr ⟨ih h.2.2, h.2.1, h.1⟩

/-! ## Searching -/

/-- Follow the pointers `f` from a node until an element satisfies `p` or the sentinel is
reached. `none` is for a search that is not over after so many rounds. -/
def walk (f : Option α → Option α) (p : α → Bool) : ℕ → Option α → Option (Option α)
  | 0, _ => none
  | _ + 1, none => some none
  | rounds + 1, some a => if p a then some (some a) else walk f p rounds (f (some a))

/-- **A search finds the first element that satisfies `p`.** -/
theorem Seg.walk (h : L.Seg x l none) (p : α → Bool) {rounds : ℕ} (hr : l.length < rounds) :
    walk L.next p rounds (L.next x) = some (l.find? p) := by
  induction l generalizing x rounds with
  | nil =>
    obtain ⟨rounds, rfl⟩ := Nat.exists_eq_add_of_lt hr
    rw [h.1]
    simp [Links.walk]
  | cons a l ih =>
    obtain ⟨rounds, rfl⟩ : ∃ n, rounds = n + 1 := ⟨rounds - 1, by omega⟩
    rw [h.1, Links.walk, List.find?_cons]
    cases p a with
    | true => rfl
    | false => exact ih h.2.2 (Nat.lt_of_succ_lt_succ hr)

/-! ## The circle -/

/-- **A circle through the elements `l`**, each of them once. -/
structure Circle (L : Links α) (l : List α) : Prop where
  seg : L.Seg none l none
  nodup : l.Nodup

/-- No elements. -/
def empty : Links α := ⟨fun _ => none, fun _ => none⟩

theorem circle_empty : (empty : Links α).Circle [] := ⟨⟨rfl, rfl⟩, nodup_nil⟩

variable [DecidableEq α]

/-- An element is taken out: `a->next->prev = a->prev; a->prev->next = a->next`. -/
def unlink (L : Links α) (a : α) : Links α where
  next := update L.next (L.prev (some a)) (L.next (some a))
  prev := update L.prev (L.next (some a)) (L.prev (some a))

/-- An element is put in front: `a->next = head.next; a->prev = &head; head.next->prev = a;
head.next = a`. -/
def pushFront (L : Links α) (a : α) : Links α where
  next := update (update L.next (some a) (L.next none)) none (some a)
  prev := update (update L.prev (some a) none) (L.next none) (some a)

theorem next_pushFront (L : Links α) (a : α) : (L.pushFront a).next =
    update (update L.next (some a) (L.next none)) none (some a) := rfl

theorem prev_pushFront (L : Links α) (a : α) : (L.pushFront a).prev =
    update (update L.prev (some a) none) (L.next none) (some a) := rfl

theorem Seg.unlink (h₁ : L.Seg x l₁ (some a)) (h₂ : L.Seg (some a) l₂ y)
    (hnd : (l₁ ++ a :: l₂).Nodup) (hx : ∀ b ∈ l₁ ++ a :: l₂, x ≠ some b)
    (hy : ∀ b ∈ l₁ ++ a :: l₂, y ≠ some b) : (L.unlink a).Seg x (l₁ ++ l₂) y := by
  induction l₁ generalizing x with
  | nil =>
    obtain ⟨-, hp⟩ := h₁
    have hnext : (L.unlink a).next = update L.next x (L.next (some a)) := by
      rw [Links.unlink, hp]
    have hprev : (L.unlink a).prev = update L.prev (L.next (some a)) x := by
      rw [Links.unlink, hp]
    cases l₂ with
    | nil =>
      constructor
      · rw [hnext, update_self, h₂.1]
      · rw [hprev, h₂.1, update_self]
    | cons b =>
      obtain ⟨hb, -, hseg⟩ := h₂
      rw [nil_append, nodup_cons, nodup_cons] at hnd
      refine ⟨?_, ?_, hseg.congr ?_ ?_ (fun c hc => ⟨?_, ?_⟩)⟩
      · rw [hnext, update_self, hb]
      · rw [hprev, hb, update_self]
      · rw [hnext, update_of_ne (hx b (by simp)).symm]
      · rw [hprev, hb, update_of_ne (hy b (by simp))]
      · rw [hnext, update_of_ne (hx c (by simp [hc])).symm]
      · rw [hprev, hb, update_of_ne]
        rintro ⟨⟩
        exact hnd.2.1 hc
  | cons c l₁ ih =>
    obtain ⟨hn, hp, h₁⟩ := h₁
    rw [cons_append, nodup_cons] at hnd
    refine ⟨?_, ?_, ih h₁ hnd.2 (fun b hb => ?_) (fun b hb => hy b (mem_cons_of_mem c hb))⟩
    · -- the last element before `a` is not `x`
      refine (update_of_ne ?_ _ _).trans hn
      rcases h₁.prev_mem with he | ⟨b, hb, he⟩ <;> rw [he]
      · exact hx c (by simp)
      · exact hx b (by simp [hb])
    · refine (update_of_ne ?_ _ _).trans hp
      rcases h₂.next_mem with he | ⟨b, hb, he⟩ <;> rw [he]
      · exact (hy c (by simp)).symm
      · rintro ⟨⟩
        exact hnd.1 (by simp [hb])
    · rintro ⟨⟩
      exact hnd.1 hb

/-- **Taking an element out.** -/
theorem Circle.unlink (h : L.Circle (l₁ ++ a :: l₂)) : (L.unlink a).Circle (l₁ ++ l₂) := by
  obtain ⟨h₁, h₂⟩ := seg_append.mp h.seg
  refine ⟨h₁.unlink h₂ h.nodup (fun _ _ => nofun) (fun _ _ => nofun), ?_⟩
  exact h.nodup.sublist (List.Sublist.append_left (sublist_cons_self a l₂) l₁)

/-- **Putting an element in front.** -/
theorem Circle.pushFront (h : L.Circle l) (ha : a ∉ l) : (L.pushFront a).Circle (a :: l) := by
  have hself : (L.pushFront a).next (some a) = L.next none := by
    rw [next_pushFront, update_of_ne (Option.some_ne_none a), update_self]
  have hfront : (L.pushFront a).prev (L.next none) = some a := by
    rw [prev_pushFront, update_self]
  have hnext : ∀ b ∈ l, (L.pushFront a).next (some b) = L.next (some b) := by
    intro b hb
    rw [next_pushFront, update_of_ne (Option.some_ne_none b), update_of_ne]
    rintro ⟨⟩
    exact ha hb
  have hprev : ∀ x, x ≠ L.next none → x ≠ some a → (L.pushFront a).prev x = L.prev x := by
    intro x h₁ h₂
    rw [prev_pushFront, update_of_ne h₁, update_of_ne h₂]
  -- what was in front is not `a`
  have hne : some a ≠ L.next none := by
    rcases h.seg.next_mem with he | ⟨b, hb, he⟩ <;> rw [he]
    · exact nofun
    · rintro ⟨⟩
      exact ha hb
  refine ⟨⟨?_, ?_, ?_⟩, nodup_cons.mpr ⟨ha, h.nodup⟩⟩
  · rw [next_pushFront, update_self]
  · rw [prev_pushFront, update_of_ne hne, update_self]
  cases l with
  | nil =>
    obtain ⟨hn, -⟩ := h.seg
    rw [hn] at hself hfront
    exact ⟨hself, hfront⟩
  | cons b =>
    obtain ⟨hn, -, hseg⟩ := h.seg
    obtain ⟨hb, -⟩ := nodup_cons.mp h.nodup
    rw [hn] at hself hfront hprev
    refine ⟨hself, hfront, hseg.congr (hnext b (by simp)) (hprev none nofun nofun)
      (fun c hc => ⟨hnext c (by simp [hc]), hprev (some c) ?_ ?_⟩)⟩
    · rintro ⟨⟩
      exact hb hc
    · rintro ⟨⟩
      exact ha (by simp [hc])

/-- Entries pushed to the front one after the other. -/
theorem Circle.foldl_pushFront (h : L.Circle l) (hnd : as.Nodup) (hl : ∀ a ∈ as, a ∉ l) :
    (as.foldl Links.pushFront L).Circle (as.reverse ++ l) := by
  induction as generalizing L l with
  | nil => exact h
  | cons a as ih =>
    obtain ⟨ha, hnd⟩ := nodup_cons.mp hnd
    rw [foldl_cons, reverse_cons, append_assoc]
    refine ih (h.pushFront (hl a mem_cons_self)) hnd fun b hb hm => ?_
    rcases mem_cons.mp hm with rfl | hm
    · exact ha hb
    · exact hl b (mem_cons_of_mem _ hb) hm

/-- **A list that is built from nothing.** -/
theorem circle_foldl_pushFront (hnd : as.Nodup) :
    (as.foldl Links.pushFront empty).Circle as.reverse := by
  have := circle_empty.foldl_pushFront hnd (fun _ _ => not_mem_nil)
  rwa [append_nil] at this

end Links
