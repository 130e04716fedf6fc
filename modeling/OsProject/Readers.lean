import Mathlib.Data.List.Find
import Mathlib.Data.List.SplitBy
import Mathlib.Data.List.TakeWhile
import Mathlib.Data.Nat.Init

/-!
# Reading a list item by item

A reader takes the next item from the front of a list, or finds none. A program that calls it
until it finds none has the items one after another (`delivered`). Here the items are the lines
of a text, or its words, the longest parts without a separator.

Programs read into buffers. A reader with a buffer for `n` elements takes the first `n` of an
item, and the rest of the item is the next one. So what it delivers are the items, cut into
`chunks`: as many as there are items exactly if every item fits (`length_flatMap_chunks`).
-/

namespace Text

open List

variable {α β : Type}

/-! ## Repeated calls -/

/-- What successive calls deliver, at most so many of them, until one delivers nothing. -/
def deliver (next : List α → Option (β × List α)) : ℕ → List α → List β
  | 0, _ => []
  | n + 1, s =>
    match next s with
    | none => []
    | some (b, s) => b :: deliver next n s

/-- What successive calls deliver, if every call takes something. -/
def delivered (next : List α → Option (β × List α)) (s : List α) : List β :=
  deliver next (s.length + 1) s

/-- **What is delivered is determined by its equation.** -/
theorem delivered_unique {next : List α → Option (β × List α)} {f : List α → List β}
    (hf : ∀ s, next s = none ∧ f s = [] ∨
      ∃ b s', next s = some (b, s') ∧ s'.length < s.length ∧ f s = b :: f s') (s : List α) :
    delivered next s = f s := by
  have hdeliver : ∀ n s, s.length < n → deliver next n s = f s := by
    intro n
    induction n with
    | zero => exact fun s hs => absurd hs (Nat.not_lt_zero _)
    | succ n ih =>
      intro s hs
      rw [deliver]
      rcases hf s with ⟨hnext, hnil⟩ | ⟨b, s', hnext, hlt, hcons⟩
      · rw [hnext, hnil]
      · rw [hnext, hcons, ← ih s' (by omega)]
  exact hdeliver _ s (Nat.lt_succ_self _)

/-- There are no more items than elements, if every call takes one. -/
theorem length_delivered_le {next : List α → Option (β × List α)}
    (h : ∀ s b s', next s = some (b, s') → s'.length < s.length) (s : List α) :
    (delivered next s).length ≤ s.length := by
  have hdeliver : ∀ n s, (deliver next n s).length ≤ s.length := by
    intro n
    induction n with
    | zero => exact fun s => Nat.zero_le _
    | succ n ih =>
      intro s
      rw [deliver]
      split
      · exact Nat.zero_le _
      · next b s' hnext =>
        have hlt := h s b s' hnext
        have hle := ih s'
        rw [length_cons]
        omega
  exact hdeliver _ s

/-! ## Chunks -/

section

variable {n : ℕ} {w : List α} {ws : List (List α)}

/-- The first `n` elements, the next `n`, and so on. -/
def chunks (n : ℕ) (w : List α) : List (List α) :=
  if _h : w = [] ∨ n = 0 then [] else w.take n :: chunks n (w.drop n)
termination_by w.length
decreasing_by
  have hpos := length_pos_iff.mpr (fun hw => _h (.inl hw))
  rw [length_drop]
  omega

theorem chunks_nil : chunks n ([] : List α) = [] := by
  rw [chunks, dif_pos (.inl rfl)]

theorem chunks_eq (hn : 0 < n) (hw : w ≠ []) : chunks n w = w.take n :: chunks n (w.drop n) := by
  rw [chunks, dif_neg (by rintro (h | h); exacts [hw h, hn.ne' h])]

theorem chunks_of_le (hw : w ≠ []) (hle : w.length ≤ n) : chunks n w = [w] := by
  have hpos := length_pos_iff.mpr hw
  rw [chunks_eq (by omega) hw, drop_eq_nil_of_le hle, take_of_length_le hle, chunks_nil]

/-- An item that does not fit is cut. -/
theorem one_lt_length_chunks (hn : 0 < n) (hlt : n < w.length) : 1 < (chunks n w).length := by
  have hne : w.drop n ≠ [] := by
    rw [Ne, drop_eq_nil_iff]
    omega
  rw [chunks_eq hn (ne_nil_of_length_pos (by omega)), chunks_eq hn hne]
  simp

theorem flatten_chunks (hn : 0 < n) (w : List α) : (chunks n w).flatten = w := by
  induction w using chunks.induct n with
  | case1 w h =>
    rcases h with rfl | h
    · rw [chunks_nil, flatten_nil]
    · exact absurd h hn.ne'
  | case2 w h ih => rw [chunks_eq hn (fun hw => h (.inl hw)), flatten_cons, ih, take_append_drop]

theorem infix_of_mem_chunks (hn : 0 < n) {p : List α} (h : p ∈ chunks n w) : p <:+: w := by
  have hin := infix_of_mem_flatten h
  rwa [flatten_chunks hn] at hin

/-- **There are as many chunks as items exactly if every item fits.** -/
theorem length_flatMap_chunks (hn : 0 < n) (hws : ∀ w ∈ ws, w ≠ []) :
    ws.length ≤ (ws.flatMap (chunks n)).length ∧
      ((ws.flatMap (chunks n)).length = ws.length ↔ ∀ w ∈ ws, w.length ≤ n) := by
  induction ws with
  | nil => simp
  | cons w ws ih =>
    obtain ⟨_, hiff⟩ := ih (fun v hv => hws v (mem_cons_of_mem w hv))
    simp only [flatMap_cons, length_append, length_cons, forall_mem_cons, ← hiff]
    by_cases hfit : w.length ≤ n
    · rw [chunks_of_le (hws w mem_cons_self) hfit]
      simp only [length_singleton]
      omega
    · have hlt := one_lt_length_chunks hn (Nat.lt_of_not_le hfit)
      omega

theorem flatMap_chunks (hws : ∀ w ∈ ws, w ≠ [] ∧ w.length ≤ n) : ws.flatMap (chunks n) = ws := by
  rw [flatMap_congr (fun w hw => chunks_of_le (hws w hw).1 (hws w hw).2), flatMap_singleton']

end

/-! ## Lines -/

section

variable [BEq α] {e : α} {n : ℕ}

/-- **The lines**: they go on until there is an `e`. -/
def lines (e : α) (s : List α) : List (List α) := s.splitBy (fun a _ => a != e)

/-- At most `n` elements of the first line, and what comes after them. -/
def nextLine (e : α) (n : ℕ) (s : List α) : Option (List α × List α) :=
  match lines e s with
  | [] => none
  | l :: ls => some (l.take n, l.drop n ++ ls.flatten)

theorem lines_ne_nil {s l : List α} (h : l ∈ lines e s) : l ≠ [] := ne_nil_of_mem_splitBy h

theorem infix_of_mem_lines {s l : List α} (h : l ∈ lines e s) : l <:+: s := by
  have hin := infix_of_mem_flatten h
  rwa [lines, flatten_splitBy] at hin

/-- The rest of a line is a line. -/
theorem lines_drop {s l : List α} {ls : List (List α)} (h : lines e s = l :: ls) (n : ℕ) :
    lines e (l.drop n ++ ls.flatten) = if l.drop n = [] then ls else l.drop n :: ls := by
  obtain ⟨-, hn, hc, hb⟩ := splitBy_eq_iff.mp h
  rw [mem_cons, not_or] at hn
  split
  · next hd =>
    rw [hd, nil_append]
    exact splitBy_flatten hn.2 (fun m hm => hc m (mem_cons_of_mem l hm)) hb.tail
  · next hd =>
    refine splitBy_flatten (l := l.drop n :: ls) ?_ ?_ ?_
    · exact not_mem_cons_of_ne_of_not_mem (Ne.symm hd) hn.2
    · intro m hm
      rcases mem_cons.mp hm with rfl | hm
      · exact (hc l mem_cons_self).drop n
      · exact hc m (mem_cons_of_mem l hm)
    · rw [isChain_cons] at hb ⊢
      refine ⟨fun m hm => ?_, hb.2⟩
      obtain ⟨_, hne, he⟩ := hb.1 m hm
      exact ⟨hd, hne, by rw [getLast_drop]; exact he⟩

theorem lines_flatMap [LawfulBEq α] {xs : List β} {f : β → List α} (h : ∀ x ∈ xs, e ∉ f x) :
    lines e (xs.flatMap (fun x => f x ++ [e])) = xs.map (fun x => f x ++ [e]) := by
  rw [flatMap_def]
  refine splitBy_flatten (by simp) ?_ ?_
  · intro m hm
    obtain ⟨x, hx, rfl⟩ := mem_map.mp hm
    have hne : ∀ a ∈ f x, (a != e) = true := fun a ha =>
      bne_iff_ne.mpr (ne_of_mem_of_not_mem ha (h x hx))
    refine List.Pairwise.isChain (pairwise_append.mpr ⟨?_, by simp, fun a ha _ _ => hne a ha⟩)
    exact pairwise_of_forall_mem_list fun a ha _ _ => hne a ha
  · refine (isChain_map _).mpr (List.Pairwise.isChain (pairwise_of_forall fun x y => ?_))
    exact ⟨by simp, by simp, by simp⟩

/-- **A reader of lines with a buffer delivers them in chunks.** -/
theorem delivered_nextLine (hn : 0 < n) (s : List α) :
    delivered (nextLine e n) s = (lines e s).flatMap (chunks n) := by
  refine delivered_unique (f := fun s => (lines e s).flatMap (chunks n)) (fun s => ?_) s
  have hflat : (lines e s).flatten = s := flatten_splitBy _ s
  unfold nextLine
  cases hl : lines e s with
  | nil => exact .inl ⟨rfl, rfl⟩
  | cons l =>
    have hne : l ≠ [] := lines_ne_nil (hl ▸ mem_cons_self)
    refine .inr ⟨_, _, rfl, ?_, ?_⟩
    · have hpos := length_pos_iff.mpr hne
      rw [hl, flatten_cons] at hflat
      rw [← hflat, length_append, length_append, length_drop]
      omega
    · rw [lines_drop hl, flatMap_cons, chunks_eq hn hne, cons_append]
      split
      · next hd => rw [hd, chunks_nil, nil_append]
      · rw [flatMap_cons]

end

/-! ## Words -/

section

variable (p : α → Bool)

/-- **The words**: what is between separators, unless it is empty. -/
def words (s : List α) : List (List α) := (s.splitOnP p).filter (fun w => !w.isEmpty)

/-- At most `n` elements of the first word, and what comes after them. -/
def nextWord (n : ℕ) (s : List α) : Option (List α × List α) :=
  let s := s.dropWhile p
  let w := s.takeWhile (fun a => !p a)
  if s = [] then none else some (w.take n, w.drop n ++ s.dropWhile (fun a => !p a))

variable {p} {n : ℕ} {s w : List α} {e : α}

/-- A separator separates. -/
theorem words_append_cons (he : p e = true) (a b : List α) :
    words p (a ++ e :: b) = words p a ++ words p b := by
  have hsplit : (a ++ e :: b).splitOnP p = a.splitOnP p ++ b.splitOnP p := by
    induction a with
    | nil => rw [nil_append, splitOnP_cons_eq_if_modifyHead, if_pos he]; rfl
    | cons c a ih =>
      rw [cons_append, splitOnP_cons_eq_if_modifyHead, ih, splitOnP_cons_eq_if_modifyHead]
      split
      · rfl
      · obtain ⟨_, _, hv⟩ := exists_cons_of_ne_nil (splitOnP_ne_nil (p := p) a)
        rw [hv]
        rfl
  rw [words, hsplit, filter_append]
  rfl

theorem words_cons_of_sep {a : α} (h : p a = true) : words p (a :: s) = words p s :=
  words_append_cons h [] s

theorem words_eq_singleton (hw : ∀ a ∈ w, p a = false) (hne : w ≠ []) : words p w = [w] := by
  rw [words, splitOnP_eq_singleton hw]
  simp [hne]

theorem words_dropWhile (s : List α) : words p (s.dropWhile p) = words p s := by
  induction s with
  | nil => rfl
  | cons a s ih =>
    by_cases h : p a = true
    · rw [dropWhile_cons_of_pos h, ih, words_cons_of_sep h]
    · rw [dropWhile_cons_of_neg h]

theorem words_append (hw : ∀ a ∈ w, p a = false) (hne : w ≠ []) (hs : ∀ a ∈ s.head?, p a = true) :
    words p (w ++ s) = w :: words p s := by
  cases s with
  | nil => rw [append_nil, words_eq_singleton hw hne]; rfl
  | cons a =>
    rw [words_append_cons (hs a rfl), words_cons_of_sep (hs a rfl), words_eq_singleton hw hne]
    rfl

/-- Items, each followed by a separator. -/
theorem words_flatMap (he : p e = true) (f : β → List α) (xs : List β) :
    words p (xs.flatMap (fun x => f x ++ [e])) = xs.flatMap (fun x => words p (f x)) := by
  induction xs with
  | nil => rfl
  | cons x xs ih =>
    rw [flatMap_cons, flatMap_cons, append_assoc, singleton_append, words_append_cons he, ih]

/-- To show something of every list, show it of one without separators, and show that a separator
keeps it. -/
theorem words_induction {motive : List α → Prop} (word : ∀ s, (∀ a ∈ s, p a = false) → motive s)
    (sep : ∀ a e b, p e = true → motive a → motive b → motive (a ++ e :: b)) (s : List α) :
    motive s := by
  induction hn : s.length using Nat.strong_induction_on generalizing s with
  | _ n ih =>
    by_cases h : ∃ e ∈ s, p e = true
    · obtain ⟨e, he, hpe⟩ := h
      obtain ⟨a, b, rfl⟩ := append_of_mem he
      rw [length_append, length_cons] at hn
      exact sep a e b hpe (ih _ (by omega) a rfl) (ih _ (by omega) b rfl)
    · exact word s (by simpa using h)

theorem words_spec (s : List α) : ∀ w ∈ words p s, w ≠ [] ∧ ∀ a ∈ w, p a = false := by
  induction s using words_induction with
  | word s hs =>
    by_cases hne : s = []
    · simp [hne, words]
    · rw [words_eq_singleton hs hne, forall_mem_singleton]
      exact ⟨hne, hs⟩
  | sep a e b he ha hb =>
    rw [words_append_cons he, forall_mem_append]
    exact ⟨ha, hb⟩

theorem infix_of_mem_words (h : w ∈ words p s) : w <:+: s := by
  induction s using words_induction with
  | word s hs =>
    by_cases hne : s = []
    · simp [hne, words] at h
    · rw [words_eq_singleton hs hne, mem_singleton] at h
      exact h ▸ infix_rfl
  | sep a e b he ha hb =>
    rw [words_append_cons he, mem_append] at h
    rcases h with h | h
    · exact (ha h).trans (prefix_append _ _).isInfix
    · exact (hb h).trans ((suffix_cons e b).trans (suffix_append _ _)).isInfix

/-- Words by more separators are words of the words. -/
theorem flatMap_words {q : α → Bool} (hq : ∀ a, q a = true → p a = true) (s : List α) :
    (words q s).flatMap (words p) = words p s := by
  induction s using words_induction with
  | word s hs =>
    by_cases hne : s = []
    · simp [hne, words]
    · rw [words_eq_singleton hs hne, flatMap_singleton]
  | sep a e b he ha hb =>
    rw [words_append_cons he, words_append_cons (hq e he), flatMap_append, ha, hb]

/-- The words together are what is not a separator. -/
theorem flatten_words (s : List α) : (words p s).flatten = s.filter (fun a => !p a) := by
  induction s using words_induction with
  | word s hs =>
    have hfilter : s.filter (fun a => !p a) = s := filter_eq_self.mpr (by simpa using hs)
    by_cases hne : s = []
    · simp [hne, words]
    · rw [words_eq_singleton hs hne, hfilter, flatten_singleton]
  | sep a e b he ha hb =>
    rw [words_append_cons he, flatten_append, ha, hb, filter_append,
      filter_cons_of_neg (by simp [he])]

/-- What a reader of words finds. -/
theorem nextWord_cases (n : ℕ) (s : List α) :
    nextWord p n s = none ∧ words p s = [] ∨ ∃ w s', w ≠ [] ∧ (∀ a ∈ w, p a = false) ∧
      (∀ a ∈ s'.head?, p a = true) ∧ w.length + s'.length ≤ s.length ∧
      words p s = w :: words p s' ∧ nextWord p n s = some (w.take n, w.drop n ++ s') := by
  have hlen := (s.dropWhile_suffix p).length_le
  unfold nextWord
  rw [← words_dropWhile s]
  by_cases h : s.dropWhile p = []
  · rw [if_pos h, h]
    exact .inl ⟨rfl, rfl⟩
  rw [if_neg h]
  have hhead := head_dropWhile_not p h
  generalize s.dropWhile p = t at h hlen hhead
  have hsplit := t.takeWhile_append_dropWhile (p := fun a => !p a)
  have hw : ∀ a ∈ t.takeWhile (fun a => !p a), p a = false :=
    fun a ha => by simpa using mem_takeWhile_imp ha
  have hs : ∀ a ∈ (t.dropWhile (fun a => !p a)).head?, p a = true := by
    intro a ha
    have hne := ne_nil_of_mem (mem_of_mem_head? ha)
    have := head_dropWhile_not (fun a => !p a) hne
    rw [head_of_mem_head? ha] at this
    simpa using this
  have hne : t.takeWhile (fun a => !p a) ≠ [] := by
    obtain ⟨a, t, rfl⟩ := exists_cons_of_ne_nil h
    rw [takeWhile_cons_of_pos (by simpa using hhead)]
    exact cons_ne_nil _ _
  refine .inr ⟨_, _, hne, hw, hs, ?_, ?_, rfl⟩
  · rw [← length_append, hsplit]
    exact hlen
  · rw [← words_append hw hne hs, hsplit]

/-- A reader of words takes something. -/
theorem length_nextWord (hn : 0 < n) {s' : List α} (h : nextWord p n s = some (w, s')) :
    s'.length < s.length := by
  rcases nextWord_cases n s with ⟨hr, -⟩ | ⟨v, t, hne, -, -, hle, -, hr⟩
  · rw [hr] at h
    cases h
  · rw [hr] at h
    cases h
    have hpos := length_pos_iff.mpr hne
    rw [length_append, length_drop]
    omega

/-- **A reader of words with a buffer delivers them in chunks.** -/
theorem delivered_nextWord (hn : 0 < n) (s : List α) :
    delivered (nextWord p n) s = (words p s).flatMap (chunks n) := by
  refine delivered_unique (f := fun s => (words p s).flatMap (chunks n)) (fun s => ?_) s
  rcases nextWord_cases n s with ⟨hr, hw⟩ | ⟨w, s', hne, hall, hs, hle, hw, hr⟩
  · exact .inl ⟨hr, by rw [hw, flatMap_nil]⟩
  refine .inr ⟨_, _, hr, ?_, ?_⟩
  · have hpos := length_pos_iff.mpr hne
    rw [length_append, length_drop]
    omega
  · rw [hw, flatMap_cons, chunks_eq hn hne, cons_append]
    by_cases hd : w.drop n = []
    · rw [hd, chunks_nil, nil_append, nil_append]
    · rw [words_append (fun a ha => hall a (mem_of_mem_drop ha)) hd hs, flatMap_cons]

end

/-! ## Sequences that are taken out -/

section

variable {es : List (List α)} {e : α}

/-- A sequence does not go beyond an element that is not in it. -/
theorem isPrefix_append_cons {x : List α} (hx : e ∉ x) (a b : List α) :
    x <+: a ++ e :: b ↔ x <+: a := by
  refine ⟨fun h => ?_, fun h => h.trans (prefix_append _ _)⟩
  rcases prefix_or_prefix_of_prefix h (prefix_append a (e :: b)) with hxa | ⟨t, rfl⟩
  · exact hxa
  · rw [prefix_append_right_inj] at h
    cases t with
    | nil => simp
    | cons =>
      obtain ⟨rfl, -⟩ := cons_prefix_cons.mp h
      exact absurd (mem_append_right a mem_cons_self) hx

variable [BEq α]

/-- **A list without the sequences `es`**, which are looked for from the left; `skip` elements
of a sequence are still to be left out. -/
def strip (es : List (List α)) : ℕ → List α → List α
  | _, [] => []
  | skip + 1, _ :: s => strip es skip s
  | 0, a :: s =>
    match es.find? (fun x => x.isPrefixOf (a :: s)) with
    | some x => strip es (x.length - 1) s
    | none => a :: strip es 0 s

theorem strip_sublist (es : List (List α)) (skip : ℕ) (s : List α) :
    (strip es skip s).Sublist s := by
  fun_induction strip es skip s with
  | case1 => exact .slnil
  | case2 _ _ _ ih => exact ih.cons _
  | case3 _ _ _ _ ih => exact ih.cons _
  | case4 _ _ _ ih => exact ih.cons_cons _

variable [LawfulBEq α]

theorem mem_prefix_of_find {s x : List α} (h : es.find? (fun x => x.isPrefixOf s) = some x) :
    x ∈ es ∧ x <+: s := by
  have hpre := find?_some h
  exact ⟨mem_of_find?_eq_some h, isPrefixOf_iff_prefix.mp hpre⟩

/-- **Nothing is taken out exactly if there is no sequence in the list.** -/
theorem strip_eq_self_iff (h : ∀ x ∈ es, x ≠ []) (s : List α) :
    strip es 0 s = s ↔ ∀ x ∈ es, ¬ x <:+: s := by
  induction s with
  | nil => simpa [strip] using h
  | cons a s ih =>
    rw [strip]
    split
    · next x hx =>
      obtain ⟨hmem, hpre⟩ := mem_prefix_of_find hx
      refine iff_of_false (fun heq => ?_) fun hno => hno x hmem hpre.isInfix
      have hlen := congrArg length heq
      have hle := (strip_sublist es (x.length - 1) s).length_le
      rw [length_cons] at hlen
      omega
    · next hnone =>
      have hpre : ∀ x ∈ es, ¬ x <+: a :: s := fun x hx hp =>
        find?_eq_none.mp hnone x hx <| isPrefixOf_iff_prefix.mpr hp
      simp only [cons.injEq, true_and, ih, infix_cons_iff]
      exact forall₂_congr fun x hx => by simp [hpre x hx]

variable (he : ∀ x ∈ es, x ≠ [] ∧ e ∉ x)
include he

theorem strip_append_cons {skip : ℕ} {a : List α} (hskip : skip ≤ a.length) (b : List α) :
    strip es skip (a ++ e :: b) = strip es skip a ++ e :: strip es 0 b := by
  have hfind : ∀ a, es.find? (fun x => x.isPrefixOf (a ++ e :: b)) =
      es.find? (fun x => x.isPrefixOf a) := by
    intro a
    refine find?_congr fun x hx => ?_
    rw [Bool.eq_iff_iff, isPrefixOf_iff_prefix, isPrefixOf_iff_prefix,
      isPrefix_append_cons (he x hx).2]
  induction a generalizing skip with
  | nil =>
    obtain rfl : skip = 0 := Nat.le_zero.mp hskip
    have hnone : es.find? (fun x => x.isPrefixOf (e :: b)) = none := by
      refine (hfind []).trans (find?_eq_none.mpr fun x hx hp => (he x hx).1 ?_)
      exact prefix_nil.mp <| isPrefixOf_iff_prefix.mp hp
    simp only [nil_append, strip, hnone]
  | cons c a ih =>
    cases skip with
    | succ skip => exact ih (Nat.le_of_succ_le_succ hskip)
    | zero =>
      have hc := hfind (c :: a)
      rw [cons_append] at hc ⊢
      rw [strip, strip, hc]
      split
      · next x hx =>
        have hle := (mem_prefix_of_find hx).2.length_le
        rw [length_cons] at hle
        exact ih (by omega)
      · rw [ih (Nat.zero_le _), cons_append]

/-- Items, each followed by an element that is in no sequence. -/
theorem strip_flatMap (f : β → List α) (xs : List β) :
    strip es 0 (xs.flatMap (fun x => f x ++ [e])) =
      xs.flatMap (fun x => strip es 0 (f x) ++ [e]) := by
  induction xs with
  | nil => rfl
  | cons x xs ih =>
    rw [flatMap_cons, flatMap_cons, append_assoc, singleton_append,
      strip_append_cons he (Nat.zero_le _), ih, append_assoc, singleton_append]

omit he

/-- What is taken out is not a separator, if there is none in the sequences. -/
theorem length_filter_strip {p : α → Bool} (hp : ∀ x ∈ es, x ≠ [] ∧ ∀ a ∈ x, p a = true) {skip : ℕ}
    {s : List α} (hskip : ∀ a ∈ s.take skip, p a = true) :
    ((strip es skip s).filter p).length + s.length =
      (s.filter p).length + (strip es skip s).length := by
  fun_induction strip es skip s with
  | case1 => rfl
  | case2 skip a s ih =>
    rw [take_succ_cons, forall_mem_cons] at hskip
    have := ih hskip.2
    rw [filter_cons_of_pos hskip.1, length_cons, length_cons]
    omega
  | case3 a s x hx ih =>
    obtain ⟨hmem, hpre⟩ := mem_prefix_of_find hx
    obtain ⟨hne, hall⟩ := hp x hmem
    obtain ⟨c, x, rfl⟩ := exists_cons_of_ne_nil hne
    obtain ⟨rfl, -⟩ := cons_prefix_cons.mp hpre
    rw [forall_mem_cons] at hall
    have hx' := prefix_iff_eq_take.mp (cons_prefix_cons.mp hpre).2
    have := ih (hx' ▸ hall.2)
    rw [filter_cons_of_pos hall.1]
    simp only [length_cons] at this ⊢
    omega
  | case4 a s hnone ih =>
    have := ih (by simp)
    rw [filter_cons, filter_cons]
    split <;> simp only [length_cons] <;> omega

end

end Text
