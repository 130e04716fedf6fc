import Mathlib.Computability.Language
import Mathlib.Data.List.TakeWhile

/-!
# `grep`

`match` of `grep.c` looks for a pattern in a text: `matchhere` tries it at the beginning of a text,
and with `matchstar` what a `*` allows, one repetition after another. Against the language of the
pattern, as a list of items, `match` finds a match exactly if there is one (`match_iff`).

`grep` reads its input into a buffer of 1024 bytes, as much as there is room for and `read`
delivers, writes the lines that match and moves the line it has only a part of to the front. When
such a part fills the buffer, `read` is asked for nothing, and `grep` takes this for the end of the
input. So it writes the lines up to the first one that does not fit, whatever `read` delivers at a
time (`grepLoop_eq`).
-/

namespace Xv6.Grep

open List

open Computability

/-! ## The matcher -/

/-- `matchstar`, with `matchhere` of the pattern after the `*`. -/
def matchstar (here : List Char → Bool) (c : Char) : List Char → Bool
  | [] => here []
  | t :: text => here (t :: text) || ((t == c || c == '.') && matchstar here c text)

def matchhere : List Char → List Char → Bool
  | [], _ => true
  | c :: '*' :: re, text => matchstar (matchhere re) c text
  | ['$'], text => text.isEmpty
  | c :: re, t :: text => (c == '.' || c == t) && matchhere re text
  | _ :: _, [] => false

/-- `match`. -/
def matchText (re text : List Char) : Bool :=
  match re with
  | '^' :: re => matchhere re text
  | re => text.tails.any (matchhere re)

/-! ## Patterns -/

/-- An item of a pattern: one character, or any number of them. -/
inductive Item where
  | one (c : Char)
  | many (c : Char)

/-- A pattern without the `^` at its beginning. -/
def body : List Char → List Char
  | '^' :: re => re
  | re => re

/-- The items of a pattern, and whether it ends in `$`. -/
def parse : List Char → List Item × Bool
  | [] => ([], false)
  | c :: '*' :: re => (.many c :: (parse re).1, (parse re).2)
  | ['$'] => ([], true)
  | c :: re => (.one c :: (parse re).1, (parse re).2)

/-- `.` stands for every character. -/
def Item.chars (c : Char) : Language Char := {w | ∃ t, w = [t] ∧ (c = '.' ∨ c = t)}

def Item.language : Item → Language Char
  | one c => chars c
  | many c => (chars c)∗

/-- The language of a pattern. -/
def language (re : List Char) : Language Char := ((parse re).1.map Item.language).prod

theorem mem_kstar_chars {c : Char} {w : List Char} :
    w ∈ (Item.chars c)∗ ↔ ∀ t ∈ w, c = '.' ∨ c = t := by
  rw [Language.mem_kstar]
  constructor
  · rintro ⟨_, rfl, hL⟩ t ht
    obtain ⟨y, hy, ht⟩ := mem_flatten.mp ht
    obtain ⟨_, rfl, h⟩ := hL y hy
    rwa [mem_singleton.mp ht]
  · exact fun h => ⟨w.map (fun t => [t]), by simp [← flatMap_def], fun y hy => by
      obtain ⟨t, ht, rfl⟩ := mem_map.mp hy
      exact ⟨t, rfl, h t ht⟩⟩

theorem matchstar_iff (here : List Char → Bool) (c : Char) (text : List Char) :
    matchstar here c text = true ↔
      ∃ w b, text = w ++ b ∧ w ∈ (Item.chars c)∗ ∧ here b = true := by
  simp only [mem_kstar_chars]
  induction text with
  | nil => simp [matchstar]
  | cons t text ih =>
    rw [matchstar, Bool.or_eq_true, Bool.and_eq_true, ih, Bool.or_eq_true, beq_iff_eq, beq_iff_eq]
    constructor
    · rintro (h | ⟨ht, w, b, rfl, hw, h⟩)
      · exact ⟨[], t :: text, rfl, nofun, h⟩
      · exact ⟨t :: w, b, rfl, forall_mem_cons.mpr ⟨ht.symm.imp_right Eq.symm, hw⟩, h⟩
    · rintro ⟨_ | ⟨_, w⟩, b, he, hw, h⟩
      · exact .inl (by rwa [he])
      · cases he
        obtain ⟨ht, hw⟩ := forall_mem_cons.mp hw
        exact .inr ⟨ht.symm.imp_left Eq.symm, w, b, rfl, hw, h⟩

/-- `matchhere` finds a part at the beginning of the text that belongs to the pattern. -/
theorem matchhere_iff (re text : List Char) : matchhere re text = true ↔
    ∃ w b, text = w ++ b ∧ w ∈ language re ∧ ((parse re).2 = true → b = []) := by
  unfold language
  induction re using parse.induct generalizing text with
  | case1 | case3 => simp [matchhere, parse, Language.mem_one]
  | case2 c re ih =>
    rw [matchhere, matchstar_iff]
    simp only [ih, parse, map_cons, prod_cons, Language.mem_mul, Item.language]
    constructor
    · rintro ⟨w, b, rfl, hw, w', b', rfl, hw', hb⟩
      exact ⟨w ++ w', b', (append_assoc ..).symm, ⟨w, hw, w', hw', rfl⟩, hb⟩
    · rintro ⟨_, b, rfl, ⟨w, hw, w', hw', rfl⟩, hb⟩
      exact ⟨w, w' ++ b, append_assoc .., hw, w', b, rfl, hw', hb⟩
  | case4 c re hstar hend ih =>
    simp only [parse, map_cons, prod_cons, Language.mem_mul, Item.language]
    cases text with
    | nil =>
      rw [matchhere.eq_5 c re hstar hend]
      refine iff_of_false nofun ?_
      rintro ⟨_, b, he, ⟨_, ⟨t, rfl, -⟩, w, -, rfl⟩, -⟩
      cases he
    | cons t text =>
      rw [matchhere.eq_4 c re t text hstar hend, Bool.and_eq_true, ih, Bool.or_eq_true, beq_iff_eq,
        beq_iff_eq]
      constructor
      · rintro ⟨ht, w, b, rfl, hw, hb⟩
        exact ⟨t :: w, b, rfl, ⟨[t], ⟨t, rfl, ht⟩, w, hw, rfl⟩, hb⟩
      · rintro ⟨_, b, he, ⟨_, ⟨_, rfl, ht⟩, w, hw, rfl⟩, hb⟩
        cases he
        exact ⟨ht, w, b, rfl, hw, hb⟩

/-- **`match` finds a match exactly if there is one**: a part of the text that belongs to the
language of the pattern, at the beginning after `^` and at the end before `$`. -/
theorem match_iff (re text : List Char) : matchText re text = true ↔
    ∃ a w b, text = a ++ w ++ b ∧ (re.head? = some '^' → a = []) ∧
      w ∈ language (body re) ∧ ((parse (body re)).2 = true → b = []) := by
  unfold matchText
  split
  · next re => simp [matchhere_iff, body]
  · next h =>
    have hbody : body re = re := body.eq_2 re h
    have hhead : re.head? ≠ some '^' := fun hh => h re.tail (eq_cons_of_mem_head? hh)
    simp only [any_eq_true, mem_tails, matchhere_iff, hbody, hhead, false_implies, true_and]
    constructor
    · rintro ⟨_, ⟨a, rfl⟩, w, b, rfl, hw, hb⟩
      exact ⟨a, w, b, (append_assoc ..).symm, hw, hb⟩
    · rintro ⟨a, w, b, rfl, hw, hb⟩
      exact ⟨w ++ b, ⟨a, (append_assoc ..).symm⟩, w, b, rfl, hw, hb⟩

/-! ## The lines of the input -/

/-- The loop of `grep` over the lines in the buffer from `p` on: what it writes, and what is left.
`strchr` ends at a NUL. -/
def lineLoop (re p : List Char) : List Char × List Char :=
  if '\n' ∈ p.takeWhile (· ≠ '\x00') then
    let line := p.takeWhile (· ≠ '\n')
    let r := lineLoop re (p.drop (line.length + 1))
    ((if matchText re line then line ++ ['\n'] else []) ++ r.1, r.2)
  else ([], p)
termination_by p.length
decreasing_by
  next h =>
    rw [length_drop]
    have := length_pos_of_mem ((takeWhile_sublist _).subset h)
    omega

/-- `grep` with a part of a line in the buffer and the rest of the input, of which the `i`th call
of `read` delivers `reads i` bytes, or as many as there are and as there is room for. -/
def grepLoop (re : List Char) (reads : ℕ → ℕ) (i : ℕ) (part rest : List Char) : List Char :=
  let n := min (max 1 (reads i)) (min (1024 - part.length - 1) rest.length)
  if n = 0 then []
  else
    let r := lineLoop re (part ++ rest.take n)
    r.1 ++ grepLoop re reads (i + 1) r.2 (rest.drop n)
termination_by rest.length
decreasing_by
  rw [length_drop]
  omega

/-- The lines of a text that end in a newline. -/
def lines (s : List Char) : List (List Char) := (s.splitOn '\n').dropLast

/-- What is written for these lines. -/
def selected (re : List Char) (ls : List (List Char)) : List Char :=
  ls.flatMap fun l => if matchText re l then l ++ ['\n'] else []

theorem selected_append (re : List Char) (a b : List (List Char)) :
    selected re (a ++ b) = selected re a ++ selected re b := flatMap_append

theorem lines_of_notMem {s : List Char} (h : '\n' ∉ s) : lines s = [] := by
  rw [lines, splitOn_eq_singleton h, dropLast_singleton]

theorem lines_append_cons {l s : List Char} (h : '\n' ∉ l) :
    lines (l ++ '\n' :: s) = l :: lines s := by
  rw [lines, splitOn_append_cons_self_of_not_mem h, dropLast_cons_of_ne_nil (splitOn_ne_nil _ _)]
  rfl

/-- The loop goes through the lines in the buffer. -/
theorem lineLoop_spec (re : List Char) {p : List Char} (h0 : '\x00' ∉ p) :
    '\n' ∉ (lineLoop re p).2 ∧ (lineLoop re p).2 <:+ p ∧
      ∃ ls, (lineLoop re p).1 = selected re ls ∧ (∀ l ∈ ls, l.length < p.length) ∧
        ∀ y, lines (p ++ y) = ls ++ lines ((lineLoop re p).2 ++ y) := by
  have hall : ∀ {p : List Char}, '\x00' ∉ p → p.takeWhile (· ≠ '\x00') = p := fun h0 =>
    takeWhile_eq_self_iff.mpr fun c hc => by simpa using fun he : c = '\x00' => h0 (he ▸ hc)
  fun_induction lineLoop re p with
  | case1 p hp line r ih =>
    rw [hall h0] at hp
    obtain ⟨l, s, rfl, hl⟩ := eq_append_cons_of_mem hp
    have hline : line = l := by
      refine (takeWhile_append_of_pos fun c hc => ?_).trans (by simp)
      simpa using fun he : c = '\n' => hl (he ▸ hc)
    have hr : r = lineLoop re s := by
      unfold r
      rw [hline]
      congr
      simp
    rw [hline, hr]
    rw [show (l ++ '\n' :: s).drop (line.length + 1) = s by simp [hline]] at ih
    rw [mem_append, not_or, mem_cons, not_or] at h0
    obtain ⟨hnl, hsuf, ls, hout, hlt, hlines⟩ := ih h0.2.2
    refine ⟨hnl, hsuf.trans ⟨l ++ ['\n'], by simp⟩, l :: ls, by rw [hout]; rfl, ?_, fun y => ?_⟩
    · rintro m (_ | ⟨_, hm⟩)
      · simp
      · have := hlt m hm
        rw [length_append, length_cons]
        omega
    · rw [append_assoc, cons_append, lines_append_cons hl, hlines]
      rfl
  | case2 p hp =>
    rw [hall h0] at hp
    exact ⟨hp, suffix_rfl, [], rfl, nofun, fun y => rfl⟩

theorem grepLoop_eq {re : List Char} {reads : ℕ → ℕ} {i : ℕ} {part rest : List Char}
    (h0 : '\x00' ∉ part ++ rest) (hpart : '\n' ∉ part) (hlen : part.length ≤ 1023) :
    grepLoop re reads i part rest =
      selected re ((lines (part ++ rest)).takeWhile (·.length ≤ 1022)) := by
  fun_induction grepLoop re reads i part rest with
  | case1 i part rest =>
    by_cases hrest : rest = []
    · rw [hrest, append_nil, lines_of_notMem hpart]
      rfl
    · -- the buffer is full
      have hfull : part.length = 1023 := by
        have := length_pos_iff.mpr hrest
        omega
      by_cases hnl : '\n' ∈ rest
      · obtain ⟨l, _, rfl, hl⟩ := eq_append_cons_of_mem hnl
        rw [← append_assoc, lines_append_cons (by simp [hpart, hl]), takeWhile_cons_of_neg]
        · rfl
        · rw [decide_eq_true_eq, length_append]
          omega
      · rw [lines_of_notMem (by simp [hpart, hnl])]
        rfl
  | case2 i part rest n hn r ih =>
    have hsplit : part ++ rest = part ++ rest.take n ++ rest.drop n := by simp
    rw [hsplit] at h0 ⊢
    have hbuf : (part ++ rest.take n).length ≤ 1023 := by
      rw [length_append, length_take]
      omega
    obtain ⟨hnl, hsuf, _, hout, hlt, hlines⟩ := lineLoop_spec re
      (fun h => h0 (mem_append_left _ h))
    have hlen' := hsuf.length_le
    rw [ih ?_ hnl (hlen'.trans hbuf), hlines, takeWhile_append_of_pos, selected_append]
    · exact congrArg (· ++ _) hout
    · exact fun l hl => decide_eq_true (by have := hlt l hl; omega)
    · exact fun h => h0 ((mem_append.mp h).elim (fun h => mem_append_left _ (hsuf.subset h))
        (mem_append_right _))

/-- **`grep` writes the lines that match exactly if none of them comes after a line that does not
fit in the buffer, or is one**, however the input arrives. -/
theorem grep_exact_iff (re : List Char) (reads : ℕ → ℕ) (input : List Char)
    (h0 : '\x00' ∉ input) : grepLoop re reads 0 [] input = selected re (lines input) ↔
      ∀ l ∈ (lines input).dropWhile (·.length ≤ 1022), matchText re l = false := by
  rw [grepLoop_eq h0 not_mem_nil (Nat.zero_le _), nil_append]
  have hls := takeWhile_append_dropWhile (p := (·.length ≤ 1022)) (l := lines input)
  nth_rewrite 2 [← hls]
  rw [selected_append, self_eq_append_right, selected, flatMap_eq_nil_iff]
  exact forall₂_congr fun l _ => by cases matchText re l <;> simp

/-- The lines `b` and `a` with the pattern `a`, read one byte at a time. -/
theorem grep_exact_two : grepLoop ['a'] (fun _ => 1) 0 [] ['b', '\n', 'a', '\n'] =
    selected ['a'] (lines ['b', '\n', 'a', '\n']) :=
  (grep_exact_iff ['a'] (fun _ => 1) ['b', '\n', 'a', '\n'] (by decide)).mpr (by decide)

/-- A line of 1023 bytes is not written, and neither is the line after it. -/
theorem grep_long_line :
    grepLoop ['a'] (fun _ => 1024) 0 [] (replicate 1023 'a' ++ ['\n', 'a', '\n']) = [] ∧
      ['a', '\n'] <:+ selected ['a'] (lines (replicate 1023 'a' ++ ['\n', 'a', '\n'])) := by
  have hrep : ∀ c, c ≠ 'a' → c ∉ replicate 1023 'a' := fun c hc h => hc (eq_of_mem_replicate h)
  have hlines : lines (replicate 1023 'a' ++ ['\n', 'a', '\n']) = [replicate 1023 'a', ['a']] := by
    rw [lines_append_cons (hrep _ (by decide))]
    rfl
  refine ⟨?_, ?_⟩
  · rw [grepLoop_eq ?_ not_mem_nil (Nat.zero_le _), nil_append, hlines,
      takeWhile_cons_of_neg (by rw [length_replicate]; decide)]
    · rfl
    · rw [nil_append]
      exact fun h => (mem_append.mp h).elim (hrep '\x00' (by decide))
        (by decide : '\x00' ∉ ['\n', 'a', '\n'])
  · rw [hlines]
    exact ⟨_, (selected_append ['a'] [replicate 1023 'a'] [['a']]).symm⟩

end Xv6.Grep
