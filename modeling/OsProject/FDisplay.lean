import OsProject.CLib
import Mathlib.Algebra.Order.BigOperators.Group.List
import Mathlib.Algebra.Order.Group.Nat

/-!
# `fdisplay`

`display_file_with_highlighting` of `fdisplay.c` reads a file with `fgets` into a buffer of 1024
bytes, and `highlight_line` prints the tokens of what is in it, with a space after each of them
and a newline at the end. A keyword is printed between the escape sequence for green and the one
that ends it.

What a reader sees is the output without these sequences, and which words stand between them.
It is to have the words of the file, line by line, and the keywords are to be green (`Shows`).
Three things can be in the way. A line that does not fit comes out as several lines. A token
ends at a space, a tab or a newline only, so a keyword next to whitespace of another kind is not
green. And a file that has one of the two sequences in it is shown without it. Otherwise
everything is as it should be (`shows_words_iff`).
-/

namespace Unix.FDisplay

open List

open Text (lines delivered words chunks strip)

def keywords : List Bytes :=
  ["int", "return", "if", "else", "for", "while", "#include", "void"].map bytes

/-- The delimiters that `highlight_line` gives to `strtok`. -/
def separator (c : UInt8) : Bool := c == 32 || c == 9 || c == 10

/-- The sequence for bold and green. -/
def green : Bytes := bytes "\x1b[1;32m"

/-- The sequence that ends it. -/
def reset : Bytes := bytes "\x1b[0m"

/-- What the first two calls of `printf` print of a token, before the space. -/
def highlight (token : Bytes) : Bytes :=
  if token ∈ keywords then green ++ token ++ reset else token

/-- `highlight_line`. -/
def highlightLine (line : Bytes) : Bytes :=
  (delivered (strtok separator) line).flatMap (fun token => highlight token ++ [32]) ++ [10]

/-- `display_file_with_highlighting`. -/
def displayFileWithHighlighting (content : Bytes) : Bytes :=
  (delivered (fgets 1024) content).flatMap (fun buffer => highlightLine (cstr buffer))

/-- The escape sequences. -/
def escapes : List Bytes := [green, reset]

/-- **The output shows the file**: without the escape sequences it has the same words, line by
line, and a word is between them exactly if it is a keyword. -/
structure Shows (content output : Bytes) : Prop where
  sameWords : (lines 10 (strip escapes 0 output)).map (words isspace) =
    (lines 10 content).map (words isspace)
  colour : ∀ w ∈ words isspace output,
    (∃ v, w = green ++ v ++ reset) ↔ strip escapes 0 w ∈ keywords

theorem escapes_spec : ∀ x ∈ escapes, x ≠ [] ∧ (∀ a ∈ x, (!isspace a) = true) := by
  decide +kernel

theorem notMem_escapes {c : UInt8} (hc : isspace c = true) : ∀ x ∈ escapes, x ≠ [] ∧ c ∉ x :=
  fun x hx => ⟨(escapes_spec x hx).1, fun h => by simpa [hc] using (escapes_spec x hx).2 c h⟩

/-- A keyword is one word, with and without the sequences. -/
theorem keyword_spec {t : Bytes} (ht : t ∈ keywords) : words isspace t = [t] ∧
    words isspace (green ++ t ++ reset) = [green ++ t ++ reset] ∧
      strip escapes 0 (green ++ t ++ reset) = t ∧ strip escapes 0 t = t := by
  revert t
  decide +kernel

theorem strip_highlight (t : Bytes) : strip escapes 0 (highlight t) = strip escapes 0 t := by
  unfold highlight
  split
  · next h => rw [(keyword_spec h).2.2.1, (keyword_spec h).2.2.2]
  · rfl

theorem isspace_of_separator (c : UInt8) (h : separator c = true) : isspace c = true := by
  obtain (rfl | rfl) | rfl : (c = 32 ∨ c = 9) ∨ c = 10 := by simpa [separator] using h
  all_goals rfl

/-- The output, made of the tokens of the pieces that `fgets` delivers. -/
theorem display_eq {content : Bytes} (h0 : 0 ∉ content) : displayFileWithHighlighting content =
    ((lines 10 content).flatMap (chunks 1023)).flatMap (fun p =>
      (words separator p).flatMap (fun t => highlight t ++ [32]) ++ [10]) := by
  rw [displayFileWithHighlighting,
    flatMap_congr fun p hp => by rw [cstr_of_mem_fgets (by decide) h0 hp],
    delivered_fgets (by decide)]
  refine flatMap_congr fun p _ => ?_
  rw [highlightLine, delivered_strtok]

/-- The words of the output, without the escape sequences. -/
theorem words_strip_display {content : Bytes} (h0 : 0 ∉ content) :
    (lines 10 (strip escapes 0 (displayFileWithHighlighting content))).map (words isspace) =
      ((lines 10 content).flatMap (chunks 1023)).map (fun p =>
        (words separator p).flatMap (fun t => words isspace (strip escapes 0 t))) := by
  rw [display_eq h0, Text.strip_flatMap (notMem_escapes (by decide))]
  simp only [Text.strip_flatMap (notMem_escapes (by decide : isspace 32 = true)), strip_highlight]
  rw [Text.lines_flatMap, map_map]
  · refine map_congr_left fun p _ => ?_
    show words isspace (_ ++ 10 :: []) = _
    rw [Text.words_append_cons (by decide), Text.words_flatMap (by decide)]
    exact append_nil _
  · -- a token has no newline in it
    intro p _ h
    obtain ⟨t, ht, h⟩ := mem_flatMap.mp h
    rcases mem_append.mp h with h | h
    · exact absurd ((Text.words_spec p t ht).2 10 ((Text.strip_sublist _ 0 t).subset h)) (by decide)
    · exact absurd h (by decide)

/-- **A line is shown with its words exactly if no token has an escape sequence in it**: what is
taken out of a token is missing in its words. -/
theorem words_strip_iff (line : Bytes) :
    (words separator line).flatMap (fun t => words isspace (strip escapes 0 t)) =
        words isspace line ↔
      ∀ t ∈ words separator line, ∀ x ∈ escapes, ¬ x <:+: t := by
  have hself := Text.strip_eq_self_iff (fun x hx => (escapes_spec x hx).1)
  simp only [← hself]
  rw [← Text.flatMap_words isspace_of_separator line]
  refine ⟨fun h => ?_, fun h => flatMap_congr fun t ht => by rw [h t ht]⟩
  -- the letters of the tokens, with and without what is taken out
  have hcount : ∀ t : Bytes, ((strip escapes 0 t).filter (fun a => !isspace a)).length + t.length =
      (t.filter (fun a => !isspace a)).length + (strip escapes 0 t).length := fun t =>
    Text.length_filter_strip escapes_spec (by simp)
  have hsum : ((words separator line).map
        (fun t => ((strip escapes 0 t).filter (fun a => !isspace a)).length)).sum =
      ((words separator line).map (fun t => (t.filter (fun a => !isspace a)).length)).sum := by
    have := congrArg (fun ws => ws.flatten.length) h
    simpa only [flatMap_def, flatten_flatten, map_map, Function.comp_def, length_flatten,
      Text.flatten_words] using this
  intro t ht
  refine (Text.strip_sublist _ 0 t).eq_of_length_le ?_
  by_contra hlt
  refine hsum.not_lt (sum_lt_sum _ _ (fun u _ => ?_) ⟨t, ht, ?_⟩)
  · have := hcount u
    have := (Text.strip_sublist escapes 0 u).length_le
    omega
  · have := hcount t
    omega

/-- The words of the output as they are printed. -/
theorem words_display {content : Bytes} (h0 : 0 ∉ content) :
    words isspace (displayFileWithHighlighting content) =
      ((lines 10 content).flatMap (chunks 1023)).flatMap (fun p =>
        (words separator p).flatMap (fun t => words isspace (highlight t))) := by
  rw [display_eq h0, Text.words_flatMap (by decide)]
  simp only [Text.words_flatMap (by decide : isspace 32 = true)]

/-- **The words of a token without escape sequences have the right colour exactly if it is a
keyword or none of them is.** -/
theorem green_iff {t : Bytes} (h : ∀ x ∈ escapes, ¬ x <:+: t) :
    (∀ w ∈ words isspace (highlight t),
        (∃ v, w = green ++ v ++ reset) ↔ strip escapes 0 w ∈ keywords) ↔
      ∀ w ∈ words isspace t, w ∈ keywords → t ∈ keywords := by
  by_cases ht : t ∈ keywords
  · obtain ⟨-, hone, hstrip, -⟩ := keyword_spec ht
    rw [highlight, if_pos ht, hone, forall_mem_singleton, hstrip]
    exact iff_of_true ⟨fun _ => ht, fun _ => ⟨t, rfl⟩⟩ fun _ _ _ => ht
  · rw [highlight, if_neg ht]
    refine forall₂_congr fun w hw => ?_
    have hno : ∀ x ∈ escapes, ¬ x <:+: w := fun x hx hin =>
      h x hx (hin.trans (Text.infix_of_mem_words hw))
    rw [(Text.strip_eq_self_iff (fun x hx => (escapes_spec x hx).1) w).mpr hno]
    have hnot : ¬ ∃ v, w = green ++ v ++ reset := by
      rintro ⟨v, rfl⟩
      exact hno green (by simp [escapes]) (by rw [append_assoc]; exact (prefix_append _ _).isInfix)
    simp only [hnot, false_iff, ht]

/-- **The words are shown, and the keywords in green, exactly if the lines fit, no token has an
escape sequence in it, and none has a keyword as a part of it.** -/
theorem shows_words_iff (content : Bytes) (h0 : 0 ∉ content) :
    Shows content (displayFileWithHighlighting content) ↔
      ∀ l ∈ lines 10 content, l.length ≤ 1023 ∧ ∀ t ∈ words separator l,
        (∀ x ∈ escapes, ¬ x <:+: t) ∧ ∀ w ∈ words isspace t, w ∈ keywords → t ∈ keywords := by
  have hwords := words_strip_display h0
  have hgreen := words_display h0
  by_cases hfit : ∀ l ∈ lines 10 content, l.length ≤ 1023
  · rw [Text.flatMap_chunks fun l hl => ⟨Text.lines_ne_nil hl, hfit l hl⟩] at hwords hgreen
    constructor
    · rintro ⟨hsame, hcolour⟩ l hl
      rw [hwords, map_inj_left] at hsame
      have hno := (words_strip_iff l).mp (hsame l hl)
      refine ⟨hfit l hl, fun t ht => ⟨hno t ht, (green_iff (hno t ht)).mp fun w hw => hcolour w ?_⟩⟩
      rw [hgreen]
      exact mem_flatMap.mpr ⟨l, hl, mem_flatMap.mpr ⟨t, ht, hw⟩⟩
    · intro h
      refine ⟨?_, fun w hw => ?_⟩
      · rw [hwords, map_inj_left]
        exact fun l hl => (words_strip_iff l).mpr fun t ht => ((h l hl).2 t ht).1
      · rw [hgreen] at hw
        obtain ⟨l, hl, hw⟩ := mem_flatMap.mp hw
        obtain ⟨t, ht, hw⟩ := mem_flatMap.mp hw
        obtain ⟨hno, hkey⟩ := (h l hl).2 t ht
        exact (green_iff hno).mpr hkey w hw
  · refine iff_of_false (fun h => hfit ?_) fun h => hfit fun l hl => (h l hl).1
    obtain ⟨-, hlen⟩ := Text.length_flatMap_chunks (n := 1023) (by decide)
      fun l => Text.lines_ne_nil (e := 10) (s := content)
    exact hlen.mp (by simpa using congrArg length (hwords.symm.trans h.sameWords))

/-- The file with the lines `int x` and `intx`. -/
theorem shows_words_int : Shows (bytes "int x\nintx\n")
    (green ++ bytes "int" ++ reset ++ bytes " x \nintx \n") :=
  (shows_words_iff (bytes "int x\nintx\n") (by decide)).mpr (by decide +kernel)

/-- A word of 1024 bytes is shown as two, on two lines. -/
theorem shows_long_word : displayFileWithHighlighting (List.replicate 1024 97) =
      List.replicate 1023 97 ++ [32, 10, 97, 32, 10] ∧
    ¬ Shows (List.replicate 1024 97) (displayFileWithHighlighting (List.replicate 1024 97)) := by
  have hout : displayFileWithHighlighting (List.replicate 1024 97) =
      List.replicate 1023 97 ++ [32, 10, 97, 32, 10] := by decide +kernel
  refine ⟨hout, fun h => ?_⟩
  have hlen := congrArg length h.sameWords
  rw [hout] at hlen
  revert hlen
  decide +kernel

end Unix.FDisplay
