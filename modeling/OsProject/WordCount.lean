import OsProject.CLib
import Mathlib.Algebra.BigOperators.Group.List.Lemmas
import Mathlib.Data.List.Dedup
import Mathlib.Algebra.GroupWithZero.Nat

/-!
# `wordcount`

`word_histogram` of `wordcount.c` reads a file twice. The first pass goes through its characters
and counts a word where it ends, at the whitespace after it. The second reads words with `fscanf`
into a buffer of 50 bytes, converts them to lower case and keeps them with their counts, in the
order in which they first occur, in arrays of 1000 elements.

So the first pass misses a word at the end of the file that nothing comes after, the second takes
a long word for several, and writes beyond the arrays if there are too many of them. The passes
agree exactly if nothing of this happens (`passes_agree_iff`), and the arrays are right if there
are not too many words (`histogram_exact_iff`).

The counters are `int`s. They start at 0 and are only incremented, so they are natural numbers
here, and to increment the greatest `int` is a fault. Of all the counters the number of
characters is the greatest, so there is no overflow exactly if the file has at most `INT_MAX`
bytes (`totals_eq`). What is printed is left out.
-/

namespace Unix.WordCount

open Function

open Text (words delivered chunks)

/-- The greatest `int`. -/
abbrev INT_MAX : ℕ := 2 ^ 31 - 1

/-- What the program must not do: store beyond the arrays, or increment a counter that is the
greatest `int`. -/
inductive Fault where
  | index
  | overflow
  deriving DecidableEq

/-- `n++` for an `int`. -/
def increment (n : ℕ) : Except Fault ℕ :=
  if n < INT_MAX then .ok (n + 1) else .error .overflow

theorem increment_of_lt {n : ℕ} (h : n < INT_MAX) : increment n = .ok (n + 1) := if_pos h

/-! ## The first pass -/

/-- The counters of the first pass. -/
structure Totals where
  words : ℕ := 0
  lines : ℕ := 0
  chars : ℕ := 0
  charCounts : ℕ → ℕ := fun _ => 0
  inWord : Bool := false

/-- One round of the first loop. -/
def Totals.count (t : Totals) (ch : UInt8) : Except Fault Totals := do
  let chars ← increment t.chars
  let charCounts ←
    if ch < 128 then (increment (t.charCounts ch.toNat)).map (update t.charCounts ch.toNat)
    else .ok t.charCounts
  let lines ← if ch = 10 then increment t.lines else .ok t.lines
  let words ← if isspace ch && t.inWord then increment t.words else .ok t.words
  .ok { words, lines, chars, charCounts, inWord := !isspace ch }

def totals (content : Bytes) : Except Fault Totals := content.foldlM Totals.count {}

/-- The round as it is as long as the counters are not too great. -/
def Totals.next (t : Totals) (ch : UInt8) : Totals where
  chars := t.chars + 1
  charCounts :=
    if ch < 128 then update t.charCounts ch.toNat (t.charCounts ch.toNat + 1)
    else t.charCounts
  lines := if ch = 10 then t.lines + 1 else t.lines
  words := if isspace ch && t.inWord then t.words + 1 else t.words
  inWord := !isspace ch

/-- The counters after the first pass. -/
def tally (content : Bytes) : Totals := content.foldl Totals.next {}

theorem tally_append (s : Bytes) (ch : UInt8) : tally (s ++ [ch]) = (tally s).next ch := by
  rw [tally, List.foldl_append]
  rfl

/-- No counter is greater than the number of characters. -/
theorem tally_le (s : Bytes) : (tally s).chars = s.length ∧ (tally s).words ≤ s.length ∧
    (tally s).lines ≤ s.length ∧ ∀ i, (tally s).charCounts i ≤ s.length := by
  induction s using List.reverseRecOn with
  | nil => simp [tally]
  | append_singleton s ch ih =>
    obtain ⟨hchars, hwords, hlines, hcounts⟩ := ih
    rw [tally_append, List.length_append, List.length_singleton]
    refine ⟨congrArg (· + 1) hchars, ?_, ?_, fun i => ?_⟩
    · unfold Totals.next
      dsimp only
      split <;> omega
    · unfold Totals.next
      dsimp only
      split <;> omega
    · have hi := hcounts i
      have hch := hcounts ch.toNat
      unfold Totals.next
      dsimp only
      split
      · rw [update_apply]
        split <;> omega
      · omega

theorem Totals.count_eq {t : Totals} {n : ℕ} (hn : n < INT_MAX) (hchars : t.chars = n)
    (hwords : t.words ≤ n) (hlines : t.lines ≤ n) (hcounts : ∀ i, t.charCounts i ≤ n) (ch : UInt8) :
    t.count ch = .ok (t.next ch) := by
  have hcount := increment_of_lt ((hcounts ch.toNat).trans_lt hn)
  unfold Totals.count Totals.next
  rw [increment_of_lt (hchars ▸ hn), increment_of_lt (hwords.trans_lt hn),
    increment_of_lt (hlines.trans_lt hn), hcount]
  split <;> split <;> split <;> rfl

/-- **The first pass overflows exactly if there are too many characters.** -/
theorem totals_eq (s : Bytes) : totals s =
    if s.length ≤ INT_MAX then .ok (tally s) else .error .overflow := by
  induction s using List.reverseRecOn with
  | nil => rfl
  | append_singleton s ch ih =>
    unfold totals at ih ⊢
    rw [List.foldlM_append, ih, List.length_append, List.length_singleton, tally_append]
    obtain ⟨hchars, hwords, hlines, hcounts⟩ := tally_le s
    rcases lt_trichotomy s.length INT_MAX with hlt | heq | hgt
    · rw [if_pos hlt.le, if_pos (by omega)]
      show (tally s).count ch >>= pure = _
      rw [bind_pure, Totals.count_eq hlt hchars hwords hlines hcounts]
    · rw [if_pos heq.le, if_neg (by omega)]
      show (tally s).count ch >>= pure = _
      rw [bind_pure, Totals.count, increment, if_neg (by omega)]
      rfl
    · rw [if_neg (by omega), if_neg (by omega)]
      rfl

/-- The words are counted where they end. -/
theorem words_foldl_next (t : Totals) (s : Bytes) :
    (s.foldl Totals.next t).words + (s.foldl Totals.next t).inWord.toNat = t.words +
      if t.inWord then 1 + ((s.splitOnP isspace).tail.filter (fun w => !w.isEmpty)).length
      else (words isspace s).length := by
  induction s generalizing t with
  | nil => cases h : t.inWord <;> simp [words, h]
  | cons c s ih =>
    obtain ⟨_, _, hv⟩ := List.exists_cons_of_ne_nil (List.splitOnP_ne_nil (p := isspace) s)
    rw [List.foldl_cons, ih]
    simp only [words, List.splitOnP_cons_eq_if_modifyHead, hv]
    cases hc : isspace c <;> cases hin : t.inWord <;>
      simp [Totals.next, hc, hin, add_assoc, add_comm 1]

/-- A word at the end of the file is not counted. -/
theorem words_tally_iff (s : Bytes) :
    (tally s).words = (words isspace s).length ↔ ∀ c ∈ s.getLast?, isspace c = true := by
  have hsum : (tally s).words + (tally s).inWord.toNat = (words isspace s).length := by
    have h := words_foldl_next {} s
    rwa [if_neg Bool.false_ne_true, zero_add] at h
  rw [← hsum]
  induction s using List.reverseRecOn with
  | nil => simp [tally]
  | append_singleton s c => cases hc : isspace c <;> simp [tally_append, Totals.next, hc]

/-! ## The second pass -/

/-- The loop that looks for a word: the arrays with its count incremented, if it is there. -/
def increase (word : Bytes) : List (Bytes × ℕ) → Except Fault (Option (List (Bytes × ℕ)))
  | [] => .ok none
  | (v, n) :: entries =>
    if v = word then (increment n).map (fun n => some ((v, n) :: entries))
    else (increase word entries).map (Option.map ((v, n) :: ·))

/-- One round of the second loop, for a word in lower case: the elements of `words` and `counts`
that are in use. -/
def addWord (entries : List (Bytes × ℕ)) (word : Bytes) : Except Fault (List (Bytes × ℕ)) :=
  match increase word entries with
  | .error e => .error e
  | .ok (some entries) => .ok entries
  | .ok none => if entries.length < 1000 then .ok (entries ++ [(word, 1)]) else .error .index

/-- The words that the second pass reads, in lower case. -/
def tokens (content : Bytes) : List Bytes :=
  (delivered (fscanf 49) content).map (fun word => (cstr word).map tolower)

def histogram (content : Bytes) : Except Fault (List (Bytes × ℕ)) :=
  (tokens content).foldlM addWord []

/-- `word_histogram`, up to what it displays. -/
def wordHistogram (content : Bytes) : Except Fault (Totals × List (Bytes × ℕ)) := do
  let t ← totals content
  let entries ← histogram content
  .ok (t, entries)

/-- The elements of a list, in the order in which they first occur. -/
def firsts (ws : List Bytes) : List Bytes := ws.reverse.dedup.reverse

theorem nodup_firsts (ws : List Bytes) : (firsts ws).Nodup :=
  List.nodup_reverse.mpr (List.nodup_dedup _)

@[simp] theorem mem_firsts {w : Bytes} {ws : List Bytes} : w ∈ firsts ws ↔ w ∈ ws := by
  simp [firsts]

theorem firsts_append_singleton (ws : List Bytes) (w : Bytes) :
    firsts (ws ++ [w]) = if w ∈ ws then firsts ws else firsts ws ++ [w] := by
  unfold firsts
  rw [List.reverse_append, List.reverse_singleton, List.singleton_append]
  split
  · next h => rw [List.dedup_cons_of_mem (List.mem_reverse.mpr h)]
  · next h => rw [List.dedup_cons_of_notMem (fun hm => h (List.mem_reverse.mp hm)),
      List.reverse_cons]

theorem increase_map {l : List Bytes} (hl : l.Nodup) {f : Bytes → ℕ} (hf : ∀ v, f v < INT_MAX)
    (w : Bytes) : increase w (l.map (fun v => (v, f v))) = .ok
      (if w ∈ l then some (l.map (fun v => (v, f v + if v = w then 1 else 0))) else none) := by
  induction l with
  | nil => rfl
  | cons v l ih =>
    obtain ⟨hv, hl⟩ := List.nodup_cons.mp hl
    rw [List.map_cons, increase, ih hl, increment_of_lt (hf v)]
    by_cases hvw : v = w
    · subst hvw
      have hrest : l.map (fun u => (u, f u)) = l.map (fun u => (u, f u + if u = v then 1 else 0)) :=
        List.map_congr_left (fun u hu => by
          rw [if_neg (fun he : u = v => hv (he ▸ hu)), add_zero])
      simp [hrest, Except.map]
    · rw [if_neg hvw]
      by_cases hw : w ∈ l
      · simp [hw, hvw, Except.map]
      · simp [hw, Ne.symm hvw, Except.map]

/-- **The arrays hold the words that have been read, with their counts.** -/
theorem foldlM_addWord {ws : List Bytes} (h : ws.length ≤ INT_MAX) : ws.foldlM addWord [] =
    if (firsts ws).length ≤ 1000 then .ok ((firsts ws).map (fun v => (v, ws.count v)))
    else .error .index := by
  induction ws using List.reverseRecOn with
  | nil => rfl
  | append_singleton ws w ih =>
    rw [List.length_append, List.length_singleton] at h
    rw [List.foldlM_append, ih (by omega), firsts_append_singleton]
    have hcount : ∀ v, (ws ++ [w]).count v = ws.count v + if v = w then 1 else 0 := by
      intro v
      rw [List.count_append, List.count_singleton]
      simp only [beq_iff_eq, eq_comm (a := v)]
    simp only [hcount]
    by_cases hle : (firsts ws).length ≤ 1000
    · rw [if_pos hle]
      show (addWord _ w >>= pure) = _
      rw [bind_pure, addWord, increase_map (nodup_firsts ws)
        fun v => List.count_le_length.trans_lt (by omega)]
      by_cases hw : w ∈ ws
      · rw [if_pos (mem_firsts.mpr hw), if_pos hw, if_pos hle]
      · rw [if_neg (fun h => hw (mem_firsts.mp h)), if_neg hw]
        simp only [List.length_map, List.length_append, List.length_singleton,
          Nat.lt_iff_add_one_le]
        split
        · rw [List.map_append, List.map_singleton, if_pos rfl, List.count_eq_zero_of_not_mem hw]
          congr 2
          refine List.map_congr_left fun v hv => ?_
          rw [if_neg (fun he : v = w => hw (mem_firsts.mp (he ▸ hv))), add_zero]
        · rfl
    · rw [if_neg hle]
      have hlen : ¬ (if w ∈ ws then firsts ws else firsts ws ++ [w]).length ≤ 1000 := by
        split
        · exact hle
        · rw [List.length_append]
          omega
      rw [if_neg hlen]
      rfl

theorem tokens_eq (s : Bytes) : tokens s =
    ((words isspace s).flatMap (chunks 49)).map (fun word => (cstr word).map tolower) := by
  rw [tokens]
  exact congrArg _ (Text.delivered_nextWord (by decide) s)

theorem ne_nil_of_mem_words {p : UInt8 → Bool} {s w : Bytes} (h : w ∈ words p s) : w ≠ [] := by
  have := (List.mem_filter.mp h).2
  simpa using this

/-- **`word_histogram` runs to its end exactly if the file is not too long and there are not too
many words**, and then the arrays hold them with their counts. -/
theorem wordHistogram_eq (content : Bytes) : wordHistogram content =
    if content.length ≤ INT_MAX then
      if (firsts (tokens content)).length ≤ 1000 then
        .ok (tally content, (firsts (tokens content)).map (fun v => (v, (tokens content).count v)))
      else .error .index
    else .error .overflow := by
  rw [wordHistogram, totals_eq]
  by_cases hlen : content.length ≤ INT_MAX
  · have htokens : (tokens content).length ≤ content.length := by
      rw [tokens, List.length_map]
      exact Text.length_delivered_le (fun s w s' => Text.length_nextWord (by decide)) content
    rw [if_pos hlen, if_pos hlen, histogram, foldlM_addWord (htokens.trans hlen)]
    split <;> rfl
  · rw [if_neg hlen, if_neg hlen]
    rfl

/-- The words as they are read, if they fit. -/
theorem tokens_of_fit {content : Bytes} (h : ∀ w ∈ words isspace content, w.length ≤ 49) :
    tokens content = (words isspace content).map (fun w => (cstr w).map tolower) := by
  rw [tokens_eq, Text.flatMap_chunks (fun w hw => ⟨ne_nil_of_mem_words hw, h w hw⟩)]

/-! ## The passes together -/

/-- **The two passes agree** on the number of words exactly if the file has at most `INT_MAX`
bytes and does not end in a word, no word is longer than 49 bytes, and there are at most 1000
different words up to case (and up to what follows a NUL). -/
theorem passes_agree_iff (content : Bytes) :
    (∃ t entries, wordHistogram content = .ok (t, entries) ∧
      t.words = (words isspace content).length ∧ t.words = (entries.map Prod.snd).sum) ↔
    content.length ≤ INT_MAX ∧ (∀ c ∈ content.getLast?, isspace c = true) ∧
      (∀ w ∈ words isspace content, w.length ≤ 49) ∧
      (firsts ((words isspace content).map (fun w => (cstr w).map tolower))).length ≤ 1000 := by
  have hsum : (((firsts (tokens content)).map (fun v => (v, (tokens content).count v))).map
      Prod.snd).sum = ((words isspace content).flatMap (chunks 49)).length := by
    rw [List.map_map, firsts, List.map_reverse, List.sum_reverse]
    have hcount := List.sum_map_count_dedup_eq_length (tokens content).reverse
    simp only [List.count_reverse, List.length_reverse] at hcount
    rw [← List.length_map (fun word => (cstr word).map tolower), ← tokens_eq, ← hcount]
    simp [List.count, comp_def, beq_eq_decide]
  have hchunks := (Text.length_flatMap_chunks (n := 49) (by decide)
    (fun w hw => ne_nil_of_mem_words (s := content) (p := isspace) hw)).2
  have hread := hsum ▸ hchunks
  rw [wordHistogram_eq]
  constructor
  · rintro ⟨_, _, hrun, hwords, htotal⟩
    split_ifs at hrun with hlen hle
    cases hrun
    have hfit := hread.mp (htotal.symm.trans hwords)
    exact ⟨hlen, (words_tally_iff content).mp hwords, hfit, tokens_of_fit hfit ▸ hle⟩
  · rintro ⟨hlen, hlast, hfit, hle⟩
    rw [if_pos hlen, if_pos (tokens_of_fit hfit ▸ hle)]
    have hwords := (words_tally_iff content).mpr hlast
    exact ⟨_, _, rfl, hwords, hwords.trans (hread.mpr hfit).symm⟩

/-- A file that ends in a word: the first pass counts no word. -/
theorem passes_agree_no_newline : (words isspace [97]).length = 1 ∧
    ∃ t, wordHistogram [97] = .ok (t, [([97], 1)]) ∧ t.words = 0 :=
  ⟨rfl, _, rfl, rfl⟩

/-! ## The histogram -/

/-- The words of a file in lower case. -/
def lowered (content : Bytes) : List Bytes := (words isspace content).map (List.map tolower)

/-- The arrays are right: no store is out of bounds and no counter overflows, and they hold the
different words, in the order in which they first occur, and their counts. -/
def Exact (content : Bytes) : Prop :=
  ∃ t entries, wordHistogram content = .ok (t, entries) ∧ (entries.map Prod.fst).Nodup ∧
    entries.map Prod.fst = firsts (lowered content) ∧
    ∀ e ∈ entries, e.2 = (lowered content).count e.1

theorem zero_not_mem_map_cstr (w : Bytes) : 0 ∉ (cstr w).map tolower := by
  intro h
  obtain ⟨c, hc, h0⟩ := List.mem_map.mp h
  have hne : c ≠ 0 := by simpa using List.mem_takeWhile_imp hc
  unfold tolower at h0
  split at h0
  · next hle =>
    have := congrArg UInt8.toNat h0
    have h1 := UInt8.le_iff_toNat_le.mp hle.2
    simp [UInt8.toNat_add] at this h1
    omega
  · exact hne h0

theorem tokens_eq_lowered {content : Bytes}
    (h : ∀ w ∈ words isspace content, w.length ≤ 49 ∧ 0 ∉ w) :
    tokens content = lowered content := by
  rw [tokens_of_fit fun w hw => (h w hw).1]
  refine List.map_congr_left fun w hw => ?_
  rw [cstr, List.takeWhile_eq_self_iff.mpr (fun c hc => ?_)]
  simpa using fun h0 : c = 0 => (h w hw).2 (h0 ▸ hc)

/-- **The histogram is exact** for ASCII words of at most 49 characters exactly if the file has at
most `INT_MAX` bytes, no word contains a NUL and there are at most 1000 different words. -/
theorem histogram_exact_iff (content : Bytes)
    (hw : ∀ w ∈ words isspace content, w.length ≤ 49 ∧ ∀ c ∈ w, c < 128) :
    Exact content ↔ content.length ≤ INT_MAX ∧ (∀ w ∈ words isspace content, 0 ∉ w) ∧
      (firsts (lowered content)).length ≤ 1000 := by
  unfold Exact
  rw [wordHistogram_eq]
  constructor
  · rintro ⟨_, _, hrun, -, hfst, -⟩
    split_ifs at hrun with hlen hle
    cases hrun
    have hnul : ∀ w ∈ words isspace content, 0 ∉ w := by
      intro w hmem h0
      have hlow : w.map tolower ∈ firsts (lowered content) :=
        mem_firsts.mpr (List.mem_map_of_mem hmem)
      rw [← hfst] at hlow
      simp only [List.map_map, List.map_id', comp_def, mem_firsts, tokens_eq] at hlow
      obtain ⟨v, -, hv⟩ := List.mem_map.mp hlow
      exact zero_not_mem_map_cstr v (hv ▸ List.mem_map.mpr ⟨0, h0, rfl⟩)
    exact ⟨hlen, hnul, tokens_eq_lowered (fun w h => ⟨(hw w h).1, hnul w h⟩) ▸ hle⟩
  · rintro ⟨hlen, hnul, hle⟩
    have htokens := tokens_eq_lowered (fun w h => ⟨(hw w h).1, hnul w h⟩)
    have hkeys : ((firsts (lowered content)).map (fun v => (v, (lowered content).count v))).map
        Prod.fst = firsts (lowered content) := by simp [comp_def]
    refine ⟨_, _, by rw [if_pos hlen, htokens, if_pos hle], ?_, hkeys, ?_⟩
    · rw [hkeys]
      exact nodup_firsts _
    · intro e he
      obtain ⟨v, -, rfl⟩ := List.mem_map.mp he
      rfl

/-- The theorem at work on the file `Ab ab`. -/
theorem histogram_exact_two : Exact [65, 98, 32, 97, 98, 10] :=
  (histogram_exact_iff _ (by decide +kernel)).mpr (by decide +kernel)

/-- 1001 different words. -/
def manyWords : List Bytes :=
  (List.range 1001).map (fun i => [UInt8.ofNat (33 + i / 32), UInt8.ofNat (33 + i % 32)])

theorem nodup_manyWords : manyWords.Nodup := by
  refine List.Nodup.map_on (fun i hi j hj h => ?_) List.nodup_range
  rw [List.mem_range] at hi hj
  obtain ⟨h₁, h₂⟩ : UInt8.ofNat (33 + i / 32) = UInt8.ofNat (33 + j / 32) ∧
      UInt8.ofNat (33 + i % 32) = UInt8.ofNat (33 + j % 32) := by simpa using h
  have h₁ := congrArg UInt8.toNat h₁
  have h₂ := congrArg UInt8.toNat h₂
  simp only [UInt8.toNat_ofNat'] at h₁ h₂
  omega

/-- With these words, each on its line, a store is out of bounds. -/
theorem histogram_many :
    (∀ w ∈ words isspace (manyWords.flatMap (· ++ [10])), w.length ≤ 49 ∧ ∀ c ∈ w, c < 128) ∧
      wordHistogram (manyWords.flatMap (· ++ [10])) = .error .index := by
  have hword : ∀ w ∈ manyWords, (w ≠ [] ∧ ∀ c ∈ w, isspace c = false) ∧
      (w.length ≤ 49 ∧ ∀ c ∈ w, c < 128) ∧ 0 ∉ w ∧ w.map tolower = w := by
    have hall : ∀ w ∈ manyWords, (w ≠ [] ∧ w.all (! isspace ·) = true) ∧
        (w.length ≤ 49 ∧ w.all (· < 128) = true) ∧ 0 ∉ w ∧ w.map tolower = w := by decide +kernel
    simpa only [List.all_eq_true, Bool.not_eq_true', decide_eq_true_eq] using hall
  have hwords : words isspace (manyWords.flatMap (· ++ [10])) = manyWords := by
    rw [Text.words_flatMap (by decide) (fun w => w), List.flatMap_congr fun w hw =>
      Text.words_eq_singleton (hword w hw).1.2 (hword w hw).1.1, List.flatMap_singleton']
  have hlow : lowered (manyWords.flatMap (· ++ [10])) = manyWords := by
    rw [lowered, hwords]
    exact (List.map_congr_left (fun w hw => (hword w hw).2.2.2)).trans (List.map_id _)
  have hlen : (firsts manyWords).length = 1001 := by
    rw [firsts, List.length_reverse, (List.nodup_reverse.mpr nodup_manyWords).dedup]
    simp [manyWords]
  refine ⟨fun w hw => (hword w (hwords ▸ hw)).2.1, ?_⟩
  rw [wordHistogram_eq, if_pos (by decide +kernel), tokens_eq_lowered (fun w hw => ?_), hlow, hlen,
    if_neg (by decide)]
  rw [hwords] at hw
  exact ⟨(hword w hw).2.1.1, (hword w hw).2.2.1⟩

end Unix.WordCount
