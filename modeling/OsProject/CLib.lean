import OsProject.Readers

/-!
# Functions of the C library

What the UNIX utilities use of `ctype.h`, `string.h` and `stdio.h`, in the C locale. A string is
the list of its bytes before the NUL.
-/

namespace Unix

open Text List

abbrev Bytes := List UInt8

/-- The bytes of a literal. -/
def bytes (s : String) : Bytes := s.toUTF8.data.toList

/-- The string in a buffer. -/
def cstr (buffer : Bytes) : Bytes := buffer.takeWhile (· ≠ 0)

def isspace (c : UInt8) : Bool := c == 32 || (9 ≤ c && c ≤ 13)

def tolower (c : UInt8) : UInt8 := if 65 ≤ c ∧ c ≤ 90 then c + 32 else c

/-- `fgets` with a buffer of `size` bytes: what it stores, and what is left of the input. -/
def fgets (size : ℕ) (input : Bytes) : Option (Bytes × Bytes) := nextLine 10 (size - 1) input

theorem delivered_fgets {size : ℕ} (h : 1 < size) (s : Bytes) :
    delivered (fgets size) s = (lines 10 s).flatMap (chunks (size - 1)) :=
  delivered_nextLine (by omega) s

/-- In a file without NULs the strings are what was read. -/
theorem cstr_of_mem_fgets {size : ℕ} (h : 1 < size) {s p : Bytes} (h0 : 0 ∉ s)
    (hp : p ∈ delivered (fgets size) s) : cstr p = p := by
  rw [delivered_fgets h] at hp
  obtain ⟨l, hl, hp⟩ := mem_flatMap.mp hp
  have hin := (infix_of_mem_chunks (by omega) hp).trans (infix_of_mem_lines hl)
  exact takeWhile_eq_self_iff.mpr fun c hc =>
    decide_eq_true (ne_of_mem_of_not_mem (hin.subset hc) h0)

/-- `fscanf` with the format `"%<width>s"`. -/
def fscanf (width : ℕ) (input : Bytes) : Option (Bytes × Bytes) := nextWord isspace width input

/-- `strtok`: the next token, and the string after the separator that it overwrites. -/
def strtok (delim : UInt8 → Bool) (s : Bytes) : Option (Bytes × Bytes) :=
  (nextWord delim s.length s).map (fun r => (r.1, r.2.drop 1))

/-- **The tokens are the words.** -/
theorem delivered_strtok (delim : UInt8 → Bool) (s : Bytes) :
    delivered (strtok delim) s = words delim s := by
  refine delivered_unique (fun s => ?_) s
  unfold strtok
  rcases nextWord_cases s.length s with
    ⟨hr, hw⟩ | ⟨w, s', hne, -, hs, hle, hw, hr⟩
  · exact .inl ⟨by rw [hr]; rfl, hw⟩
  refine .inr ⟨w, s'.drop 1, ?_, ?_, ?_⟩
  · rw [hr, Option.map_some, take_of_length_le (by omega), drop_eq_nil_of_le (by omega), nil_append]
  · have hpos := length_pos_iff.mpr hne
    rw [length_drop]
    omega
  · rw [hw]
    cases s' with
    | nil => rfl
    | cons a => rw [words_cons_of_sep (hs a rfl), drop_one, tail_cons]

end Unix
