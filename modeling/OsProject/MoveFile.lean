import OsProject.CLib
import OsProject.PosixTree
import Mathlib.Data.Nat.Find

/-!
# `movefile`

`move_file` of `movefile.c` renames the source to the destination, after asking
on standard input if the destination exists; if they are on different devices
it copies the source in chunks of 4096 bytes and removes it.

What the calls of the C library return is an input (`Calls`): the characters
`getchar` gives, without end, where `none` is end of file; whether `rename`
succeeds; the chunks that `fread` delivers before it delivers nothing, which are
not empty, and together are the content of the source or, if there is a read
error, only the beginning of it; how many bytes `fwrite` takes; whether `fclose`
writes all that is buffered; whether `remove` succeeds. Source and destination
are different files.

No data is lost exactly if a question is answered, and, in a copy that runs to
its end, the source is read and written completely (`move_file_safe_iff`).
`copy_file` does not see it if it is not: it takes a read error for the end of
the file, and does not look at what `fclose` returns.

`main` refuses to move a directory into itself. It compares the paths as strings,
and takes a directory for one below the source if its name only begins with the
name of the source (`refuses_self_moves_iff`).
-/

namespace Unix.MoveFile

open List Option

/-- What `rename` returns. -/
inductive Rename where
  | ok
  /-- -1, with `errno` equal to `EXDEV`. -/
  | exdev
  /-- -1, with another `errno`. -/
  | failed
  deriving DecidableEq

/-- What the calls of the C library return, if the source has this content. -/
structure Calls (content : Bytes) where
  answers : ℕ → Option Char
  rename : Rename
  fopenSource : Bool
  fopenDest : Bool
  chunks : List Bytes
  chunk_size : ∀ c ∈ chunks, 0 < c.length ∧ c.length ≤ 4096
  chunks_of_content : chunks.flatten <+: content
  /-- How many bytes the `i`th call of `fwrite` takes, at most. -/
  fwrite : ℕ → ℕ
  /-- If not all that is buffered is written: how many bytes the file has. -/
  fcloseDest : Option ℕ
  remove : Bool

/-- The contents of the files, `none` if there is no file, and what has been
printed. The text of an error after `movefile:` is left out. -/
structure Files where
  source : Option Bytes
  dest : Option Bytes
  out : List String

def Files.printf (f : Files) (text : String) : Files := { f with out := f.out ++ [text] }

def Files.perror (f : Files) : Files := f.printf "movefile: "

variable {content : Bytes}

/-! ## The program -/

/-- What `confirm_overwrite` returns for a character, if it returns. -/
def reply : Option Char → Option Bool
  | some 'y' => some true
  | some 'Y' => some true
  | some 'n' => some false
  | some 'N' => some false
  | _ => none

/-- The loop of `confirm_overwrite`, from the `i`th character on. -/
def awaitReply (answers : ℕ → Option Char) : ℕ → ℕ → Files → Option (Bool × Files)
  | 0, _, _ => none
  | fuel + 1, i, f =>
    match reply (answers i) with
    | some b => some (b, f)
    | none => awaitReply answers fuel (i + 1) (f.printf "Please enter 'y' (yes) or 'n' (no): ")

def confirmOverwrite (answers : ℕ → Option Char) (fuel : ℕ) (path : String) (f : Files) :
    Option (Bool × Files) :=
  awaitReply answers fuel 0
    (f.printf ("movefile: '" ++ path ++ "' already exists. Overwrite? (y/n): "))

/-- The loop of `copy_file`: the bytes that `fwrite` has taken, and whether it has
taken all it was given. -/
def copyLoop (fwrite : ℕ → ℕ) : ℕ → List Bytes → Bytes → Bool × Bytes
  | _, [], data => (true, data)
  | i, c :: cs, data =>
    if min (fwrite i) c.length ≠ c.length then (false, data ++ c.take (fwrite i))
    else copyLoop fwrite (i + 1) cs (data ++ c)

/-- What `fclose` leaves in the file. -/
def Calls.fclose (calls : Calls content) (data : Bytes) : Bytes :=
  match calls.fcloseDest with
  | none => data
  | some n => data.take n

def copyFile (calls : Calls content) (f : Files) : Int × Files :=
  if calls.fopenSource = false then (-1, f.perror)
  else if calls.fopenDest = false then (-1, f.perror)
  else
    match copyLoop calls.fwrite 0 calls.chunks [] with
    | (false, data) => (-1, { f.perror with dest := some (calls.fclose data) })
    | (true, data) => (0, { f with dest := some (calls.fclose data) })

/-- `move_file` after the question. -/
def renameOrCopy (calls : Calls content) (f : Files) : Int × Files :=
  match calls.rename with
  | .ok => (0, { f with source := none, dest := f.source })
  | .exdev =>
    match copyFile calls
      (f.printf "movefile: Cross-device move detected. Performing manual copy.\n") with
    | (r, f) =>
      if r = 0 then
        if calls.remove = true then (0, { f with source := none }) else (-1, f.perror)
      else (-1, f)
  | .failed => (-1, f.perror)

/-- `move_file`, if the loop of `confirm_overwrite` takes fewer than `fuel`
rounds. -/
def moveFile (calls : Calls content) (destination : String) (fuel : ℕ) (f : Files) :
    Option (Int × Files) :=
  if f.dest.isSome then
    match confirmOverwrite calls.answers fuel destination f with
    | none => none
    | some (false, f) => some (-1, f.printf "movefile: Move cancelled.\n")
    | some (true, f) => some (renameOrCopy calls f)
  else some (renameOrCopy calls f)

/-! ## The question -/

/-- The first character that is an answer says `b`. -/
def FirstReply (answers : ℕ → Option Char) (b : Bool) : Prop :=
  ∃ n, reply (answers n) = some b ∧ ∀ m < n, reply (answers m) = none

variable {answers : ℕ → Option Char} {b : Bool} {f f' : Files} {fuel i : ℕ}

theorem FirstReply.unique {b' : Bool} (h : FirstReply answers b) (h' : FirstReply answers b') :
    b = b' := by
  obtain ⟨n, hn, hlt⟩ := h
  obtain ⟨n', hn', hlt'⟩ := h'
  rcases lt_trichotomy n n' with hlt₁ | rfl | hlt₁
  · rw [hlt' n hlt₁] at hn
    cases hn
  · exact some.inj (hn.symm.trans hn')
  · rw [hlt n' hlt₁] at hn'
    cases hn'

/-- There is a first answer if there is one. -/
theorem exists_firstReply (h : ∃ n, reply (answers n) ≠ none) : ∃ b, FirstReply answers b := by
  obtain ⟨b, hb⟩ := ne_none_iff_exists'.mp (Nat.find_spec h)
  exact ⟨b, Nat.find h, hb, fun m hm => not_not.mp (Nat.find_min h hm)⟩

/-- The loop changes no file. -/
theorem awaitReply_files (h : awaitReply answers fuel i f = some (b, f')) :
    f'.source = f.source ∧ f'.dest = f.dest := by
  induction fuel generalizing i f with
  | zero => cases h
  | succ fuel ih =>
    rw [awaitReply] at h
    split at h
    · cases h
      exact ⟨rfl, rfl⟩
    · have hfiles := ih h
      exact hfiles

/-- **The loop ends with the first answer.** -/
theorem awaitReply_firstReply (h : awaitReply answers fuel i f = some (b, f'))
    (hi : ∀ m < i, reply (answers m) = none) : FirstReply answers b := by
  induction fuel generalizing i f with
  | zero => cases h
  | succ fuel ih =>
    rw [awaitReply] at h
    split at h
    · next b' hb' =>
      cases h
      exact ⟨i, hb', hi⟩
    · next hnone =>
      refine ih h fun m hm => ?_
      rcases Nat.lt_succ_iff_lt_or_eq.mp hm with hlt | rfl
      · exact hi m hlt
      · exact hnone

/-- **And if there is one it ends.** -/
theorem exists_awaitReply {n : ℕ} (i : ℕ) (f : Files) (hn : reply (answers (i + n)) = some b)
    (hlt : ∀ m < n, reply (answers (i + m)) = none) :
    ∃ f', awaitReply answers (n + 1) i f = some (b, f') := by
  induction n generalizing i f with
  | zero =>
    refine ⟨f, ?_⟩
    rw [Nat.add_zero] at hn
    rw [awaitReply, hn]
  | succ n ih =>
    have h0 : reply (answers i) = none := hlt 0 (Nat.succ_pos n)
    have hstep : ∀ m, i + 1 + m = i + (m + 1) := fun m => by omega
    obtain ⟨f', hf'⟩ := ih (i + 1) (f.printf "Please enter 'y' (yes) or 'n' (no): ")
      (by rw [hstep, hn]) fun m hm => by rw [hstep, hlt _ (Nat.succ_lt_succ hm)]
    exact ⟨f', by rw [awaitReply, h0, hf']⟩

/-! ## The copy -/

/-- **`copy_file` ends well if every `fwrite` takes what it is given**, whatever
`fread` and `fclose` do. -/
theorem copyLoop_true_iff (fwrite : ℕ → ℕ) (i : ℕ) (cs : List Bytes) (data : Bytes) :
    (copyLoop fwrite i cs data).1 = true ↔ ∀ j c, cs[j]? = some c → c.length ≤ fwrite (i + j) := by
  induction cs generalizing i data with
  | nil => exact iff_of_true rfl nofun
  | cons c cs ih =>
    rw [copyLoop]
    split_ifs with hmin
    · refine iff_of_false nofun fun hall => hmin ?_
      exact min_eq_right (hall 0 c rfl)
    · have hc : c.length ≤ fwrite i := by omega
      rw [ih]
      refine ⟨fun hall j c' hj => ?_, fun hall j c' hj => ?_⟩
      · cases j with
        | zero => exact (some.inj hj) ▸ hc
        | succ j =>
          have hlen := hall j c' hj
          rwa [Nat.add_right_comm] at hlen
      · have hlen := hall (j + 1) c' hj
        rwa [← Nat.add_assoc, Nat.add_right_comm] at hlen

/-- Then the bytes written are those that were read. -/
theorem copyLoop_data (fwrite : ℕ → ℕ) (i : ℕ) (cs : List Bytes) (data : Bytes)
    (h : (copyLoop fwrite i cs data).1 = true) :
    (copyLoop fwrite i cs data).2 = data ++ cs.flatten := by
  induction cs generalizing i data with
  | nil => exact (append_nil data).symm
  | cons c cs ih =>
    rw [copyLoop] at h ⊢
    split_ifs at h ⊢
    · rw [ih _ _ h, flatten_cons, append_assoc]

/-- The copy comes to its end, so that the source is removed. -/
structure Calls.Completes (calls : Calls content) : Prop where
  rename : calls.rename = .exdev
  fopenSource : calls.fopenSource = true
  fopenDest : calls.fopenDest = true
  fwrite : ∀ i c, calls.chunks[i]? = some c → c.length ≤ calls.fwrite i
  remove : calls.remove = true

/-- Everything is read, and everything is written. -/
structure Calls.Complete (calls : Calls content) : Prop where
  read : calls.chunks.flatten = content
  flushed : ∀ n, calls.fcloseDest = some n → content.length ≤ n

/-- No data is lost by a call that returns `r` and leaves the files `f`. -/
def Kept (content : Bytes) (r : Int) (f : Files) : Prop :=
  (f.source = some content ∨ f.dest = some content) ∧ (r = -1 → f.source = some content)

section

variable (calls : Calls content)
include calls

theorem copyFile_source (f : Files) : (copyFile calls f).2.source = f.source := by
  unfold copyFile
  split_ifs
  · rfl
  · rfl
  · split <;> rfl

/-- **`copy_file` returns 0 if the files can be opened and every `fwrite` takes what
it is given**, whatever `fread` and `fclose` do. -/
theorem copyFile_eq_zero_iff (f : Files) :
    (copyFile calls f).1 = 0 ↔ calls.fopenSource = true ∧ calls.fopenDest = true ∧
      ∀ i c, calls.chunks[i]? = some c → c.length ≤ calls.fwrite i := by
  have hiff := copyLoop_true_iff calls.fwrite 0 calls.chunks []
  simp only [Nat.zero_add] at hiff
  rw [← hiff]
  unfold copyFile
  split_ifs with h1 h2
  · simp [h1]
  · simp [h2]
  · split
    · next hloop => simp [hloop]
    · next hloop =>
      rw [Bool.not_eq_false] at h1 h2
      exact iff_of_true rfl ⟨h1, h2, by rw [hloop]⟩

theorem copyFile_dest (f : Files) (h : (copyFile calls f).1 = 0) :
    (copyFile calls f).2.dest = some (calls.fclose calls.chunks.flatten) := by
  have hdata := copyLoop_data calls.fwrite 0 calls.chunks []
  obtain ⟨h1, h2, hall⟩ := (copyFile_eq_zero_iff calls f).mp h
  have hok := (copyLoop_true_iff calls.fwrite 0 calls.chunks []).mpr fun i c hc => by
    rw [Nat.zero_add]
    exact hall i c hc
  unfold copyFile
  rw [if_neg (by rw [h1]; nofun), if_neg (by rw [h2]; nofun)]
  split
  · next hloop =>
    rw [hloop] at hok
    cases hok
  · next hloop =>
    have hflat := hdata hok
    rw [hloop] at hflat
    exact congrArg (fun data => some (calls.fclose data)) hflat

/-- What `fclose` leaves is the content only if everything is read and written. -/
theorem fclose_eq_iff : calls.fclose calls.chunks.flatten = content ↔ calls.Complete := by
  unfold Calls.fclose
  constructor
  · intro h
    split at h
    · next hnone => exact ⟨h, fun n hn => by rw [hnone] at hn; cases hn⟩
    · next n hsome =>
      have hlen := congrArg length h
      rw [length_take] at hlen
      have hle := calls.chunks_of_content.length_le
      refine ⟨calls.chunks_of_content.eq_of_length (by omega), fun n' hn' => ?_⟩
      rw [hsome, some.injEq] at hn'
      omega
  · rintro ⟨hread, hflush⟩
    rw [hread]
    split
    · rfl
    · next n hsome => exact take_of_length_le (hflush n hsome)

/-- **What comes after the question loses nothing if and only if a copy that comes
to its end is complete.** -/
theorem renameOrCopy_kept_iff (hf : f.source = some content) :
    Kept content (renameOrCopy calls f).1 (renameOrCopy calls f).2 ↔
      (calls.Completes → calls.Complete) := by
  unfold renameOrCopy
  cases hren : calls.rename with
  | ok =>
    refine iff_of_true ⟨.inr hf, nofun⟩ fun hc => ?_
    rw [hc.rename] at hren
    cases hren
  | failed =>
    refine iff_of_true ⟨.inl hf, fun _ => hf⟩ fun hc => ?_
    rw [hc.rename] at hren
    cases hren
  | exdev =>
    simp only
    have hsource := (copyFile_source calls
      (f.printf "movefile: Cross-device move detected. Performing manual copy.\n")).trans hf
    have hzero := copyFile_eq_zero_iff calls
      (f.printf "movefile: Cross-device move detected. Performing manual copy.\n")
    have hdest := copyFile_dest calls
      (f.printf "movefile: Cross-device move detected. Performing manual copy.\n")
    generalize copyFile calls
      (f.printf "movefile: Cross-device move detected. Performing manual copy.\n") = res
      at hsource hzero hdest ⊢
    obtain ⟨r, f₁⟩ := res
    -- a copy that does not come to its end leaves the source
    have hleave : ¬ calls.Completes → ∀ r f', f'.source = some content →
        (Kept content r f' ↔ (calls.Completes → calls.Complete)) := fun hnot r f' hf' =>
      iff_of_true ⟨.inl hf', fun _ => hf'⟩ fun hc => absurd hc hnot
    by_cases hr : r = 0
    · rw [if_pos hr]
      obtain ⟨h1, h2, h3⟩ := hzero.mp hr
      by_cases hrem : calls.remove = true
      · rw [if_pos hrem, ← fclose_eq_iff calls]
        have hdest' : f₁.dest = some (calls.fclose calls.chunks.flatten) := hdest hr
        refine ⟨fun hk _ => ?_, fun hc => ⟨.inr ?_, nofun⟩⟩
        · have hk' : f₁.dest = some content := hk.1.resolve_left nofun
          exact some.inj (hdest'.symm.trans hk')
        · rw [hdest', hc ⟨hren, h1, h2, h3, hrem⟩]
      · rw [if_neg hrem]
        exact hleave (fun hc => hrem hc.remove) _ _ hsource
    · rw [if_neg hr]
      refine hleave (fun hc => hr (hzero.mpr ⟨hc.fopenSource, hc.fopenDest, hc.fwrite⟩)) _ _ hsource

end

/-- `move_file` returns, and loses no data. -/
def Safe (calls : Calls content) (destination : String) (dest : Option Bytes) : Prop :=
  ∃ fuel r f, moveFile calls destination fuel ⟨some content, dest, []⟩ = some (r, f) ∧
    Kept content r f

/-- **When `move_file` is safe**: if the destination exists there is an answer; and
if there is no question, or the answer is yes, then a copy that comes to its end
is complete. -/
theorem move_file_safe_iff (calls : Calls content) (destination : String) (dest : Option Bytes) :
    Safe calls destination dest ↔ (dest ≠ none → ∃ n, reply (calls.answers n) ≠ none) ∧
      (dest = none ∨ FirstReply calls.answers true → calls.Completes → calls.Complete) := by
  cases dest with
  | none =>
    have hmove : ∀ fuel, moveFile calls destination fuel ⟨some content, none, []⟩ =
        some (renameOrCopy calls ⟨some content, none, []⟩) := fun _ => rfl
    have hkept := renameOrCopy_kept_iff calls (f := ⟨some content, none, []⟩) rfl
    constructor
    · rintro ⟨fuel, r, f, hf, hk⟩
      rw [hmove, some.injEq] at hf
      rw [hf] at hkept
      exact ⟨absurd rfl, fun _ => hkept.mp hk⟩
    · rintro ⟨-, hcomplete⟩
      exact ⟨0, _, _, hmove 0, hkept.mpr (hcomplete (.inl rfl))⟩
  | some old =>
    constructor
    · rintro ⟨fuel, r, f, hf, hk⟩
      unfold moveFile confirmOverwrite at hf
      rw [if_pos isSome_some] at hf
      split at hf
      · cases hf
      · next f₁ hawait =>
        have hfirst := awaitReply_firstReply hawait nofun
        refine ⟨fun _ => ?_, fun hyes => ?_⟩
        · obtain ⟨n, hn, -⟩ := hfirst
          exact ⟨n, by rw [hn]; nofun⟩
        · cases hfirst.unique (hyes.resolve_left nofun)
      · next f₁ hawait =>
        have hfirst := awaitReply_firstReply hawait nofun
        have hkept := renameOrCopy_kept_iff calls (awaitReply_files hawait).1
        rw [some.inj hf] at hkept
        refine ⟨fun _ => ?_, fun _ => hkept.mp hk⟩
        obtain ⟨n, hn, -⟩ := hfirst
        exact ⟨n, by rw [hn]; nofun⟩
    · rintro ⟨hanswer, hcomplete⟩
      obtain ⟨b, hfirst⟩ := exists_firstReply (hanswer nofun)
      obtain ⟨n, hn, hlt⟩ := id hfirst
      obtain ⟨_, hawait⟩ := exists_awaitReply 0 (Files.printf ⟨some content, some old, []⟩
        ("movefile: '" ++ destination ++ "' already exists. Overwrite? (y/n): "))
        (by rwa [Nat.zero_add]) (fun m hm => by rw [Nat.zero_add]; exact hlt m hm)
      have hfiles := awaitReply_files hawait
      refine ⟨n + 1, ?_⟩
      unfold moveFile confirmOverwrite
      rw [if_pos isSome_some, hawait]
      cases b with
      | false => exact ⟨_, _, rfl, .inl hfiles.1, fun _ => hfiles.1⟩
      | true =>
        exact ⟨_, _, rfl, (renameOrCopy_kept_iff calls hfiles.1).mpr (hcomplete (.inr hfirst))⟩

/-- The destination exists, and standard input is at its end. -/
def endOfFile : Calls [1] where
  answers := fun _ => none
  rename := .ok
  fopenSource := true
  fopenDest := true
  chunks := []
  chunk_size := nofun
  chunks_of_content := nil_prefix
  fwrite := fun _ => 4096
  fcloseDest := none
  remove := true

/-- The first call of `fread` fails. -/
def readError : Calls [1] := { endOfFile with rename := .exdev }

/-- The byte is read, but `fclose` fails to write it. -/
def flushError : Calls [1] where
  answers := fun _ => none
  rename := .exdev
  fopenSource := true
  fopenDest := true
  chunks := [[1]]
  chunk_size := by decide
  chunks_of_content := prefix_refl _
  fwrite := fun _ => 4096
  fcloseDest := some 0
  remove := true

/-- **`move_file` does not return at the end of standard input, and loses the
source** if it cannot be read, or the destination cannot be written when it is
closed. -/
theorem move_file_not_safe : ¬ Safe endOfFile "b" (some []) ∧ ¬ Safe readError "b" none ∧
    ¬ Safe flushError "b" none := by
  refine ⟨?_, ?_, ?_⟩
  · rintro ⟨fuel, r, f, hf, -⟩
    unfold moveFile confirmOverwrite at hf
    rw [if_pos isSome_some] at hf
    split at hf
    · cases hf
    all_goals
      next hawait =>
        obtain ⟨_, hn, -⟩ := awaitReply_firstReply hawait nofun
        cases hn
  · rintro ⟨fuel, r, f, hf, hkept, -⟩
    have hend : (renameOrCopy readError ⟨some [1], none, []⟩).2 = f :=
      congrArg Prod.snd (some.inj hf)
    rw [← hend] at hkept
    exact absurd hkept (by decide)
  · rintro ⟨fuel, r, f, hf, hkept, -⟩
    have hend : (renameOrCopy flushError ⟨some [1], none, []⟩).2 = f :=
      congrArg Prod.snd (some.inj hf)
    rw [← hend] at hkept
    exact absurd hkept (by decide)

/-! ## Moving a directory into itself -/

def isDirectory (stat : String → Option Bool) (path : String) (f : Files) : Int × Files :=
  match stat path with
  | none => (-1, f.perror)
  | some isDir => (if isDir then 1 else 0, f)

def intoItself (source : String) : String :=
  "movefile: Cannot move directory '" ++ source ++ "' into itself.\n"

/-- `main` with two arguments: `access` says if the source exists, `stat` what is a directory. -/
def main (calls : Calls content) (access : Bool) (stat : String → Option Bool)
    (source destination : String) (fuel : ℕ) (f : Files) : Option (Int × Files) :=
  if access = false then some (1, f.perror)
  else
    let (isDir, f) := isDirectory stat source f
    let (isDir', f) := if isDir = 1 then isDirectory stat destination f else (0, f)
    -- `strncmp(source, destination, strlen(source)) == 0`
    if isDir = 1 ∧ isDir' = 1 ∧ source.toList.isPrefixOf destination.toList then
      some (1, f.printf (intoItself source))
    else
      match moveFile calls destination fuel f with
      | none => none
      | some (r, f) =>
        if r = 0 then
          some (0, f.printf ("movefile: Moved '" ++ source ++ "' to '" ++ destination ++ "'\n"))
        else some (1, f)

open Posix (Name)

/-- The names of a path, outermost first, each after a slash. -/
def slashed (ns : List Name) : Posix.Str := ns.flatMap (fun n => '/' :: n.val)

/-- A normalised absolute path. -/
def absolute (ns : List Name) : String := .ofList (if ns = [] then ['/'] else slashed ns)

/-- A name ends before the next slash. -/
theorem takeWhile_name (n : Name) (s : Posix.Str) :
    (n.val ++ s).takeWhile (· ≠ '/') = n.val ++ s.takeWhile (· ≠ '/') :=
  takeWhile_append_of_pos fun _ hc => decide_eq_true (ne_of_mem_of_not_mem hc n.property.2.1)

theorem slashed_isPrefix {s d : List Name} : slashed s <+: slashed d ↔
    s <+: d ∨ ∃ a x y b, s = a ++ [x] ∧ d = a ++ y :: b ∧ x.val <+: y.val ∧ x ≠ y := by
  induction s generalizing d with
  | nil => simp [slashed]
  | cons x s ih =>
    cases d with
    | nil => simp [slashed]
    | cons y d =>
      have hcons : ∀ (n : Name) ns, slashed (n :: ns) = '/' :: (n.val ++ slashed ns) :=
        fun _ _ => rfl
      rw [hcons, hcons, prefix_cons_inj]
      by_cases hxy : x = y
      · subst hxy
        rw [prefix_append_right_inj, ih, prefix_cons_inj]
        refine or_congr_right ⟨?_, ?_⟩
        · rintro ⟨a, x', y', b, rfl, rfl, h⟩
          exact ⟨x :: a, x', y', b, rfl, rfl, h⟩
        · rintro ⟨a, x', y', b, hs, hd, hpre, hne⟩
          cases a with
          | nil => exact absurd ((cons.inj hs).1.symm.trans (cons.inj hd).1) hne
          | cons _ a => exact ⟨a, x', y', b, (cons.inj hs).2, (cons.inj hd).2, hpre, hne⟩
      constructor
      · rintro ⟨t, ht⟩
        have hy : x.val ++ (slashed s ++ t).takeWhile (· ≠ '/') = y.val := by
          rw [← takeWhile_name, ← append_assoc, ht, takeWhile_name]
          cases d <;> simp [slashed]
        cases s with
        | nil => exact .inr ⟨[], x, y, d, rfl, rfl, ⟨_, hy⟩, hxy⟩
        | cons => exact absurd (Subtype.ext (by simpa [slashed] using hy)) hxy
      · rintro (h | ⟨a, x', y', b, hs, hd, hpre, -⟩)
        · exact absurd (cons_prefix_cons.mp h).1 hxy
        · cases a with
          | nil =>
            cases hs
            cases hd
            simpa [slashed] using hpre.trans (prefix_append ..)
          | cons => exact absurd ((cons.inj hs).1.trans (cons.inj hd).1.symm) hxy

theorem absolute_isPrefix {s d : List Name} :
    (absolute s).toList <+: (absolute d).toList ↔ slashed s <+: slashed d := by
  simp only [absolute, String.toList_ofList]
  cases s with
  | nil => cases d <;> simp [slashed]
  | cons x =>
    cases d with
    | nil => simp [slashed, x.property.1]
    | cons => simp

/-- The last thing that is printed by a move that fails. -/
theorem moveFile_out {calls : Calls content} {destination : String} {r : ℤ}
    (h : moveFile calls destination fuel f = some (r, f')) (hr : r ≠ 0) :
    f'.out.getLast? = some "movefile: " ∨
      f'.out.getLast? = some "movefile: Move cancelled.\n" := by
  have hperror : ∀ f : Files, f.perror.out.getLast? = some "movefile: " :=
    fun f => getLast?_concat ..
  have hcopy : ∀ f, (copyFile calls f).1 ≠ 0 →
      (copyFile calls f).2.out.getLast? = some "movefile: " := by
    intro f hne
    unfold copyFile at hne ⊢
    split_ifs at hne ⊢
    · exact hperror f
    · exact hperror f
    · rcases hloop : copyLoop calls.fwrite 0 calls.chunks [] with ⟨_ | _, data⟩
      · exact hperror f
      · rw [hloop] at hne
        exact absurd rfl hne
  have hrename : ∀ f, renameOrCopy calls f = (r, f') → f'.out.getLast? = some "movefile: " := by
    intro f hrun
    unfold renameOrCopy at hrun
    split at hrun
    · exact absurd (Prod.mk.inj hrun).1.symm hr
    · split at hrun
      next r₁ f₁ hc =>
      split_ifs at hrun with h0
      · exact absurd (Prod.mk.inj hrun).1.symm hr
      · rw [← (Prod.mk.inj hrun).2]
        exact hperror f₁
      · rw [← (Prod.mk.inj hrun).2]
        have hout := hcopy _ (by rw [hc]; exact h0)
        rwa [hc] at hout
    · rw [← (Prod.mk.inj hrun).2]
      exact hperror f
  unfold moveFile at h
  split at h
  · split at h
    · cases h
    · rw [← (Prod.mk.inj (some.inj h)).2]
      exact .inr (getLast?_concat ..)
    · exact .inl (hrename _ (some.inj h))
  · exact .inl (hrename _ (some.inj h))

theorem intoItself_ne {source text : String} (h : text.length < 33) : intoItself source ≠ text := by
  have hle : ∀ a b c : String, a.length ≤ (a ++ b ++ c).length := fun a b c => by
    rw [String.length_append, String.length_append]
    omega
  have h33 : "movefile: Cannot move directory '".length = 33 := by decide +kernel
  rintro rfl
  exact absurd (hle _ source _) (not_le.mpr (h33 ▸ h))

/-- **`main` refuses to move a directory to another one exactly if the path of the other begins
with its own.** -/
theorem main_refuses_iff {stat : String → Option Bool} {source destination : String}
    (hs : stat source = some true) (hd : stat destination = some true) (calls : Calls content)
    (fuel : ℕ) (f : Files) :
    main calls true stat source destination fuel f = some (1, f.printf (intoItself source)) ↔
      source.toList <+: destination.toList := by
  simp only [main, isDirectory, hs, hd, if_true, true_and, isPrefixOf_iff_prefix]
  rw [if_neg (by simp)]
  split_ifs with hpre
  · exact iff_of_true rfl hpre
  refine iff_of_false (fun h => ?_) hpre
  split at h
  · cases h
  · next r f' hmove =>
    split_ifs at h with hr
    · exact absurd (Prod.mk.inj (some.inj h)).1 (by decide)
    have hlast : f'.out.getLast? = some (intoItself source) := by
      rw [(Prod.mk.inj (some.inj h)).2]
      exact getLast?_concat ..
    rcases moveFile_out hmove hr with hout | hout
    · exact intoItself_ne (by decide +kernel) (some.inj (hlast.symm.trans hout))
    · exact intoItself_ne (by decide +kernel) (some.inj (hlast.symm.trans hout))

/-- **A move is refused as one into itself exactly if it is one, unless the last name of the source
is the beginning of another name.** -/
theorem refuses_self_moves_iff (stat : String → Option Bool) (s d : List Name)
    (hs : stat (absolute s) = some true) (hd : stat (absolute d) = some true) :
    (∀ (content : Bytes) (calls : Calls content) fuel f,
      main calls true stat (absolute s) (absolute d) fuel f =
        some (1, f.printf (intoItself (absolute s))) ↔ s <+: d) ↔
      ∀ a x y b, s = a ++ [x] → d = a ++ y :: b → x.val <+: y.val → x = y := by
  simp only [main_refuses_iff hs hd, absolute_isPrefix, slashed_isPrefix]
  constructor
  · rintro h a x y b rfl rfl hpre
    by_contra hne
    have hle := (h [1] endOfFile 0 ⟨none, none, []⟩).mp (.inr ⟨a, x, y, b, rfl, rfl, hpre, hne⟩)
    rw [prefix_append_right_inj, cons_prefix_cons] at hle
    exact hne hle.1
  · intro h _ _ _ _
    refine or_iff_left ?_
    rintro ⟨a, x, y, b, hs, hd, hpre, hne⟩
    exact hne (h a x y b hs hd hpre)

def nameA : Name := ⟨['a'], by decide⟩

def nameAB : Name := ⟨['a', 'b'], by decide⟩

/-- The directory `/a` is not moved to `/a/ab`, but a move of `/ab` to `/a` is not refused. -/
theorem refuses_move_below :
    main endOfFile true (fun _ => some true) (absolute [nameA]) (absolute [nameA, nameAB]) 0
        ⟨some [1], some [], []⟩ =
      some (1, Files.printf ⟨some [1], some [], []⟩ (intoItself (absolute [nameA]))) ∧
    main endOfFile true (fun _ => some true) (absolute [nameAB]) (absolute [nameA]) 0
        ⟨some [1], some [], []⟩ ≠
      some (1, Files.printf ⟨some [1], some [], []⟩ (intoItself (absolute [nameAB]))) := by
  have hbelow := refuses_self_moves_iff (fun _ => some true) [nameA] [nameA, nameAB] rfl rfl
  have hother := refuses_self_moves_iff (fun _ => some true) [nameAB] [nameA] rfl rfl
  constructor
  · refine (hbelow.mpr (fun a x y b hs hd hpre => ?_) [1] endOfFile 0 _).mpr (by simp)
    cases a with
    | nil => exact (cons.inj hs).1.symm.trans (cons.inj hd).1
    | cons => simp at hs
  · refine fun h => absurd
      ((hother.mpr (fun a x y b hs hd hpre => ?_) [1] endOfFile 0 _).mp h) (by decide)
    cases a with
    | nil =>
      rw [← (cons.inj hs).1, ← (cons.inj hd).1] at hpre
      exact absurd hpre (by decide)
    | cons => simp at hs

/-- `/a` is not moved to `/ab`, which is not below it. -/
theorem refuses_sibling : (main endOfFile true (fun _ => some true) (absolute [nameA])
    (absolute [nameAB]) 0 ⟨some [1], none, []⟩).map (fun r => (r.1, r.2.out)) =
      some (1, [intoItself "/a"]) ∧ ¬ [nameA] <+: [nameAB] := by
  decide

end Unix.MoveFile
