import OsProject.CLib
import Mathlib.Logic.Function.Basic
import Mathlib.Algebra.Order.Group.Nat

/-!
# `copyfile`

`copy_with_progress` of `copyfile.c` opens the source and the destination, reads the one in
chunks of 4096 bytes and writes them to the other, and draws a bar after each chunk.

A file system is a map from paths to files, where several paths may be names of one file
(`Fs`). What the calls of the C library return is an input (`Calls`): whether the files can be
opened, the size that `ftell` reports, the chunks that `fread` delivers of a file before it
delivers nothing, how many bytes `fwrite` takes, and how much of what is buffered gets to the
file. The size is what it is: nothing says that it is the number of bytes that are read.

Both files are opened, and the destination is emptied, before anything is looked at. So it is
lost if there is no source, and the source is lost if it is the destination
(`copied_iff`). And nothing relates what is copied to the size that was reported, so that the
bar is drawn out of bounds, or the program divides by zero (`progress_safe_iff`).
-/

namespace Unix.CopyFile

open List

open Function (update update_eq_self update_idem update_of_ne update_self update_apply)

/-! ## Files -/

/-- The files, by number, and their names. -/
structure Fs where
  file : String → Option ℕ
  content : ℕ → Bytes
  /-- The number of the next file. -/
  next : ℕ
  file_lt : ∀ p i, file p = some i → i < next

namespace Fs

def setContent (fs : Fs) (i : ℕ) (bs : Bytes) : Fs :=
  { fs with content := update fs.content i bs }

/-- A new file, which is empty. -/
def create (fs : Fs) (path : String) : Fs where
  file := update fs.file path (some fs.next)
  content := update fs.content fs.next []
  next := fs.next + 1
  file_lt p i h := by
    rw [update_apply] at h
    split_ifs at h with hp
    · rw [Option.some.injEq] at h
      omega
    · exact Nat.lt_succ_of_lt (fs.file_lt p i h)

/-- `fopen(path, "wb")`, if the file may be opened. -/
def openWrite (fs : Fs) (path : String) : Fs × ℕ :=
  match fs.file path with
  | some j => (fs.setContent j [], j)
  | none => (fs.create path, fs.next)

end Fs

/-- What the calls of the C library return. -/
structure Calls where
  /-- Whether the source can be opened if it exists. -/
  fopenSource : Bool
  fopenDest : Bool
  ftell : ℕ
  ftell_lt : ftell < 2 ^ 64
  /-- The chunks that are read of a file with this content. -/
  fread : Bytes → List Bytes
  chunk_size : ∀ bs, ∀ c ∈ fread bs, 0 < c.length ∧ c.length ≤ 4096
  chunks_of_content : ∀ bs, (fread bs).flatten <+: bs
  /-- How many bytes the `i`th call of `fwrite` takes, at most. -/
  fwrite : ℕ → ℕ
  /-- If not all that is buffered is written: how many bytes the file has. -/
  flushed : Option ℕ

/-! ## The program -/

/-- What ends the program. -/
inductive Fault where
  | divideByZero
  /-- A pointer out of the string of which the bar is a part. -/
  | barOffset
  deriving DecidableEq

/-- The `int` that `(copied * 100) / total` is converted to. -/
def percent (copied total : ℕ) : Int := Int.bmod (copied * 100 % 2 ^ 64 / total : ℕ) (2 ^ 32)

/-- The text `"\rCopying: [%-50s] %d%%"`, for a bar of `n` characters. -/
def progressText (n : ℕ) (p : Int) : String :=
  "\rCopying: [" ++ String.ofList ((List.replicate n '#').rightpad 50 ' ') ++ "] " ++ toString p
    ++ "%"

def showProgress (copied total : ℕ) : Except Fault String :=
  if total = 0 then .error .divideByZero
  else
    let p := percent copied total
    if 0 < p then
      let offset := 50 - p / 2
      if 0 ≤ offset ∧ offset ≤ 50 then .ok (progressText (50 - offset).toNat p)
      else .error .barOffset
    else .ok (progressText 0 p)

/-- What the loop has done: the bytes that `fwrite` has taken, the arguments of the calls of
`show_progress`, and what has been printed. The text of an error after `copyfile:` is left
out. -/
structure Progress where
  data : Bytes := []
  shown : List (ℕ × ℕ) := []
  out : List String := []
  fault : Option Fault := none

/-- The loop, from the `i`th call of `fwrite` on. -/
def copyLoop (fwrite : ℕ → ℕ) (totalSize : ℕ) : ℕ → ℕ → List Bytes → Progress → Progress
  | _, _, [], s => s
  | i, totalCopied, c :: cs, s =>
    if min (fwrite i) c.length ≠ c.length then
      { s with data := s.data ++ c.take (fwrite i), out := s.out ++ ["copyfile: "] }
    else
      let totalCopied := (totalCopied + c.length) % 2 ^ 64
      let s := { s with data := s.data ++ c, shown := s.shown ++ [(totalCopied, totalSize)] }
      match showProgress totalCopied totalSize with
      | .error e => { s with fault := some e }
      | .ok text =>
        copyLoop fwrite totalSize (i + 1) totalCopied cs { s with out := s.out ++ [text] }

/-- What gets to the file of what was written. -/
def Calls.fclose (calls : Calls) (data : Bytes) : Bytes :=
  match calls.flushed with
  | none => data
  | some n => data.take n

def copyWithProgress (calls : Calls) (fs : Fs) (src dest : String) : Fs × Progress :=
  let srcFile := if calls.fopenSource then fs.file src else none
  let (fs, destFile) :=
    if calls.fopenDest then ((fs.openWrite dest).1, some (fs.openWrite dest).2) else (fs, none)
  match srcFile, destFile with
  | some i, some j =>
    let s := copyLoop calls.fwrite calls.ftell 0 0 (calls.fread (fs.content i)) {}
    let s := if s.fault = none then { s with out := s.out ++ ["\nCopy complete.\n"] } else s
    (fs.setContent j (calls.fclose s.data), s)
  | _, _ => (fs, { out := ["copyfile: "] })

/-- The exit status, and what `copy_with_progress` has done if it was called. -/
def main (calls : Calls) (fs : Fs) (args : List String) : ℕ × Fs × Progress :=
  match args with
  | [_, src, dest] => (0, copyWithProgress calls fs src dest)
  | _ => (1, fs, { out := ["Usage: copyfile <source> <destination>\n"] })

/-! ## Drawing the bar -/

/-- A call of `show_progress` is safe: it divides by a number that is not zero, the product
does not wrap around, and the bar is a part of its string. -/
def SafeProgress (copied total : ℕ) : Prop :=
  total ≠ 0 ∧ copied * 100 < 2 ^ 64 ∧
    (0 < percent copied total →
      0 ≤ 50 - percent copied total / 2 ∧ 50 - percent copied total / 2 ≤ 50)

variable {copied total : ℕ}

/-- The conversion to `int` of what is one. -/
theorem bmod_of_lt {q : ℕ} (h : q < 2 ^ 31) : Int.bmod q (2 ^ 32) = q := by
  rw [show (2 ^ 32 : ℕ) = 4294967296 from rfl]
  exact Int.bmod_eq_of_le (by omega) (by omega)

theorem percent_eq (h : copied * 100 % 2 ^ 64 / total < 2 ^ 31) :
    percent copied total = (copied * 100 % 2 ^ 64 / total : ℕ) :=
  bmod_of_lt h

/-- As long as the percentage is an `int`, the bar is in bounds up to 101 percent. -/
theorem safeProgress_iff (h : copied * 100 / total < 2 ^ 31) : SafeProgress copied total ↔
      total ≠ 0 ∧ copied * 100 < 2 ^ 64 ∧ copied * 100 < 102 * total := by
  refine and_congr_right fun htotal => and_congr_right (fun hmul => ?_)
  have hq : copied * 100 / total < 102 ↔ copied * 100 < 102 * total :=
    Nat.div_lt_iff_lt_mul (pos_of_ne_zero htotal)
  rw [percent_eq (by rwa [Nat.mod_eq_of_lt hmul]), Nat.mod_eq_of_lt hmul, ← hq]
  generalize copied * 100 / total = q at h
  omega

/-- What is safe is drawn. -/
theorem showProgress_of_safe (h : SafeProgress copied total) :
    ∃ text, showProgress copied total = .ok text := by
  obtain ⟨htotal, -, hbar⟩ := h
  unfold showProgress
  rw [if_neg htotal]
  by_cases hp : 0 < percent copied total
  · exact ⟨_, by rw [if_pos hp, if_pos (hbar hp)]⟩
  · exact ⟨_, if_neg hp⟩

/-- A bar for what has been copied of a whole, which may be so large that the product wraps
around. -/
theorem showProgress_of_le (htotal : 0 < total) (hle : copied ≤ total) :
    ∃ text, showProgress copied total = .ok text := by
  have hq : copied * 100 % 2 ^ 64 / total ≤ 100 := by
    refine Nat.div_le_of_le_mul (le_trans (Nat.mod_le _ _) ?_)
    exact Nat.mul_le_mul_right 100 hle
  have hp := percent_eq (hq.trans_lt (by decide))
  unfold showProgress
  rw [if_neg (ne_of_gt htotal)]
  by_cases hpos : 0 < percent copied total
  · refine ⟨_, by rw [if_pos hpos, if_pos]; rw [hp]; omega⟩
  · exact ⟨_, if_neg hpos⟩

/-! ## The loop -/

/-- The number of bytes that are copied: those of the chunks before the first that `fwrite`
does not take. -/
def taken (fwrite : ℕ → ℕ) : ℕ → List Bytes → ℕ
  | _, [] => 0
  | i, c :: cs => if c.length ≤ fwrite i then c.length + taken fwrite (i + 1) cs else 0

variable {fwrite : ℕ → ℕ} {cs : List Bytes} {s : Progress} {n : ℕ}

/-- The calls made so far stay calls. -/
theorem shown_subset_copyLoop (i n : ℕ) (cs : List Bytes) (s : Progress) :
    s.shown ⊆ (copyLoop fwrite total i n cs s).shown := by
  induction cs generalizing i n s with
  | nil => exact List.Subset.refl _
  | cons c cs ih =>
    rw [copyLoop]
    split
    · exact List.Subset.refl _
    · dsimp only
      split
      · exact subset_append_left _ _
      · exact fun x hx => ih _ _ _ (mem_append_left _ hx)

/-- In one round the percentage grows by at most 409600. -/
theorem percent_lt {k : ℕ} (h : n = 0 ∨ n * 100 < 102 * total) (hk : k ≤ 4096)
    (htotal : total ≠ 0) :
    (n + k) * 100 / total < 2 ^ 31 := by
  rw [Nat.div_lt_iff_lt_mul (pos_of_ne_zero htotal)]
  omega

/-- **The calls of `show_progress` are safe exactly if the last one is**: what is copied comes
to less than 102 percent, and its product with 100 fits. The percentage grows by so little in a
round that it cannot jump to where its conversion is negative. -/
theorem copyLoop_safe_iff (i n : ℕ) (hn : n * 100 < 2 ^ 64) (hpos : n = 0 ∨ n * 100 < 102 * total)
    (hsize : ∀ c ∈ cs, 0 < c.length ∧ c.length ≤ 4096) (hs : ∀ x ∈ s.shown, SafeProgress x.1 x.2) :
    (∀ x ∈ (copyLoop fwrite total i n cs s).shown, SafeProgress x.1 x.2) ↔
      taken fwrite i cs = 0 ∨ (n + taken fwrite i cs) * 100 < 102 * total ∧
        (n + taken fwrite i cs) * 100 < 2 ^ 64 := by
  induction cs generalizing i n s with
  | nil => exact iff_of_true hs (.inl rfl)
  | cons c cs ih =>
    obtain ⟨hc, hc'⟩ := hsize c mem_cons_self
    rw [copyLoop, taken]
    by_cases hw : c.length ≤ fwrite i
    · rw [if_neg (by omega), if_pos hw, ← add_assoc]
      have hlt : n + c.length < 2 ^ 64 := by omega
      rw [Nat.mod_eq_of_lt hlt]
      have hmem : (n + c.length, total) ∈ s.shown ++ [(n + c.length, total)] :=
        mem_append_right _ mem_cons_self
      by_cases hsafe : SafeProgress (n + c.length) total
      · obtain ⟨_, htext⟩ := showProgress_of_safe hsafe
        obtain ⟨htotal, hmul, hlt'⟩ :=
          (safeProgress_iff (percent_lt hpos hc' hsafe.1)).mp hsafe
        simp only [htext]
        rw [ih (i + 1) (n + c.length) hmul (.inr hlt') (fun c hc => hsize c (mem_cons_of_mem _ hc))]
        · omega
        · intro x hx
          rcases mem_append.mp hx with hx | hx
          · exact hs x hx
          · rw [mem_singleton.mp hx]
            exact hsafe
      · refine iff_of_false (fun hall => hsafe ?_) fun hbound => hsafe ?_
        · refine hall (n + c.length, total) ?_
          dsimp only
          split
          · exact hmem
          · exact shown_subset_copyLoop _ _ _ _ hmem
        · have htotal : total ≠ 0 := by omega
          refine (safeProgress_iff (percent_lt hpos hc' htotal)).mpr ⟨htotal, ?_, ?_⟩ <;> omega
    · rw [if_pos (by omega), if_neg hw]
      exact iff_of_true hs (.inl rfl)

variable {calls : Calls} {fs : Fs} {src dest : String} {i j : ℕ}

/-- The file that `fopen(src, "rb")` opens. -/
def Calls.source (calls : Calls) (fs : Fs) (src : String) : Option ℕ :=
  if calls.fopenSource then fs.file src else none

/-- The loop on the chunks of the source. -/
def Calls.loop (calls : Calls) (bs : Bytes) : Progress :=
  copyLoop calls.fwrite calls.ftell 0 0 (calls.fread bs) {}

/-- Both files are opened. -/
theorem copyWithProgress_of_open (hsrc : calls.source fs src = some i)
    (hdest : calls.fopenDest = true) :
    (copyWithProgress calls fs src dest).1 = (fs.openWrite dest).1.setContent (fs.openWrite dest).2
        (calls.fclose (calls.loop ((fs.openWrite dest).1.content i)).data) ∧
      (copyWithProgress calls fs src dest).2.shown =
        (calls.loop ((fs.openWrite dest).1.content i)).shown := by
  rw [Calls.source] at hsrc
  unfold copyWithProgress
  simp only [hsrc, hdest, if_true]
  split <;> exact ⟨rfl, rfl⟩

/-- The source is not opened: the destination is, if it can be. -/
theorem copyWithProgress_of_source (hsrc : calls.source fs src = none) :
    (copyWithProgress calls fs src dest).1 =
        (if calls.fopenDest then (fs.openWrite dest).1 else fs) ∧
      (copyWithProgress calls fs src dest).2.shown = [] := by
  rw [Calls.source] at hsrc
  unfold copyWithProgress
  cases hdest : calls.fopenDest <;> simp [hsrc]

/-- The destination is not opened. -/
theorem copyWithProgress_of_dest (hdest : calls.fopenDest = false) :
    (copyWithProgress calls fs src dest).1 = fs ∧
      (copyWithProgress calls fs src dest).2.shown = [] := by
  unfold copyWithProgress
  simp only [hdest]
  split <;> first | exact ⟨rfl, rfl⟩ | contradiction

/-- The chunks that are read. -/
def Calls.stream (calls : Calls) (fs : Fs) (src dest : String) : List Bytes :=
  match calls.source fs src with
  | some i => if calls.fopenDest then calls.fread ((fs.openWrite dest).1.content i) else []
  | none => []

/-- **When the progress arithmetic is safe**: nothing is copied, or less than 102 percent of
the size that `ftell` has reported, and less than a hundredth of what a `size_t` holds. -/
theorem progress_safe_iff (calls : Calls) (fs : Fs) (src dest : String) :
    (∀ x ∈ (copyWithProgress calls fs src dest).2.shown, SafeProgress x.1 x.2) ↔
      taken calls.fwrite 0 (calls.stream fs src dest) = 0 ∨
        taken calls.fwrite 0 (calls.stream fs src dest) * 100 < 102 * calls.ftell ∧
        taken calls.fwrite 0 (calls.stream fs src dest) * 100 < 2 ^ 64 := by
  unfold Calls.stream
  cases hsrc : calls.source fs src with
  | none =>
    rw [(copyWithProgress_of_source hsrc).2]
    exact iff_of_true (fun x hx => absurd hx not_mem_nil) (.inl rfl)
  | some =>
    cases hdest : calls.fopenDest with
    | false =>
      rw [(copyWithProgress_of_dest hdest).2]
      exact iff_of_true (fun x hx => absurd hx not_mem_nil) (.inl rfl)
    | true =>
      rw [(copyWithProgress_of_open hsrc hdest).2, Calls.loop, copyLoop_safe_iff 0 0 (by decide)
        (.inl rfl) (calls.chunk_size _) (fun x hx => absurd hx not_mem_nil)]
      simp

/-- A file of at most 4096 bytes is read in one chunk, and no call fails. -/
private def small (size : ℕ) (h : size < 2 ^ 64) : Calls where
  fopenSource := true
  fopenDest := true
  ftell := size
  ftell_lt := h
  fread bs := if 0 < bs.length ∧ bs.length ≤ 4096 then [bs] else []
  chunk_size bs c hc := by
    split_ifs at hc with hlen
    · rw [mem_singleton.mp hc]
      exact hlen
    · exact absurd hc not_mem_nil
  chunks_of_content bs := by
    split_ifs
    · exact ⟨[], by rw [flatten_singleton, append_nil]⟩
    · exact nil_prefix
  fwrite _ := 4096
  flushed := none

/-- One file, by the name `a`. -/
private def oneFile (bs : Bytes) : Fs where
  file p := if p = "a" then some 0 else none
  content _ := bs
  next := 1
  file_lt p i h := by
    split_ifs at h
    · rw [← Option.some.inj h]
      exact Nat.zero_lt_one

/-- **The progress arithmetic is not safe**: a file whose size is reported as 0, as that of a
file under `/proc` is, makes the program divide by zero; and one that has two bytes where one
was reported makes the bar begin 50 bytes before its string. -/
theorem progress_not_safe :
    ¬ (∀ x ∈ (copyWithProgress (small 0 (by decide)) (oneFile [1]) "a" "b").2.shown,
      SafeProgress x.1 x.2) ∧
    ¬ (∀ x ∈ (copyWithProgress (small 1 (by decide)) (oneFile [1, 2]) "a" "b").2.shown,
      SafeProgress x.1 x.2) := by
  refine ⟨fun h => ?_, fun h => ?_⟩
  · exact (h (1, 0) (by decide)).1 rfl
  · exact absurd ((h (2, 1) (by decide)).2.2 (by decide)).1 (by decide)

/-! ## What is copied -/

/-- What a file system has that can be told from outside: the names, and the contents of what
is named. -/
structure Fs.Same (fs fs' : Fs) : Prop where
  file : fs'.file = fs.file
  content : ∀ p i, fs.file p = some i → fs'.content i = fs.content i

/-- No call fails while a file with this content is copied, and `ftell` reports its size. -/
structure Calls.ErrorFree (calls : Calls) (bs : Bytes) : Prop where
  fopenSource : calls.fopenSource = true
  fopenDest : calls.fopenDest = true
  ftell : calls.ftell = bs.length
  fread : (calls.fread bs).flatten = bs
  fwrite : ∀ i c, (calls.fread bs)[i]? = some c → c.length ≤ calls.fwrite i
  flushed : ∀ n, calls.flushed = some n → bs.length ≤ n

/-- In `fs'` the source has been copied, and nothing else has changed. -/
structure Copied (calls : Calls) (fs : Fs) (src dest : String) (fs' : Fs) : Prop where
  kept : ∀ i, fs.file src = some i → fs'.content i = fs.content i
  copied : ∀ i, fs.file src = some i → calls.ErrorFree ((fs.openWrite dest).1.content i) →
    ∃ j, fs'.file dest = some j ∧ fs'.content j = fs.content i
  names : ∀ p, p ≠ dest → fs'.file p = fs.file p
  others : ∀ p i, fs.file p = some i → fs.file dest ≠ some i → fs'.content i = fs.content i
  failed : calls.source fs src = none → fs.Same fs'

/-- Opening a file for writing makes it an empty file with this name. -/
theorem Fs.openWrite_file (fs : Fs) (dest : String) :
    (fs.openWrite dest).1.file = update fs.file dest (some (fs.openWrite dest).2) := by
  unfold Fs.openWrite
  cases h : fs.file dest with
  | some j =>
    show fs.file = update fs.file dest (some j)
    rw [← h, update_eq_self]
  | none => rfl

theorem Fs.openWrite_content (fs : Fs) (dest : String) :
    (fs.openWrite dest).1.content = update fs.content (fs.openWrite dest).2 [] := by
  unfold Fs.openWrite
  cases h : fs.file dest <;> rfl

/-- A file that is opened for writing is the one of that name, if there is one. -/
theorem Fs.openWrite_eq_iff {p : String} (hp : fs.file p = some i) :
    (fs.openWrite dest).2 = i ↔ fs.file dest = some i := by
  unfold Fs.openWrite
  cases h : fs.file dest with
  | some => exact Option.some_inj.symm
  | none =>
    refine iff_of_false (fun he => ?_) nofun
    exact absurd (fs.file_lt p i hp) (not_lt.mpr (le_of_eq he))

/-- Everything that is read is written if no call fails. -/
theorem copyLoop_data (hsize : ∀ c ∈ cs, 0 < c.length ∧ c.length ≤ 4096)
    (hn : n + cs.flatten.length ≤ total) (htotal : total < 2 ^ 64)
    (hw : ∀ k c, cs[k]? = some c → c.length ≤ fwrite (i + k)) :
    (copyLoop fwrite total i n cs s).data = s.data ++ cs.flatten := by
  induction cs generalizing i n s with
  | nil => exact (append_nil _).symm
  | cons c cs ih =>
    have hc : c.length ≤ fwrite i := hw 0 c rfl
    have hpos := (hsize c mem_cons_self).1
    rw [flatten_cons, length_append] at hn
    rw [copyLoop, if_neg (by omega), Nat.mod_eq_of_lt (by omega)]
    obtain ⟨text, htext⟩ : ∃ text, showProgress (n + c.length) total = .ok text :=
      showProgress_of_le (by omega) (by omega)
    simp only [htext]
    rw [ih (fun c hc => hsize c (mem_cons_of_mem _ hc)) (by omega), flatten_cons, append_assoc]
    intro k c' hk
    rw [add_assoc, add_comm 1 k]
    exact hw (k + 1) c' hk

theorem Calls.ErrorFree.data {bs : Bytes} (h : calls.ErrorFree bs) :
    calls.fclose (calls.loop bs).data = bs := by
  have hdata : (calls.loop bs).data = bs := by
    rw [Calls.loop, copyLoop_data (calls.chunk_size bs)
      (by rw [h.fread, h.ftell, zero_add]) calls.ftell_lt
      (by simp only [zero_add]; exact h.fwrite), h.fread]
    rfl
  rw [hdata, Calls.fclose]
  split
  · rfl
  · next n hn => exact take_of_length_le (h.flushed n hn)

/-- Nothing is read of an empty file. -/
theorem Calls.loop_nil (calls : Calls) : calls.fclose (calls.loop []).data = [] := by
  have hnil : calls.fread [] = [] := by
    cases h : calls.fread [] with
    | nil => rfl
    | cons c =>
      have hpos := (calls.chunk_size [] c (h ▸ mem_cons_self)).1
      have hpre := (calls.chunks_of_content []).length_le
      rw [h, flatten_cons, length_append, length_nil] at hpre
      omega
  rw [Calls.loop, hnil, copyLoop, Calls.fclose]
  split
  · rfl
  · exact take_nil

/-- The source, if it can be opened, is not the destination unless it is empty; and if it
cannot be opened, nor can the destination, unless it is empty. -/
def Harmless (calls : Calls) (fs : Fs) (src dest : String) : Prop :=
  calls.fopenDest = true →
    match calls.source fs src with
    | some i => fs.file dest = some i → fs.content i = []
    | none => ∃ j, fs.file dest = some j ∧ fs.content j = []

/-- **The source is not opened**: nothing has changed only if the destination was there, and
empty. -/
theorem copied_openWrite_iff (hsrc : calls.source fs src = none) :
    Copied calls fs src dest (fs.openWrite dest).1 ↔
      ∃ j, fs.file dest = some j ∧ fs.content j = [] := by
  constructor
  · intro h
    obtain ⟨hfile, hcontent⟩ := h.failed hsrc
    rw [fs.openWrite_content] at hcontent
    refine ⟨(fs.openWrite dest).2, ?_, ?_⟩
    · rw [← hfile, fs.openWrite_file, update_self]
    · rw [← hcontent dest, update_self]
      rw [← hfile, fs.openWrite_file, update_self]
  · rintro ⟨j, hj, hempty⟩
    have hX : (fs.openWrite dest).2 = j := (Fs.openWrite_eq_iff hj).mpr hj
    have hfile : (fs.openWrite dest).1.file = fs.file := by
      rw [fs.openWrite_file, hX, ← hj, update_eq_self]
    have hcontent : (fs.openWrite dest).1.content = fs.content := by
      rw [fs.openWrite_content, hX, ← hempty, update_eq_self]
    refine ⟨fun i _ => congrFun hcontent i, fun i hi hfree => ?_, fun p _ => congrFun hfile p,
      fun _ i _ _ => congrFun hcontent i, fun _ => ⟨hfile, fun _ i _ => congrFun hcontent i⟩⟩
    rw [Calls.source, if_pos hfree.fopenSource, hi] at hsrc
    cases hsrc

/-- **Both files are opened**: the source is as it was only if it is not the destination, or
empty. -/
theorem copied_setContent_iff (hsrc : calls.source fs src = some i) :
    Copied calls fs src dest ((fs.openWrite dest).1.setContent (fs.openWrite dest).2
        (calls.fclose (calls.loop ((fs.openWrite dest).1.content i)).data)) ↔
      (fs.file dest = some i → fs.content i = []) := by
  have hi := hsrc
  rw [Calls.source] at hi
  split_ifs at hi
  have hdata : ∀ data, ((fs.openWrite dest).1.setContent (fs.openWrite dest).2 data).content =
      update fs.content (fs.openWrite dest).2 data := by
    intro data
    rw [Fs.setContent, fs.openWrite_content, update_idem]
  constructor
  · intro h hsame
    have hj := (Fs.openWrite_eq_iff hi).mpr hsame
    have hkept := h.kept i hi
    rwa [hdata, hj, update_self, fs.openWrite_content, hj, update_self,
      calls.loop_nil, eq_comm] at hkept
  · intro h
    have hkept : ∀ data, (fs.file dest = some i → data = []) →
        update fs.content (fs.openWrite dest).2 data i = fs.content i := by
      intro data hnil
      by_cases hsame : fs.file dest = some i
      · rw [(Fs.openWrite_eq_iff hi).mpr hsame, update_self, hnil hsame, h hsame]
      · rw [update_of_ne (fun he => hsame ((Fs.openWrite_eq_iff hi).mp he.symm))]
    have hopen : (fs.openWrite dest).1.content i = fs.content i := by
      rw [fs.openWrite_content]
      exact hkept [] fun _ => rfl
    have hnil : fs.file dest = some i → calls.fclose (calls.loop (fs.content i)).data = [] := by
      intro hsame
      rw [h hsame, calls.loop_nil]
    rw [hopen]
    refine ⟨fun i' hi' => ?_, fun i' hi' hfree => ?_, fun p hp => ?_, fun p i' hi' hne => ?_,
      fun hnone => ?_⟩
    · cases hi.symm.trans hi'
      rw [hdata]
      exact hkept _ hnil
    · cases hi.symm.trans hi'
      rw [hopen] at hfree
      refine ⟨(fs.openWrite dest).2, ?_, ?_⟩
      · rw [Fs.setContent, fs.openWrite_file, update_self]
      · rw [hdata, update_self, hfree.data]
    · rw [Fs.setContent, fs.openWrite_file, update_of_ne hp]
    · rw [hdata, update_of_ne (fun he => hne ((Fs.openWrite_eq_iff hi').mp he.symm))]
    · rw [hsrc] at hnone
      cases hnone

/-- **When `copy_with_progress` copies, and does nothing else.** -/
theorem copied_iff (calls : Calls) (fs : Fs) (src dest : String) :
    Copied calls fs src dest (copyWithProgress calls fs src dest).1 ↔
      Harmless calls fs src dest := by
  unfold Harmless
  cases hdest : calls.fopenDest with
  | false =>
    rw [(copyWithProgress_of_dest hdest).1]
    refine iff_of_true ⟨fun _ _ => rfl, fun i _ hfree => ?_, fun _ _ => rfl, fun _ _ _ _ => rfl,
      fun _ => ⟨rfl, fun _ _ _ => rfl⟩⟩ nofun
    exact absurd (hdest.symm.trans hfree.fopenDest) nofun
  | true =>
    cases hsrc : calls.source fs src with
    | none =>
      rw [(copyWithProgress_of_source hsrc).1, if_pos hdest, copied_openWrite_iff hsrc]
      exact ⟨fun h _ => h, fun h => h rfl⟩
    | some =>
      rw [(copyWithProgress_of_open hsrc hdest).1, copied_setContent_iff hsrc]
      exact ⟨fun h _ => h, fun h => h rfl⟩

/-- **`copy_with_progress` empties files**: the source, if it is its own destination, and the
destination, if there is no source. -/
theorem not_copied : ¬ Copied (small 0 (by decide)) (oneFile [1]) "a" "a"
      (copyWithProgress (small 0 (by decide)) (oneFile [1]) "a" "a").1 ∧
    ¬ Copied (small 0 (by decide)) (oneFile [1]) "missing" "a"
      (copyWithProgress (small 0 (by decide)) (oneFile [1]) "missing" "a").1 := by
  refine ⟨fun h => ?_, fun h => ?_⟩
  · exact absurd (h.kept 0 rfl) nofun
  · exact absurd ((h.failed rfl).content "a" 0 rfl) nofun

end Unix.CopyFile
