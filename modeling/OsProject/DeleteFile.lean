import OsProject.PosixTree

/-!
# `deletefile -r`

`remove_directory` of `deletefile.c` removes what is in a directory, then the
directory. It builds the path of every entry in a buffer of 1024 bytes, and asks
`stat` whether the entry is a directory; `stat` follows links, so it enters the
directories that links point to, and a path that does not fit is cut off and
names something else.

`careful` is the same program with `lstat` and without the limit. It removes
nothing outside the directory (`careful_inside`), and the program does what
`careful` does as long as `careful` comes to no entry that is a link to a directory
or has too long a path.

A call in the model has a bound on the depth of recursion, and returns `none` as
long as the bound does not suffice.
-/

namespace Unix.DeleteFile

open Posix List

/-- How to tell a directory, and what is left of a path. -/
structure Mode where
  isDir : Tree → Path → Str → Option Bool
  snprintf : Str → Str

/-- `stat`, and `char filepath[1024]`. -/
def code : Mode where
  isDir := fun t cwd filepath => (t.stat cwd filepath).map fun k => k = .dir
  snprintf := List.take 1023

/-- The same for what exists, with links not taken for what they point to, and no
limit. -/
def careful : Mode where
  isDir := fun t cwd filepath =>
    (t.stat cwd filepath).bind fun _ => (t.lstat cwd filepath).map fun k => k = .dir
  snprintf := id

/-- One round of the loop of `remove_directory`; the loop goes on after 0. -/
def removeEntry (M : Mode) (cwd : Path) (recurse : Tree → Str → Option Int × Tree) (path d : Str)
    (t : Tree) : Option Int × Tree :=
  if d = ['.'] ∨ d = ['.', '.'] then (some 0, t)
  else
    match M.isDir t cwd (M.snprintf (path ++ '/' :: d)) with
    | none => (some (-1), t)
    | some true =>
      match recurse t (M.snprintf (path ++ '/' :: d)) with
      | (none, t') => (none, t')
      | (some r, t') => if r = -1 then (some (-1), t') else (some 0, t')
    | some false =>
      match t.remove cwd (M.snprintf (path ++ '/' :: d)) with
      | none => (some (-1), t)
      | some t' => (some 0, t')

/-- The loop of `remove_directory` over what `readdir` returns. -/
def removeEntries (M : Mode) (cwd : Path) (recurse : Tree → Str → Option Int × Tree) (path : Str) :
    List Str → Tree → Option Int × Tree
  | [], t => (some 0, t)
  | d :: ds, t =>
    match removeEntry M cwd recurse path d t with
    | (some 0, t') => removeEntries M cwd recurse path ds t'
    | (r, t') => (r, t')

/-- What `readdir` returns for a directory with these names. -/
def dirents (names : List Name) : List Str := ['.'] :: ['.', '.'] :: names.map Subtype.val

def removeDirectoryWith (M : Mode) (cwd : Path) : ℕ → Tree → Str → Option Int × Tree
  | 0, t, _ => (none, t)
  | fuel + 1, t, path =>
    match t.opendir cwd path with
    | none => (some (-1), t)
    | some names =>
      match removeEntries M cwd (removeDirectoryWith M cwd fuel) path (dirents names) t with
      | (none, t') => (none, t')
      | (some r, t') =>
        if r = -1 then (some (-1), t')
        else
          match t'.rmdir cwd path with
          | none => (some (-1), t')
          | some t'' => (some 0, t'')

/-- `remove_directory`. -/
def removeDirectory : Path → ℕ → Tree → Str → Option Int × Tree := removeDirectoryWith code

/-- `main` after the arguments: the exit status, the tree, and what is printed. The
text of an error after `deletefile:` is left out. -/
def mainTarget (cwd : Path) (fuel : ℕ) (t : Tree) (recursive : Bool) (target : Str) :
    Option Int × Tree × List String :=
  match t.stat cwd target with
  | none => (some 1, t, ["deletefile: "])
  | some k =>
    if k = .dir then
      if recursive = false then
        (some 1, t, ["deletefile: Cannot remove '" ++ String.ofList target ++
        "': Is a directory\n"])
      else
        match removeDirectory cwd fuel t target with
        | (none, t') => (none, t', [])
        | (some r, t') =>
          if r = -1 then (some 1, t', ["deletefile: "])
          else (some 0, t', ["Removed '" ++ String.ofList target ++ "'\n"])
    else
      match t.remove cwd target with
      | none => (some 1, t, ["deletefile: "])
      | some t' => (some 0, t', ["Removed '" ++ String.ofList target ++ "'\n"])

def main (cwd : Path) (fuel : ℕ) (t : Tree) : List Str → Option Int × Tree × List String
  | [_, flag, target] =>
    if flag = ['-', 'r'] then mainTarget cwd fuel t true target
    else (some 1, t, ["Usage: ./bin/deletefile [-r] <file_or_directory>\n"])
  | [_, target] => mainTarget cwd fuel t false target
  | _ => (some 1, t, ["Usage: ./bin/deletefile [-r] <file_or_directory>\n"])

/-! ## Where the program goes wrong -/

/-- `careful`, called in `t` for the directory `path`, comes to the entry `n` of the
directory `d`, in `t'`. -/
inductive Comes (cwd : Path) : Tree → Str → Tree → Str → Name → Prop
  | entry {t t' : Tree} {path : Str} {names ns ns' : List Name} {n : Name} {fuel : ℕ}
      (hopen : t.opendir cwd path = some names) (hnames : names = ns ++ n :: ns')
      (hloop : removeEntries careful cwd (removeDirectoryWith careful cwd fuel) path
        (ns.map Subtype.val) t = (some 0, t')) : Comes cwd t path t' path n
  | sub {t t' t'' : Tree} {path d : Str} {n m : Name} (h : Comes cwd t path t' path n)
      (hdir : careful.isDir t' cwd (path ++ '/' :: n.val) = some true)
      (hsub : Comes cwd t' (path ++ '/' :: n.val) t'' d m) : Comes cwd t path t'' d m

/-- The path of the entry fits in the buffer, and the entry is not a link to a
directory. -/
def Plain (cwd : Path) (t : Tree) (d : Str) (n : Name) : Prop :=
  (d ++ '/' :: n.val).length < 1024 ∧
    (t.stat cwd (d ++ '/' :: n.val) = some .dir → t.lstat cwd (d ++ '/' :: n.val) = some .dir)

variable {cwd p q : Path} {t t' t'' : Tree} {path d : Str} {n : Name} {names : List Name}
variable {M : Mode} {recurse : Tree → Str → Option Int × Tree} {ds : List Str}

theorem path_ne_nil (h : t.opendir cwd path = some names) : path ≠ [] := by
  unfold Tree.opendir at h
  split at h
  · cases h
  · next p hp => exact (Tree.walk_of_resolve hp).1

/-- Then the program sees what `careful` sees. -/
theorem Plain.isDir (h : Plain cwd t d n) (hd : d ≠ []) :
    code.snprintf (d ++ '/' :: n.val) = d ++ '/' :: n.val ∧
      code.isDir t cwd (d ++ '/' :: n.val) = careful.isDir t cwd (d ++ '/' :: n.val) := by
  refine ⟨take_of_length_le (Nat.le_of_lt_succ h.1), ?_⟩
  show (t.stat cwd _).map _ = (t.stat cwd _).bind _
  cases hst : t.stat cwd (d ++ '/' :: n.val) with
  | none => rfl
  | some k =>
    obtain ⟨_, -, hentry, hk⟩ := Tree.stat_append hd hst
    have hl := Tree.lstat_append hentry
    by_cases hkd : k = .dir
    · rw [h.2 (hst.trans (congrArg some hkd)), hkd]
      rfl
    · rw [hl]
      rcases hk with ⟨hk, -⟩ | ⟨target, hk⟩
      · rw [hk]
        rfl
      · rw [hk]
        simp [hkd]

theorem removeEntries_cons (h : removeEntry M cwd recurse path d t = (some 0, t')) :
    removeEntries M cwd recurse path (d :: ds) t = removeEntries M cwd recurse path ds t' := by
  rw [removeEntries, h]
  rfl

theorem removeEntries_stop {r : Option Int} (h : removeEntry M cwd recurse path d t = (r, t'))
    (hr : r ≠ some 0) : removeEntries M cwd recurse path (d :: ds) t = (r, t') := by
  rw [removeEntries, h]
  split
  · next h0 =>
    cases h0
    exact absurd rfl hr
  · next h0 =>
    cases h0
    rfl

/-- A loop that comes to its end goes on with the rest. -/
theorem removeEntries_append {xs ys : List Str}
    (h : removeEntries M cwd recurse path xs t = (some 0, t')) :
    removeEntries M cwd recurse path (xs ++ ys) t = removeEntries M cwd recurse path ys t' := by
  induction xs generalizing t with
  | nil =>
    rw [removeEntries, Prod.mk.injEq] at h
    rw [nil_append, h.2]
  | cons x xs ih =>
    rcases hx : removeEntry M cwd recurse path x t with ⟨r, _⟩
    by_cases hr : r = some 0
    · rw [hr] at hx
      rw [removeEntries_cons hx] at h
      rw [cons_append, removeEntries_cons hx]
      exact ih h
    · rw [removeEntries_stop hx hr, Prod.mk.injEq] at h
      exact absurd h.1 hr

/-- `.` and `..` are skipped. -/
theorem removeEntries_dirents : removeEntries M cwd recurse path (dirents names) t =
    removeEntries M cwd recurse path (names.map Subtype.val) t := rfl

theorem removeEntry_name (n : Name) : removeEntry M cwd recurse path n.val t =
    match M.isDir t cwd (M.snprintf (path ++ '/' :: n.val)) with
    | none => (some (-1), t)
    | some true =>
      match recurse t (M.snprintf (path ++ '/' :: n.val)) with
      | (none, t') => (none, t')
      | (some r, t') => if r = -1 then (some (-1), t') else (some 0, t')
    | some false =>
      match t.remove cwd (M.snprintf (path ++ '/' :: n.val)) with
      | none => (some (-1), t)
      | some t' => (some 0, t') := by
  rw [removeEntry, if_neg (not_or.mpr ⟨n.property.2.2.1, n.property.2.2.2⟩)]

/-- **As long as every entry is plain, the program does what `careful` does.** -/
theorem removeDirectory_eq (h : ∀ t' d n, Comes cwd t path t' d n → Plain cwd t' d n) (fuel : ℕ) :
    removeDirectory cwd fuel t path = removeDirectoryWith careful cwd fuel t path := by
  unfold removeDirectory
  induction fuel generalizing t path with
  | zero => rfl
  | succ fuel ih =>
    rw [removeDirectoryWith, removeDirectoryWith]
    cases hopen : t.opendir cwd path with
    | none => rfl
    | some names =>
      -- by induction on the entries that are left, `ns'`, after the entries `ns`
      have hloop : ∀ ns' ns t₁, names = ns ++ ns' →
          removeEntries careful cwd (removeDirectoryWith careful cwd fuel) path
            (ns.map Subtype.val) t = (some 0, t₁) →
          removeEntries code cwd (removeDirectoryWith code cwd fuel) path
              (ns'.map Subtype.val) t₁ =
            removeEntries careful cwd (removeDirectoryWith careful cwd fuel) path
              (ns'.map Subtype.val) t₁ := by
        intro ns'
        induction ns' with
        | nil => exact fun _ _ _ _ => rfl
        | cons n ns' ihns =>
          intro ns t₁ hnames hdone
          have hcome : Comes cwd t path t₁ path n := .entry hopen hnames hdone
          obtain ⟨hcut, hsee⟩ := (h _ _ _ hcome).isDir (path_ne_nil hopen)
          have hsame : removeEntry code cwd (removeDirectoryWith code cwd fuel) path n.val t₁ =
              removeEntry careful cwd (removeDirectoryWith careful cwd fuel) path n.val t₁ := by
            rw [removeEntry_name, removeEntry_name, hcut, hsee,
              show careful.snprintf (path ++ '/' :: n.val) = path ++ '/' :: n.val from rfl]
            cases hd : careful.isDir t₁ cwd (path ++ '/' :: n.val) with
            | none => rfl
            | some b =>
              cases b with
              | false => rfl
              | true =>
                simp only
                rw [ih fun t' d m hsub => h t' d m (.sub hcome hd hsub)]
          rcases hn : removeEntry careful cwd (removeDirectoryWith careful cwd fuel) path n.val t₁
            with ⟨r, t₂⟩
          rw [hn] at hsame
          rw [map_cons]
          by_cases hr : r = some 0
          · rw [hr] at hn hsame
            rw [removeEntries_cons hsame, removeEntries_cons hn]
            refine ihns (ns ++ [n]) t₂ (by rw [hnames, append_assoc]; rfl) ?_
            rw [map_append, removeEntries_append hdone]
            exact removeEntries_cons hn
          · rw [removeEntries_stop hsame hr, removeEntries_stop hn hr]
      have hall := hloop names [] t rfl rfl
      simp only [removeEntries_dirents, hall]

/-! ## `careful` stays inside -/

/-- `t'` is `t` with entries at `p` and below removed. -/
structure Inside (p : Path) (t t' : Tree) : Prop where
  le : t'.Le t
  below : ∀ q, t'.kind q ≠ t.kind q → p <:+ q
  height : t'.height = t.height

theorem Inside.refl (p : Path) (t : Tree) : Inside p t t := ⟨.refl t, fun _ h => absurd rfl h, rfl⟩

theorem Inside.trans (h : Inside p t t') (h' : Inside p t' t'') : Inside p t t'' := by
  refine ⟨h'.le.trans h.le, fun q hq => ?_, h'.height.trans h.height⟩
  by_cases h1 : t'.kind q = t.kind q
  · exact h'.below q (h1 ▸ hq)
  · exact h.below q h1

theorem Inside.up (h : Inside (n :: p) t t') : Inside p t t' :=
  ⟨h.le, fun q hq => (suffix_cons n p).trans (h.below q hq), h.height⟩

theorem Inside.erase (h : ∀ m, t.kind (m :: n :: p) = none) : Inside (n :: p) t (t.erase n p h) :=
  ⟨Tree.erase_le h, fun _ hq => Tree.erase_changes h hq ▸ suffix_refl _, rfl⟩

/-- Removing by name removes the entry of that name. -/
theorem Inside.remove (hentry : t.entry cwd path = some (n, p))
    (h : t.remove cwd path = some t') : Inside (n :: p) t t' := by
  unfold Tree.remove Tree.unlink Tree.rmdir at h
  rw [hentry] at h
  simp only at h
  split at h
  · next t₁ h₁ =>
    cases h
    split_ifs at h₁
    cases h₁
    exact .erase _
  · split_ifs at h
    cases h
    exact .erase _

/-- **What one round does**: nothing, or a call for a directory in `p`, or the removal
of an entry of `p`. -/
theorem careful_cases (n : Name) (hpath : path ≠ [])
    (hp : ∀ q, t.resolve cwd path = some q → q = p) :
    removeEntry careful cwd recurse path n.val t = (some (-1), t) ∨
    (t.resolve cwd (path ++ '/' :: n.val) = some (n :: p) ∧ t.kind (n :: p) = some .dir ∧
      removeEntry careful cwd recurse path n.val t =
        match recurse t (path ++ '/' :: n.val) with
        | (none, t') => (none, t')
        | (some r, t') => if r = -1 then (some (-1), t') else (some 0, t')) ∨
    ∃ t', Inside (n :: p) t t' ∧ removeEntry careful cwd recurse path n.val t = (some 0, t') := by
  rw [removeEntry_name, show careful.snprintf (path ++ '/' :: n.val) =
    path ++ '/' :: n.val from rfl]
  cases hst : t.stat cwd (path ++ '/' :: n.val) with
  | none =>
    have hdir : careful.isDir t cwd (path ++ '/' :: n.val) = none := by
      show (t.stat cwd _).bind _ = none
      rw [hst]
      rfl
    rw [hdir]
    exact .inl rfl
  | some k =>
    obtain ⟨q, hq, hentry, hk⟩ := Tree.stat_append hpath hst
    obtain rfl := hp q hq
    have hdir : careful.isDir t cwd (path ++ '/' :: n.val) =
        (t.kind (n :: q)).map fun k => decide (k = .dir) := by
      show (t.stat cwd _).bind _ = _
      rw [hst, Tree.lstat_append hentry]
      rfl
    rw [hdir]
    cases hkn : t.kind (n :: q) with
    | none => exact .inl rfl
    | some k' =>
      by_cases hk' : k' = .dir
      · refine .inr (.inl ⟨?_, by rw [hk'], by rw [hk']; rfl⟩)
        rcases hk with ⟨-, hres⟩ | ⟨target, hl⟩
        · exact hres
        · rw [hkn, hk'] at hl
          cases hl
      · rw [Option.map_some, decide_eq_false hk']
        cases hrem : t.remove cwd (path ++ '/' :: n.val) with
        | none => exact .inl rfl
        | some t₁ => exact .inr (.inr ⟨t₁, .remove hentry hrem, rfl⟩)

/-- What holds of a string holds as long as entries are removed. -/
theorem resolve_unique (hle : t'.Le t) (hp : t.resolve cwd path = some p) (q : Path)
    (hq : t'.resolve cwd path = some q) : q = p :=
  Option.some.inj ((hle.resolve hq).symm.trans hp)

/-- **The loop stays inside**, if the calls it makes do. -/
theorem careful_entries (ns : List Name) (hp : t.resolve cwd path = some p)
    (hrec : ∀ t s q, t.resolve cwd s = some q → Inside q t (recurse t s).2) (hle : t'.Le t) :
    Inside p t' (removeEntries careful cwd recurse path (ns.map Subtype.val) t').2 := by
  induction ns generalizing t' with
  | nil => exact .refl p t'
  | cons n ns ih =>
    rw [map_cons]
    have hround : Inside p t' (removeEntry careful cwd recurse path n.val t').2 := by
      rcases careful_cases n (Tree.walk_of_resolve hp).1 (resolve_unique hle hp) with
        heq | ⟨hres, -, heq⟩ | ⟨t₁, hin, heq⟩
      · rw [heq]
        exact .refl p t'
      · have hsub := (hrec _ _ _ hres).up
        rw [heq]
        split
        · next hcall =>
          rwa [hcall] at hsub
        · next hcall =>
          rw [hcall] at hsub
          split_ifs <;> exact hsub
      · rw [heq]
        exact hin.up
    rcases hn : removeEntry careful cwd recurse path n.val t' with ⟨r, t₁⟩
    rw [hn] at hround
    by_cases hr : r = some 0
    · rw [hr] at hn
      rw [removeEntries_cons hn]
      exact hround.trans (ih (hround.le.trans hle))
    · rw [removeEntries_stop hn hr]
      exact hround

/-- **`careful` stays inside the directory, and if it returns 0 the directory is
gone.** -/
theorem careful_inside (fuel : ℕ) (hp : t.resolve cwd path = some p) :
    Inside p t (removeDirectoryWith careful cwd fuel t path).2 ∧
      ((removeDirectoryWith careful cwd fuel t path).1 = some 0 →
        (removeDirectoryWith careful cwd fuel t path).2.kind p = none) := by
  induction fuel generalizing t path p with
  | zero => exact ⟨.refl p t, nofun⟩
  | succ fuel ih =>
    rw [removeDirectoryWith]
    cases hopen : t.opendir cwd path with
    | none => exact ⟨.refl p t, nofun⟩
    | some names =>
      have hloop := careful_entries names hp (fun _ _ _ hs => (ih hs).1) (.refl t)
      simp only [removeEntries_dirents]
      generalize removeEntries careful cwd (removeDirectoryWith careful cwd fuel) path
        (names.map Subtype.val) t = res at hloop ⊢
      obtain ⟨r, t₁⟩ := res
      cases r with
      | none => exact ⟨hloop, nofun⟩
      | some =>
        simp only
        split_ifs
        · exact ⟨hloop, nofun⟩
        · cases hrm : t₁.rmdir cwd path with
          | none => exact ⟨hloop, nofun⟩
          | some =>
            unfold Tree.rmdir at hrm
            split at hrm
            · cases hrm
            · next n m hentry =>
              split_ifs at hrm with hk
              cases hrm
              -- the entry that is removed is the directory that was opened
              have hres := Tree.resolve_of_entry (Tree.walk_of_resolve hp).1 hentry hk.1
              obtain rfl := resolve_unique hloop.le hp _ hres
              exact ⟨hloop.trans (.erase (Tree.below_none_of_names hk.2)),
                fun _ => Function.update_self ..⟩

/-! ## It returns -/

/-- **`careful` returns**, if the bound on the depth of recursion exceeds the height
of what is below the directory. -/
theorem careful_returns (fuel : ℕ) (hp : t.resolve cwd path = some p) (hk : t.kind p ≠ none)
    (hfuel : t.height < fuel + p.length) :
    (removeDirectoryWith careful cwd fuel t path).1 ≠ none := by
  induction fuel generalizing t path p with
  | zero =>
    have := t.height_le p hk
    omega
  | succ fuel ih =>
    rw [removeDirectoryWith]
    cases hopen : t.opendir cwd path with
    | none => nofun
    | some names =>
      have hloop : ∀ (ns : List Name) t', t'.Le t → t'.height = t.height →
          (removeEntries careful cwd (removeDirectoryWith careful cwd fuel) path
            (ns.map Subtype.val) t').1 ≠ none := by
        intro ns
        induction ns with
        | nil => exact fun _ _ _ => nofun
        | cons n ns ihns =>
          intro t' hle hheight
          rw [map_cons]
          have hin := careful_entries [n] hp (fun _ _ _ hs => (careful_inside fuel hs).1) hle
          have hround : (removeEntry careful cwd (removeDirectoryWith careful cwd fuel) path
              n.val t').1 ≠ none := by
            rcases careful_cases n (Tree.walk_of_resolve hp).1 (resolve_unique hle hp) with
              heq | ⟨hres, hkn, heq⟩ | ⟨t₁, -, heq⟩
            · rw [heq]
              nofun
            · have hcall := ih hres (by rw [hkn]; nofun) (by rw [hheight, length_cons]; omega)
              rw [heq]
              split
              · next hnone => exact absurd (by rw [hnone]) hcall
              · split_ifs <;> nofun
            · rw [heq]
              nofun
          rcases hn : removeEntry careful cwd (removeDirectoryWith careful cwd fuel) path n.val t'
            with ⟨r, t₁⟩
          rw [hn] at hround
          by_cases hr : r = some 0
          · rw [hr] at hn
            rw [map_cons, removeEntries_cons hn] at hin
            rw [removeEntries_cons hn]
            exact ihns t₁ (Tree.Le.trans hin.le hle) (hin.height.trans hheight)
          · rw [removeEntries_stop hn hr]
            exact hround
      have hall := hloop names t (.refl t) rfl
      simp only [removeEntries_dirents]
      generalize removeEntries careful cwd (removeDirectoryWith careful cwd fuel) path
        (names.map Subtype.val) t = res at hall ⊢
      obtain ⟨r, t₁⟩ := res
      cases r with
      | none => exact absurd rfl hall
      | some =>
        simp only
        split_ifs
        · nofun
        · split <;> nofun

/-- **`remove_directory` is contained**: whatever the bound on the depth of recursion,
what is removed is the directory or below it, and if the call returns 0, then
everything there is removed. -/
def Contained (cwd : Path) (t : Tree) (target : Str) (p : Path) : Prop :=
  ∀ fuel, (∀ q, (removeDirectory cwd fuel t target).2.kind q ≠ t.kind q →
      p <:+ q ∧ (removeDirectory cwd fuel t target).2.kind q = none) ∧
    ((removeDirectory cwd fuel t target).1 = some 0 →
      ∀ q, p <:+ q → (removeDirectory cwd fuel t target).2.kind q = none)

/-- **The program is contained if it comes to plain entries only.** -/
theorem contained_of_plain {target : Str} (hp : t.resolve cwd target = some p)
    (hplain : ∀ t' d n, Comes cwd t target t' d n → Plain cwd t' d n) :
    Contained cwd t target p := by
  intro fuel
  rw [removeDirectory_eq hplain]
  obtain ⟨hin, hgone⟩ := careful_inside fuel hp
  refine ⟨fun q hq => ⟨hin.below q hq, (hin.le q).resolve_right hq⟩, fun h0 q hq => ?_⟩
  exact Tree.none_of_suffix (hgone h0) hq

/-- **`remove_directory` returns, and is contained, if it comes to no link to a
directory and to no entry whose path does not fit.** -/
theorem remove_directory_contained (target : Str) (hp : t.resolve cwd target = some p)
    (hdir : t.kind p = some .dir)
    (hplain : ∀ t' d n, Comes cwd t target t' d n → Plain cwd t' d n) :
    (∃ fuel r, (removeDirectory cwd fuel t target).1 = some r) ∧ Contained cwd t target p := by
  refine ⟨⟨t.height + 1, Option.ne_none_iff_exists'.mp ?_⟩, contained_of_plain hp hplain⟩
  rw [removeDirectory_eq hplain]
  exact careful_returns _ hp (by rw [hdir]; nofun) (by omega)

/-- A call that returns has returned 0 or -1. -/
theorem removeDirectory_status {fuel : ℕ} {r : Int}
    (h : (removeDirectoryWith M cwd fuel t path).1 = some r) : r = 0 ∨ r = -1 := by
  cases fuel with
  | zero => cases h
  | succ fuel =>
    rw [removeDirectoryWith] at h
    repeat' split at h
    all_goals cases h
    all_goals simp

/-- **`deletefile -r` is contained** if it comes to plain entries only: what it removes is its
target or below it, and if it exits with 0, then everything there is removed. -/
theorem main_contained (argv₀ target : Str) (hp : t.resolve cwd target = some p)
    (hdir : t.kind p = some .dir)
    (hplain : ∀ t' d n, Comes cwd t target t' d n → Plain cwd t' d n) (fuel : ℕ) :
    (∀ q, (main cwd fuel t [argv₀, ['-', 'r'], target]).2.1.kind q ≠ t.kind q → p <:+ q) ∧
      ((main cwd fuel t [argv₀, ['-', 'r'], target]).1 = some 0 →
        ∀ q, p <:+ q → (main cwd fuel t [argv₀, ['-', 'r'], target]).2.1.kind q = none) := by
  have hstat : t.stat cwd target = some .dir := by
    rw [Tree.stat, hp]
    exact hdir
  obtain ⟨hin, hgone⟩ := contained_of_plain hp hplain fuel
  have hret : ∀ r, (removeDirectory cwd fuel t target).1 = some r → r = 0 ∨ r = -1 :=
    fun _ => removeDirectory_status
  rw [main, if_pos rfl, mainTarget, hstat]
  generalize removeDirectory cwd fuel t target = out at hin hgone hret ⊢
  obtain ⟨r, t'⟩ := out
  cases r with
  | none => exact ⟨fun q hq => (hin q hq).1, nofun⟩
  | some r =>
    rcases hret r rfl with rfl | rfl
    · exact ⟨fun q hq => (hin q hq).1, fun _ => hgone rfl⟩
    · exact ⟨fun q hq => (hin q hq).1, nofun⟩

/-! ## Two trees -/

/-- The names `o`, `t`, `x` and `l`. -/
def nameO : Name := ⟨['o'], by decide⟩

def nameT : Name := ⟨['t'], by decide⟩

def nameX : Name := ⟨['x'], by decide⟩

def nameL : Name := ⟨['l'], by decide⟩

/-- A directory `/o`, and a directory `/t` with a file and a directory in which there is
another file. -/
def plainTree : Tree :=
  .ofList [([nameO], .dir), ([nameT], .dir), ([nameX, nameT], .file []), ([nameL, nameT], .dir),
    ([nameX, nameL, nameT], .file [])] (by decide)

/-- The tree after the first entry of `/t` has been removed. -/
def afterFile : Tree :=
  (removeEntry careful [] (fun t _ => (none, t)) ['/', 't'] ['x'] plainTree).2

/-- What `careful` comes to, from `/t` in `plainTree` and from `/t/l` in `afterFile`. -/
theorem comes_plainTree (h : Comes [] t path t' d n) :
    (t = plainTree → path = ['/', 't'] → (t' = plainTree ∧ d = ['/', 't'] ∧ n = nameX) ∨
      (t' = afterFile ∧ (d = ['/', 't'] ∧ n = nameL ∨ d = ['/', 't', '/', 'l'] ∧ n = nameX))) ∧
    (t = afterFile → path = ['/', 't', '/', 'l'] →
      t' = afterFile ∧ d = ['/', 't', '/', 'l'] ∧ n = nameX) := by
  have hopen : plainTree.opendir [] ['/', 't'] = some [nameX, nameL] := by decide +kernel
  have hopen' : afterFile.opendir [] ['/', 't', '/', 'l'] = some [nameX] := by decide +kernel
  induction h with
  | @entry _ _ _ _ ns _ _ _ ho hnames hloop =>
    constructor
    · rintro rfl rfl
      rw [hopen, Option.some.injEq] at ho
      rw [← ho] at hnames
      match ns with
      | [] => exact .inl ⟨(Prod.mk.inj hloop).2.symm, rfl, (cons.inj hnames).1.symm⟩
      | [m] =>
        obtain ⟨rfl, htail⟩ := cons.inj hnames
        -- the file is removed, whatever the calls for directories do
        exact .inr ⟨(Prod.mk.inj hloop).2.symm, .inl ⟨rfl, (cons.inj htail).1.symm⟩⟩
      | _ :: _ :: _ => simp at hnames
    · rintro rfl rfl
      rw [hopen', Option.some.injEq] at ho
      rw [← ho] at hnames
      match ns with
      | [] => exact ⟨(Prod.mk.inj hloop).2.symm, rfl, (cons.inj hnames).1.symm⟩
      | _ :: _ => simp at hnames
  | sub _ hdir _ ih ihsub =>
    constructor
    · intro ht hpath
      rcases ih.1 ht hpath with ⟨rfl, -, rfl⟩ | ⟨rfl, ⟨-, rfl⟩ | ⟨hne, -⟩⟩
      · rw [hpath] at hdir
        exact absurd hdir (by decide +kernel)
      · obtain ⟨rfl, rfl, rfl⟩ := ihsub.2 rfl (by rw [hpath]; rfl)
        exact .inr ⟨rfl, .inr ⟨rfl, rfl⟩⟩
      · exact absurd (hpath.symm.trans hne) (by decide)
    · intro ht hpath
      obtain ⟨rfl, -, rfl⟩ := ih.2 ht hpath
      rw [hpath] at hdir
      exact absurd hdir (by decide +kernel)

/-- A directory with a file and a directory in it is removed. -/
theorem remove_directory_contained_plainTree :
    (∃ fuel r, (removeDirectory [] fuel plainTree ['/', 't']).1 = some r) ∧
      Contained [] plainTree ['/', 't'] [nameT] := by
  refine remove_directory_contained ['/', 't'] (by decide +kernel) (by decide +kernel)
    fun t' d n h => ?_
  rcases (comes_plainTree h).1 rfl rfl with
    ⟨rfl, rfl, rfl⟩ | ⟨rfl, ⟨rfl, rfl⟩ | ⟨rfl, rfl⟩⟩
  · exact ⟨by decide, by decide +kernel⟩
  · exact ⟨by decide, by decide +kernel⟩
  · exact ⟨by decide, by decide +kernel⟩

/-- A link in the directory `/t` to the directory `/o`, in which there is a file. -/
def linkTree : Tree :=
  .ofList [([nameO], .dir), ([nameX, nameO], .file []), ([nameT], .dir),
    ([nameL, nameT], .link ['/', 'o'])] (by decide)

/-- A path of `/t`, the first 1023 bytes of which are one of `/o`. -/
def longPath : Str := List.replicate 1022 '/' ++ ['o', '/', '.', '.', '/', 't']

/-- **`remove_directory` removes what a link points to, and what a path that is cut off
names**: `/o/x` for the target `/t`, and `/o` for the other path of it. -/
theorem remove_directory_not_contained :
    (linkTree.resolve [] ['/', 't'] = some [nameT] ∧ linkTree.kind [nameT] = some .dir ∧
      ¬ Contained [] linkTree ['/', 't'] [nameT]) ∧
    (plainTree.resolve [] longPath = some [nameT] ∧ plainTree.kind [nameT] = some .dir ∧
      ¬ Contained [] plainTree longPath [nameT]) := by
  refine ⟨⟨by decide +kernel, by decide +kernel, fun h => ?_⟩,
    ⟨by decide +kernel, by decide +kernel, fun h => ?_⟩⟩
  · have hx := ((h 2).1 [nameX, nameO] (by decide +kernel)).1
    exact absurd hx (by decide +kernel)
  · have ho := ((h 2).1 [nameO] (by decide +kernel)).1
    exact absurd ho (by decide +kernel)

end Unix.DeleteFile
