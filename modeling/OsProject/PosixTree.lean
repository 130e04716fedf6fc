import Mathlib.Data.List.Basic
import Mathlib.Data.List.Dedup
import Mathlib.Data.List.MinMax
import Mathlib.Logic.Function.Basic

/-!
# A tree of files

Directories, regular files and symbolic links, and the calls of the C library
that look paths up and remove entries, as POSIX has them.

A `Path` is the place of an entry in the tree: the names from the entry up to
the root, innermost first, so that `q` lies in the directory `p` or below if `p`
is a suffix of `q`. It crosses no symbolic link. A path *string* is looked up by
`walk`, which follows links, at most `SYMLOOP_MAX` of them; the calls that act on
an entry (`lstat`, `unlink`, `rmdir`) do not follow the last one.

Removing entries is all that changes a tree here, and it makes fewer strings
resolve, but never to anything else (`Tree.Le.walk`).
-/

namespace Posix

open List Option

open Function (update update_of_ne update_self update_apply)

/-- A string of the C library; a character is a byte. -/
abbrev Str := List Char

/-- The names that an entry of a directory can have. -/
def IsName (s : Str) : Prop := s ≠ [] ∧ '/' ∉ s ∧ s ≠ ['.'] ∧ s ≠ ['.', '.']

instance (s : Str) : Decidable (IsName s) := inferInstanceAs (Decidable (_ ∧ _))

abbrev Name := { s : Str // IsName s }

/-- Where an entry is, innermost name first. -/
abbrev Path := List Name

inductive Kind where
  | file (data : List UInt8)
  | link (target : Str)
  | dir
  deriving DecidableEq

/-- A finite tree. `order p` gives the order in which `readdir` reads the directory
`p`; names that are not there are left out. -/
structure Tree where
  kind : Path → Option Kind
  order : Path → List Name
  height : ℕ
  root : kind [] = some .dir
  parent : ∀ n p, kind (n :: p) ≠ none → kind p = some .dir
  listed : ∀ n p, kind (n :: p) ≠ none → n ∈ order p
  nodup : ∀ p, (order p).Nodup
  height_le : ∀ p, kind p ≠ none → p.length ≤ height

namespace Tree

/-- The names in a directory. -/
def names (t : Tree) (p : Path) : List Name := (t.order p).filter fun n => (t.kind (n :: p)).isSome

theorem mem_names {t : Tree} {n : Name} {p : Path} : n ∈ t.names p ↔ t.kind (n :: p) ≠ none := by
  rw [names, mem_filter, isSome_iff_ne_none]
  exact ⟨fun h => h.2, fun h => ⟨t.listed n p h, h⟩⟩

/-- Remove an entry that has nothing below it. -/
def erase (t : Tree) (n : Name) (p : Path) (h : ∀ m, t.kind (m :: n :: p) = none) : Tree where
  kind := update t.kind (n :: p) none
  order := t.order
  height := t.height
  root := by
    rw [update_of_ne (cons_ne_nil n p).symm]
    exact t.root
  parent := fun m q hm => by
    rw [update_apply] at hm
    split_ifs at hm with hmq
    · exact absurd rfl hm
    · have hne : q ≠ n :: p := fun he => hm (he ▸ h m)
      rw [update_of_ne hne]
      exact t.parent m q hm
  listed := fun m q hm => by
    rw [update_apply] at hm
    split_ifs at hm with hmq
    · exact absurd rfl hm
    · exact t.listed m q hm
  nodup := t.nodup
  height_le := fun q hq => by
    rw [update_apply] at hq
    split_ifs at hq with hqp
    · exact absurd rfl hq
    · exact t.height_le q hq

/-- Only a directory has something below it. -/
theorem below_none {t : Tree} {p : Path} (h : t.kind p ≠ some .dir) (m : Name) :
    t.kind (m :: p) = none :=
  not_not.mp fun hm => h (t.parent m p hm)

theorem below_none_of_names {t : Tree} {p : Path} (h : t.names p = []) (m : Name) :
    t.kind (m :: p) = none :=
  not_not.mp fun hm => by
    have hmem := mem_names.mpr hm
    rw [h] at hmem
    exact absurd hmem not_mem_nil

/-- **When a directory is gone, so is everything below it.** -/
theorem none_of_suffix {t : Tree} {p q : Path} (hp : t.kind p = none) (hq : p <:+ q) :
    t.kind q = none := by
  obtain ⟨r, rfl⟩ := hq
  induction r with
  | nil => exact hp
  | cons n r ih =>
    have hne : t.kind (r ++ p) ≠ some .dir := by
      rw [ih]
      nofun
    exact below_none hne n

end Tree

/-! ## Strings -/

/-- The parts of a string between slashes. -/
def split : Str → List Str
  | [] => [[]]
  | c :: s =>
    if c = '/' then [] :: split s
    else
      match split s with
      | [] => [[c]]
      | x :: xs => (c :: x) :: xs

theorem split_ne_nil (s : Str) : split s ≠ [] := by
  cases s with
  | nil => nofun
  | cons =>
    rw [split]
    split_ifs
    · nofun
    · split <;> nofun

theorem split_append (s r : Str) : split (s ++ '/' :: r) = split s ++ split r := by
  induction s with
  | nil => rfl
  | cons c s ih =>
    rw [cons_append, split, split, ih]
    split_ifs
    · rfl
    · cases hs : split s with
      | nil => exact absurd hs (split_ne_nil s)
      | cons => rfl

theorem split_of_notMem {s : Str} (h : '/' ∉ s) : split s = [s] := by
  induction s with
  | nil => rfl
  | cons c s ih =>
    rw [mem_cons, not_or] at h
    rw [split, if_neg (Ne.symm h.1), ih h.2]

/-- One step of a lookup. -/
inductive Comp where
  | here
  | up
  | name (n : Name)
  deriving DecidableEq

def Comp.ofStr (s : Str) : Option Comp :=
  if s = ['.'] then some .here
  else if s = ['.', '.'] then some .up
  else if h : IsName s then some (.name ⟨s, h⟩)
  else none

/-- The steps of a path string; empty parts are skipped. -/
def comps (s : Str) : List Comp := (split s).filterMap Comp.ofStr

theorem comps_append (s : Str) (n : Name) : comps (s ++ '/' :: n.val) = comps s ++ [.name n] := by
  have hn : Comp.ofStr n.val = some (.name n) := by
    rw [Comp.ofStr, if_neg n.property.2.2.1, if_neg n.property.2.2.2, dif_pos n.property]
  rw [comps, split_append, filterMap_append, split_of_notMem n.property.2.1]
  simp [comps, hn]

def isAbsolute (s : Str) : Bool := s.head? = some '/'

def hasTrailingSlash (s : Str) : Bool := s.getLast? = some '/'

/-- Where the lookup of a string begins, seen from directory `d`. -/
def start (d : Path) (s : Str) : Path := if isAbsolute s = true then [] else d

/-! ## Lookup -/

abbrev SYMLOOP_MAX : ℕ := 40

namespace Tree

/-- Look up `cs` from `p`, where `follow` looks up what is left after a link. -/
def walkWith (t : Tree) (follow : Path → List Comp → Option Path) (p : Path) :
    List Comp → Option Path
  | [] => some p
  | c :: cs =>
    if t.kind p = some .dir then
      match c with
      | .here => t.walkWith follow p cs
      | .up => t.walkWith follow p.tail cs
      | .name n =>
        match t.kind (n :: p) with
        | none => none
        | some (.link target) => follow (start p target) (comps target ++ cs)
        | some _ => t.walkWith follow (n :: p) cs
    else none

theorem walkWith_cons (t : Tree) (follow : Path → List Comp → Option Path) (p : Path) (c : Comp)
    (cs : List Comp) : t.walkWith follow p (c :: cs) =
      if t.kind p = some .dir then
        match c with
        | .here => t.walkWith follow p cs
        | .up => t.walkWith follow p.tail cs
        | .name n =>
          match t.kind (n :: p) with
          | none => none
          | some (.link target) => follow (start p target) (comps target ++ cs)
          | some _ => t.walkWith follow (n :: p) cs
      else none := by
  cases c <;> rfl

/-- Look up `cs` from `p`, following at most `budget` links. -/
def walk (t : Tree) : ℕ → Path → List Comp → Option Path
  | 0 => t.walkWith fun _ _ => none
  | budget + 1 => t.walkWith (t.walk budget)

theorem walk_nil {t : Tree} (b : ℕ) (p : Path) : t.walk b p [] = some p := by
  cases b <;> rfl

/-- What a string names, with links followed. -/
def resolve (t : Tree) (cwd : Path) (s : Str) : Option Path :=
  if s = [] then none
  else
    match t.walk SYMLOOP_MAX (start cwd s) (comps s) with
    | none => none
    | some p => if hasTrailingSlash s = true ∧ t.kind p ≠ some .dir then none else some p

/-- The directory and the name of the entry that a string names, with the last
link not followed. -/
def entry (t : Tree) (cwd : Path) (s : Str) : Option (Name × Path) :=
  match (comps s).getLast? with
  | some (.name n) =>
    match t.walk SYMLOOP_MAX (start cwd s) (comps s).dropLast with
    | none => none
    | some p => if t.kind p = some .dir then some (n, p) else none
  | _ => none

def stat (t : Tree) (cwd : Path) (s : Str) : Option Kind := (t.resolve cwd s).bind t.kind

def lstat (t : Tree) (cwd : Path) (s : Str) : Option Kind :=
  if hasTrailingSlash s = true then t.stat cwd s
  else
    match t.entry cwd s with
    | some (n, p) => t.kind (n :: p)
    | none => t.stat cwd s

def opendir (t : Tree) (cwd : Path) (s : Str) : Option (List Name) :=
  match t.resolve cwd s with
  | none => none
  | some p => if t.kind p = some .dir then some (t.names p) else none

def rmdir (t : Tree) (cwd : Path) (s : Str) : Option Tree :=
  match t.entry cwd s with
  | none => none
  | some (n, p) =>
    if h : t.kind (n :: p) = some .dir ∧ t.names (n :: p) = [] then
      some (t.erase n p (below_none_of_names h.2))
    else none

def unlink (t : Tree) (cwd : Path) (s : Str) : Option Tree :=
  if hasTrailingSlash s = true then none
  else
    match t.entry cwd s with
    | none => none
    | some (n, p) =>
      if h : t.kind (n :: p) ≠ none ∧ t.kind (n :: p) ≠ some .dir then
        some (t.erase n p (below_none h.2))
      else none

def remove (t : Tree) (cwd : Path) (s : Str) : Option Tree :=
  match t.unlink cwd s with
  | some t' => some t'
  | none => t.rmdir cwd s

/-! ## Fewer entries -/

/-- `t'` is `t` with some entries removed. -/
def Le (t' t : Tree) : Prop := ∀ p, t'.kind p = none ∨ t'.kind p = t.kind p

variable {t t' t'' : Tree} {p q m : Path} {cs ds es : List Comp} {cwd : Path} {s : Str} {n : Name}
  {k : Kind} {follow : Path → List Comp → Option Path} {budget b : ℕ}

theorem Le.refl (t : Tree) : Le t t := fun _ => .inr rfl

theorem Le.trans (h : Le t'' t') (h' : Le t' t) : Le t'' t := fun p => by
  rcases h p with h0 | h1
  · exact .inl h0
  · rw [h1]
    exact h' p

theorem Le.kind (h : Le t' t) (hp : t'.kind p = some k) : t.kind p = some k := by
  rcases h p with h0 | h1
  · rw [hp] at h0
    cases h0
  · rw [← h1, hp]

theorem erase_le (h : ∀ m, t.kind (m :: n :: p) = none) : Le (t.erase n p h) t := fun q => by
  by_cases hq : q = n :: p
  · exact .inl (by rw [hq]; exact update_self ..)
  · exact .inr (update_of_ne hq ..)

/-- What differs after an entry is removed is the entry. -/
theorem erase_changes (h : ∀ m, t.kind (m :: n :: p) = none)
    (hq : (t.erase n p h).kind q ≠ t.kind q) : q = n :: p :=
  not_not.mp fun hne => hq (update_of_ne hne ..)

theorem Le.walkWith {R : Option Path → Option Path → Prop}
    {follow' : Path → List Comp → Option Path} (h : Le t' t) (hnone : ∀ x, R none x)
    (hf : ∀ p cs, R (follow' p (cs ++ ds)) (follow p (cs ++ es)))
    (hd : ∀ p, R (t'.walkWith follow' p ds) (t.walkWith follow p es)) :
    R (t'.walkWith follow' p (cs ++ ds)) (t.walkWith follow p (cs ++ es)) := by
  induction cs generalizing p with
  | nil => exact hd p
  | cons c cs ih =>
    rw [cons_append, cons_append, walkWith_cons, walkWith_cons]
    split_ifs with hdir hdir'
    · cases c with
      | here => exact ih
      | up => exact ih
      | name n =>
        cases hk : t'.kind (n :: p) with
        | none => simp only [hk, hnone]
        | some k =>
          simp only [hk, h.kind hk, ← append_assoc]
          cases k with
          | link => exact hf _ _
          | file => exact ih
          | dir => exact ih
    · exact absurd (h.kind hdir) hdir'
    · exact hnone _
    · exact hnone _

/-- **Two lookups side by side**, in a tree and in one with more entries, that differ in their last
steps: what relates the results of the last steps relates theirs. -/
theorem Le.walk_append (h : Le t' t) (R : Option Path → Option Path → Prop) (ds es : List Comp)
    (hnone : ∀ x, R none x) (hd : ∀ b p, R (t'.walk b p ds) (t.walk b p es)) :
    R (t'.walk budget p (cs ++ ds)) (t.walk budget p (cs ++ es)) := by
  induction budget generalizing p cs with
  | zero => exact h.walkWith hnone (fun _ _ => hnone _) (hd 0)
  | succ budget ih => exact h.walkWith hnone (fun _ _ => ih) (hd (budget + 1))

/-- **With fewer entries a string resolves to what it did, or not at all.** -/
theorem Le.walk (h : Le t' t) (hw : t'.walk budget p cs = some q) :
    t.walk budget p cs = some q := by
  have hnil : ∀ b p, t'.walk b p [] = some q → t.walk b p [] = some q := fun b p hb => by
    rwa [walk_nil] at hb ⊢
  rw [← append_nil cs] at hw ⊢
  exact h.walk_append (fun x y => x = some q → y = some q) [] [] nofun hnil hw

theorem Le.resolve (h : Le t' t) (hr : t'.resolve cwd s = some p) : t.resolve cwd s = some p := by
  unfold Tree.resolve at hr ⊢
  split_ifs at hr ⊢
  split at hr
  · cases hr
  · next q hq =>
    split_ifs at hr with hd
    cases hr
    rw [h.walk hq]
    refine if_neg fun hd' => hd ⟨hd'.1, fun hk => hd'.2 (h.kind hk)⟩

/-! ## The last step of a lookup -/

/-- **A lookup goes through its parts.** -/
theorem walk_append (hw : t.walk budget p (cs ++ ds) = some q) :
    ∃ m b, t.walk budget p cs = some m ∧ t.walk b m ds = some q := by
  have hrel := (Le.refl t).walk_append
    (fun x y => x = some q → ∃ m b, y = some m ∧ t.walk b m ds = some q) ds [] nofun
    (fun b p h => ⟨p, b, walk_nil b p, h⟩) hw
  rwa [append_nil] at hrel

/-- One more step into a directory needs no link. -/
theorem walk_append_name (hm : t.kind m = some .dir) (hn : t.kind (n :: m) = some .dir)
    (hw : t.walk budget p cs = some m) : t.walk budget p (cs ++ [.name n]) = some (n :: m) := by
  refine (Le.refl t).walk_append (fun x y => x = some m → y = some (n :: m)) [] _ nofun ?_
    (by rwa [append_nil])
  intro b p h
  cases (walk_nil b p).symm.trans h
  cases b <;> simp [walk, walkWith, hm, hn]

/-- A last step that succeeds is from a directory to an entry of it. -/
theorem walk_name_kind (hw : t.walk b p [.name n] = some q) :
    t.kind p = some .dir ∧ t.kind (n :: p) ≠ none := by
  cases b <;>
  · simp only [walk, walkWith] at hw
    split_ifs at hw with hdir
    refine ⟨hdir, fun hn => ?_⟩
    rw [hn] at hw
    cases hw

/-- The last step, if it does not end at a link. -/
theorem walk_name (hw : t.walk b p [.name n] = some q)
    (hk : ∀ target, t.kind (n :: p) ≠ some (.link target)) : q = n :: p := by
  cases b <;>
  · simp only [walk, walkWith] at hw
    split_ifs at hw
    split at hw
    · cases hw
    · next target hl => exact absurd hl (hk target)
    · exact (some.inj hw).symm

variable {r : Str}

theorem start_append (hs : s ≠ []) : start cwd (s ++ r) = start cwd s := by
  unfold start isAbsolute
  rw [head?_append_of_ne_nil _ hs]

theorem hasTrailingSlash_append : hasTrailingSlash (s ++ '/' :: n.val) = false := by
  obtain ⟨hne, hslash, -⟩ := n.property
  unfold hasTrailingSlash
  rw [decide_eq_false_iff_not, getLast?_append_of_ne_nil _ (cons_ne_nil _ _),
    getLast?_cons_of_ne_nil hne]
  exact fun h => hslash (mem_of_getLast? h)

/-- The entry that `s/n` names is in the directory that `s` names. -/
theorem entry_append (hs : s ≠ []) : t.entry cwd (s ++ '/' :: n.val) =
    (t.walk SYMLOOP_MAX (start cwd s) (comps s)).bind fun p =>
      if t.kind p = some .dir then some (n, p) else none := by
  unfold entry
  rw [comps_append, getLast?_concat, dropLast_concat, start_append hs]
  cases t.walk SYMLOOP_MAX (start cwd s) (comps s) <;> rfl

theorem walk_of_resolve (h : t.resolve cwd s = some p) :
    s ≠ [] ∧ t.walk SYMLOOP_MAX (start cwd s) (comps s) = some p := by
  unfold resolve at h
  split_ifs at h with hs
  refine ⟨hs, ?_⟩
  split at h
  · cases h
  · next q hq =>
    split_ifs at h
    rwa [← some.inj h]

/-- **A string that names a directory resolves to it** – if the entry it names is
not a link to one. -/
theorem resolve_of_entry (hs : s ≠ []) (h : t.entry cwd s = some (n, p))
    (hk : t.kind (n :: p) = some .dir) : t.resolve cwd s = some (n :: p) := by
  unfold entry at h
  split at h
  · next n' hlast =>
    split at h
    · cases h
    · next p' hp' =>
      split_ifs at h with hdir
      simp only [some.injEq, Prod.mk.injEq] at h
      obtain ⟨rfl, rfl⟩ := h
      have hcomps : comps s = (comps s).dropLast ++ [.name n'] :=
        (dropLast_append_getLast? _ hlast).symm
      have hw := walk_append_name hdir hk hp'
      rw [← hcomps] at hw
      unfold resolve
      rw [if_neg hs, hw]
      exact if_neg fun hd => hd.2 hk
  · cases h

/-- What `stat` of `s/n` finds is the entry `n` of the directory that `s` names, or
the entry is a link. -/
theorem stat_append (hs : s ≠ []) (h : t.stat cwd (s ++ '/' :: n.val) = some k) :
    ∃ p, t.resolve cwd s = some p ∧ t.entry cwd (s ++ '/' :: n.val) = some (n, p) ∧
      ((t.kind (n :: p) = some k ∧ t.resolve cwd (s ++ '/' :: n.val) = some (n :: p)) ∨
        ∃ target, t.kind (n :: p) = some (.link target)) := by
  obtain ⟨_, hq, hkq⟩ := bind_eq_some_iff.mp h
  have hwalk := (walk_of_resolve hq).2
  rw [comps_append, start_append hs] at hwalk
  obtain ⟨p, _, hp, hlast⟩ := walk_append hwalk
  obtain ⟨hdir, _⟩ := walk_name_kind hlast
  refine ⟨p, ?_, ?_, ?_⟩
  · unfold resolve
    rw [if_neg hs, hp]
    exact if_neg fun hd => hd.2 hdir
  · rw [entry_append hs, hp]
    exact if_pos hdir
  · by_cases hlink : ∃ target, t.kind (n :: p) = some (.link target)
    · exact .inr hlink
    · have hqp := walk_name hlast (fun target ht => hlink ⟨target, ht⟩)
      rw [hqp] at hkq hq
      exact .inl ⟨hkq, hq⟩

theorem lstat_append (h : t.entry cwd (s ++ '/' :: n.val) = some (n, p)) :
    t.lstat cwd (s ++ '/' :: n.val) = t.kind (n :: p) := by
  unfold lstat
  rw [hasTrailingSlash_append, if_neg (by decide), h]

/-! ## Trees from a list of entries -/

/-- The entry of a list at a path. -/
def find (l : List (Path × Kind)) (p : Path) : Option Kind :=
  if p = [] then some .dir else (l.find? fun e => e.1 = p).map Prod.snd

theorem mem_of_find {l : List (Path × Kind)} (h : find l (n :: p) ≠ none) :
    ∃ k, (n :: p, k) ∈ l := by
  unfold find at h
  rw [if_neg (cons_ne_nil n p)] at h
  obtain ⟨_, hk⟩ := ne_none_iff_exists'.mp h
  obtain ⟨e, he, -⟩ := map_eq_some_iff.mp hk
  have hep : e.1 = n :: p := by simpa using find?_some he
  exact ⟨e.2, hep ▸ mem_of_find?_eq_some he⟩

/-- The tree with these entries, in this order, and a root directory. -/
def ofList (l : List (Path × Kind))
    (h : ∀ e ∈ l, find l e.1.tail = some .dir) : Tree where
  kind := find l
  order := fun p => (l.filterMap fun e => if e.1.tail = p then e.1.head? else none).dedup
  height := (l.map fun e => e.1.length).foldr max 0
  root := if_pos rfl
  parent := fun n p hk => by
    obtain ⟨k, hmem⟩ := mem_of_find hk
    exact h _ hmem
  listed := fun n p hk => by
    obtain ⟨k, hmem⟩ := mem_of_find hk
    rw [mem_dedup, mem_filterMap]
    exact ⟨_, hmem, if_pos rfl⟩
  nodup := fun p => nodup_dedup _
  height_le := fun p hk => by
    cases p with
    | nil => exact Nat.zero_le _
    | cons n p =>
      obtain ⟨k, hmem⟩ := mem_of_find hk
      exact le_max_of_le' 0 (mem_map.mpr ⟨_, hmem, rfl⟩) le_rfl

end Tree

end Posix
