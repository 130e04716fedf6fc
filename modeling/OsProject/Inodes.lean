import OsProject.PhysMem
import Mathlib.Algebra.Group.Pi.Basic
import Mathlib.Data.List.FinRange

/-!
# Inodes and path names

The table of inodes in memory and the lookup of path names (`fs.c`), and the
count of file-system calls in progress (`log.c`).

An inode is its type, its device numbers, its number of links (a `short`, so it
may be negative) and its contents. How the contents are spread over the blocks of the disk, the
buffer cache and what the log
writes are below this model. A file is less than 4 GB, and offsets in it are
`uint`, so their sums are taken modulo 2^32. Locks are left out: a call runs by
itself, and `iunlockput` is `iput`.

A string is the list of its bytes before the terminating NUL.
-/

namespace Xv6

open List

open Function (update update_of_ne update_self)

/-- Entries of the inode table (`param.h`). -/
abbrev NINODE : ℕ := 50

instance : NeZero NINODE := ⟨by decide⟩

/-- Device of the root directory (`param.h`). -/
abbrev ROOTDEV : ℕ := 1

/-- Inode of the root directory (`fs.h`). -/
abbrev ROOTINO : ℕ := 1

/-- Length of a name in a directory (`fs.h`). -/
abbrev DIRSIZ : ℕ := 14

/-- Blocks a file-system call may write (`param.h`). -/
abbrev MAXOPBLOCKS : ℕ := 10

/-- Blocks of the log (`param.h`). -/
abbrev LOGSIZE : ℕ := MAXOPBLOCKS * 3

/-- The type of a directory (`stat.h`). -/
abbrev T_DIR : ℕ := 1

/-- The path separator. -/
abbrev slash : UInt8 := 47

/-- An inode as it is on disk, with the contents of its blocks. -/
structure DInode where
  type : ℕ
  major : ℤ
  minor : ℤ
  nlink : ℤ
  data : List UInt8

/-- `struct inode`. -/
structure Inode where
  dev : ℕ
  inum : ℕ
  ref : ℕ
  valid : Bool
  /-- The copy of the inode on disk. -/
  copy : DInode

/-- `struct log`; `n` is `log.lh.n`. -/
structure Log where
  outstanding : ℕ
  committing : Bool
  n : ℕ

/-- The file system: `itable`, the inodes on disk by device and number, and
the log. -/
structure Fs where
  inode : Fin NINODE → Inode
  disk : ℕ → ℕ → DInode
  log : Log

/-- `strncmp`. -/
def strncmp : ℕ → List UInt8 → List UInt8 → ℤ
  | 0, _, _ => 0
  | n + 1, p, q =>
    if p.headD 0 ≠ 0 ∧ p.headD 0 = q.headD 0 then strncmp n p.tail q.tail
    else (p.headD 0).toNat - (q.headD 0).toNat

/-- `namecmp`. -/
def namecmp (s t : List UInt8) : ℤ := strncmp DIRSIZ s t

/-- `skipelem`: the next element of a path and what follows it. -/
def skipelem (path : List UInt8) : Option (List UInt8 × List UInt8) :=
  let path := path.dropWhile (· = slash)
  if path = [] then none
  else some ((path.takeWhile (· ≠ slash)).take DIRSIZ,
    (path.dropWhile (· ≠ slash)).dropWhile (· = slash))

/-- `readi` into kernel memory: the bytes that are read. -/
def readi (data : List UInt8) (off n : ℕ) : List UInt8 :=
  if data.length < off ∨ (off + n) % 2 ^ 32 < off then [] else (data.drop off).take n

/-- The loop of `dirlookup` over the entries of a directory, with `n` entries
left: the inode number of the first entry in use with this name. -/
def dirScan (data name : List UInt8) : ℕ → ℕ → Except Fault (Option ℕ)
  | _, 0 => .ok none
  | off, n + 1 =>
    let de := readi data off 16
    if de.length ≠ 16 then .error .dirlookupRead
    else
      let inum := (de.getD 0 0).toNat + 256 * (de.getD 1 0).toNat
      if inum = 0 then dirScan data name (off + 16) n
      else if namecmp name (de.drop 2) = 0 then .ok (some inum)
      else dirScan data name (off + 16) n

/-- What is left of a path after its first element is shorter. -/
theorem length_of_skipelem {path name rest : List UInt8} (h : skipelem path = some (name, rest)) :
    rest.length < path.length := by
  have hdrop : (path.dropWhile (· = slash)).length ≤ path.length :=
    (dropWhile_suffix _).length_le
  unfold skipelem at h
  by_cases hnil : path.dropWhile (· = slash) = []
  · rw [if_pos hnil] at h
    cases h
  rw [if_neg hnil] at h
  cases h
  -- the element has a first character, which is no slash
  have hhead := head_dropWhile_not (fun c => decide (c = slash)) hnil
  cases hp : path.dropWhile (· = slash) with
  | nil => exact absurd hp hnil
  | cons c t =>
    simp only [hp, head_cons, decide_eq_false_iff_not] at hhead
    rw [hp, length_cons] at hdrop
    rw [dropWhile_cons_of_pos (by simpa using hhead)]
    have h1 : (t.dropWhile (· ≠ slash)).length ≤ t.length := (dropWhile_suffix _).length_le
    have h2 : ((t.dropWhile (· ≠ slash)).dropWhile (· = slash)).length ≤
      (t.dropWhile (· ≠ slash)).length := (dropWhile_suffix _).length_le
    omega

namespace Fs

/-- Write an entry of the inode table. -/
def setInode (fs : Fs) (i : Fin NINODE) (ip : Inode) : Fs :=
  { fs with inode := update fs.inode i ip }

/-- `iget`. -/
def iget (fs : Fs) (dev inum : ℕ) : Except Fault (Fs × Fin NINODE) :=
  match (List.finRange NINODE).find? (fun i =>
      decide (0 < (fs.inode i).ref ∧ (fs.inode i).dev = dev ∧ (fs.inode i).inum = inum)) with
  | some i => .ok (fs.setInode i { fs.inode i with ref := (fs.inode i).ref + 1 }, i)
  | none =>
    match (List.finRange NINODE).find? (fun i => decide ((fs.inode i).ref = 0)) with
    | none => .error .iget
    | some i =>
      .ok (fs.setInode i { fs.inode i with dev := dev, inum := inum, ref := 1, valid := false }, i)

/-- `idup`. -/
def idup (fs : Fs) (i : Fin NINODE) : Fs :=
  fs.setInode i { fs.inode i with ref := (fs.inode i).ref + 1 }

/-- `ilock`. -/
def ilock (fs : Fs) (i : Fin NINODE) : Except Fault Fs :=
  let ip := fs.inode i
  if ip.ref < 1 then .error .ilock
  else if ip.valid then .ok fs
  else if (fs.disk ip.dev ip.inum).type = 0 then .error .ilockNoType
  else .ok (fs.setInode i { ip with valid := true, copy := fs.disk ip.dev ip.inum })

/-- `iput`. The last reference to an inode without links frees it on disk. -/
def iput (fs : Fs) (i : Fin NINODE) : Fs :=
  let ip := fs.inode i
  if ip.ref = 1 ∧ ip.valid = true ∧ ip.copy.nlink = 0 then
    { fs with
      inode := update fs.inode i
        { ip with ref := 0, valid := false, copy := { ip.copy with type := 0, data := [] } }
      disk := update fs.disk ip.dev
        (update (fs.disk ip.dev) ip.inum { ip.copy with type := 0, data := [] }) }
  else fs.setInode i { ip with ref := ip.ref - 1 }

/-- `dirlookup`. -/
def dirlookup (fs : Fs) (i : Fin NINODE) (name : List UInt8) :
    Except Fault (Fs × Option (Fin NINODE)) :=
  let dp := (fs.inode i).copy
  if dp.type ≠ T_DIR then .error .dirlookupNotDir
  else do
    let r ← dirScan dp.data name 0 ((dp.data.length + 15) / 16)
    match r with
    | none => .ok (fs, none)
    | some inum => do
      let (fs, next) ← fs.iget (fs.inode i).dev inum
      .ok (fs, some next)

/-- The loop of `namex`. Every round takes an element off the path, so there
are at most as many rounds as characters. -/
def namexLoop (nameiparent : Bool) :
    ℕ → Fs → Fin NINODE → List UInt8 → List UInt8 →
      Except Fault (Fs × Option (Fin NINODE × List UInt8))
  | 0, _, _, _, _ => .error .rounds
  | rounds + 1, fs, i, path, name =>
    match skipelem path with
    | none => if nameiparent then .ok (fs.iput i, none) else .ok (fs, some (i, name))
    | some (name, path) => do
      let fs ← fs.ilock i
      if (fs.inode i).copy.type ≠ T_DIR then .ok (fs.iput i, none)
      else if nameiparent = true ∧ path = [] then .ok (fs, some (i, name))
      else do
        let (fs, next) ← fs.dirlookup i name
        match next with
        | none => .ok (fs.iput i, none)
        | some next => namexLoop nameiparent rounds (fs.iput i) next path name

/-- `namex`, where `cwd` is the current directory of the caller. The result is
the inode with the last element of the path. -/
def namex (fs : Fs) (cwd : Option (Fin NINODE)) (path : List UInt8) (nameiparent : Bool) :
    Except Fault (Fs × Option (Fin NINODE × List UInt8)) :=
  if path.head? = some slash then do
    let (fs, i) ← fs.iget ROOTDEV ROOTINO
    namexLoop nameiparent (path.length + 1) fs i path []
  else
    match cwd with
    | none => .error .nullPointer
    | some i => namexLoop nameiparent (path.length + 1) (fs.idup i) i path []

/-- `namei`. -/
def namei (fs : Fs) (cwd : Option (Fin NINODE)) (path : List UInt8) :
    Except Fault (Fs × Option (Fin NINODE)) := do
  let (fs, r) ← fs.namex cwd path false
  .ok (fs, r.map Prod.fst)

/-- `begin_op`. It blocks while the log is being committed or is too full. -/
def beginOp (fs : Fs) : Except Fault Fs :=
  if fs.log.committing then .error .blocked
  else if LOGSIZE < fs.log.n + (fs.log.outstanding + 1) * MAXOPBLOCKS then .error .blocked
  else .ok { fs with log := { fs.log with outstanding := fs.log.outstanding + 1 } }

/-- `end_op`. The last operation commits, which empties the log. -/
def endOp (fs : Fs) : Except Fault Fs :=
  if fs.log.committing then .error .logCommitting
  else if fs.log.outstanding - 1 = 0 then
    .ok { fs with log := { fs.log with outstanding := fs.log.outstanding - 1, n := 0 } }
  else .ok { fs with log := { fs.log with outstanding := fs.log.outstanding - 1 } }

/-- The file-system calls of `exec` and `spawn`, without what is done with the
file. -/
def fileCalls (fs : Fs) (cwd : Option (Fin NINODE)) (path : List UInt8) : Except Fault Fs := do
  let fs ← fs.beginOp
  let (fs, r) ← fs.namei cwd path
  match r with
  | none => fs.endOp
  | some ip => do
    let fs ← fs.ilock ip
    (fs.iput ip).endOp

/-! ## What a path names -/

/-- The inode a path leads to, by device and number, from the inode `d`, `n`:
none if an element is not in its directory, or is looked up in something that
is not a directory. -/
def resolveFrom (disk : ℕ → ℕ → DInode) : ℕ → ℕ → ℕ → List UInt8 → Option (ℕ × ℕ)
  | 0, _, _, _ => none
  | rounds + 1, d, n, path =>
    match skipelem path with
    | none => some (d, n)
    | some (name, path) =>
      let dp := disk d n
      if dp.type ≠ T_DIR then none
      else
        match dirScan dp.data name 0 ((dp.data.length + 15) / 16) with
        | .ok (some inum) => resolveFrom disk rounds d inum path
        | _ => none

/-- The inode a path names for a process with this current directory. -/
def resolve (fs : Fs) (cwd : Option (Fin NINODE)) (path : List UInt8) : Option (ℕ × ℕ) :=
  if path.head? = some slash then resolveFrom fs.disk (path.length + 1) ROOTDEV ROOTINO path
  else cwd.bind (fun i =>
    resolveFrom fs.disk (path.length + 1) (fs.inode i).dev (fs.inode i).inum path)

/-- What holds of the inode table between calls: an inode is in it once, and a
copy in use is the inode on disk. -/
structure Ok (fs : Fs) : Prop where
  unique : ∀ i j, 0 < (fs.inode i).ref → 0 < (fs.inode j).ref →
    (fs.inode i).dev = (fs.inode j).dev → (fs.inode i).inum = (fs.inode j).inum → i = j
  coherent : ∀ i, 0 < (fs.inode i).ref → (fs.inode i).valid = true →
    (fs.inode i).copy = fs.disk (fs.inode i).dev (fs.inode i).inum ∧ (fs.inode i).copy.type ≠ 0

/-- Nothing has changed on disk, except that inodes may have been freed. -/
def Keeps (fs fs' : Fs) : Prop :=
  ∀ d n, fs'.disk d n = fs.disk d n ∨ (fs'.disk d n).type = 0

/-- The reference counts. -/
def refs (fs : Fs) : Fin NINODE → ℕ := fun i => (fs.inode i).ref

variable {fs fs' fs₁ fs₂ : Fs} {i j : Fin NINODE} {dev inum : ℕ} {path name : List UInt8}
  {r : Fin NINODE → ℕ} {ip : Inode}

theorem Keeps.refl : Keeps fs fs := fun _ _ => .inl rfl

theorem Keeps.trans (h : Keeps fs fs₁) (h' : Keeps fs₁ fs₂) : Keeps fs fs₂ := by
  intro d n
  rcases h' d n with h2 | h2
  · rw [h2]
    exact h d n
  · exact .inr h2

theorem Keeps.of_disk (h : fs'.disk = fs.disk) : Keeps fs fs' := fun d n => .inl (by rw [h])

/-- The entries are for the same inodes as before. -/
theorem update_names {T : Fin NINODE → Inode} (hdev : ip.dev = (T i).dev)
    (hinum : ip.inum = (T i).inum) (j : Fin NINODE) :
    (update T i ip j).dev = (T j).dev ∧ (update T i ip j).inum = (T j).inum :=
  ⟨update_keeps Inode.dev hdev j, update_keeps Inode.inum hinum j⟩

/-- An entry with a new reference count, or with the inode read from disk. -/
theorem Ok.setInode (h : Ok fs) (hi : 0 < (fs.inode i).ref) (hdev : ip.dev = (fs.inode i).dev)
    (hinum : ip.inum = (fs.inode i).inum)
    (hcopy : ip.valid = true → ip.copy = fs.disk ip.dev ip.inum ∧ ip.copy.type ≠ 0) :
    Ok (fs.setInode i ip) := by
  have hdi : ∀ j, ((fs.setInode i ip).inode j).dev = (fs.inode j).dev ∧
      ((fs.setInode i ip).inode j).inum = (fs.inode j).inum := update_names hdev hinum
  have hpos : ∀ j, 0 < ((fs.setInode i ip).inode j).ref → 0 < (fs.inode j).ref := by
    intro j hr
    by_cases hj : j = i
    · rw [hj]
      exact hi
    · simpa [Fs.setInode, hj] using hr
  refine ⟨fun j k hj hk hd hn => ?_, fun j hj hv => ?_⟩
  · rw [(hdi j).1, (hdi k).1] at hd
    rw [(hdi j).2, (hdi k).2] at hn
    exact h.unique j k (hpos j hj) (hpos k hk) hd hn
  · by_cases hji : j = i
    · subst hji
      simp only [Fs.setInode, update_self] at hv ⊢
      exact hcopy hv
    · simp only [Fs.setInode, update_of_ne hji] at hv ⊢
      exact h.coherent j (hpos j hj) hv

theorem refs_setInode (h : ip.ref = (fs.inode i).ref + 1) :
    (fs.setInode i ip).refs = fs.refs + Pi.single i 1 := by
  funext j
  by_cases hj : j = i
  · subst hj
    simp [refs, Fs.setInode, h]
  · simp [refs, Fs.setInode, hj]

theorem iget_error {e : Fault} (h : fs.iget dev inum = .error e) : e = .iget := by
  unfold iget at h
  split at h
  · cases h
  · split at h
    · exact (Except.error.inj h).symm
    · cases h

/-- **`iget` takes a reference to the entry of the inode.** -/
theorem Ok.iget (h : Ok fs) (hg : fs.iget dev inum = .ok (fs', i)) :
    Ok fs' ∧ fs'.refs = fs.refs + Pi.single i 1 ∧ fs'.disk = fs.disk ∧ fs'.log = fs.log ∧
      (fs'.inode i).dev = dev ∧ (fs'.inode i).inum = inum := by
  unfold Fs.iget at hg
  cases hfind : (finRange NINODE).find? (fun i =>
      decide (0 < (fs.inode i).ref ∧ (fs.inode i).dev = dev ∧ (fs.inode i).inum = inum)) with
  | some k =>
    rw [hfind] at hg
    obtain ⟨rfl, rfl⟩ := Prod.mk.inj (Except.ok.inj hg)
    have hk := find?_some hfind
    simp only [decide_eq_true_eq] at hk
    obtain ⟨hr, hd, hn⟩ := hk
    exact ⟨h.setInode hr rfl rfl (h.coherent k hr), refs_setInode rfl, rfl, rfl,
      by simp [Fs.setInode, hd], by simp [Fs.setInode, hn]⟩
  | none =>
    rw [hfind] at hg
    have hnone : ∀ j, ¬ (0 < (fs.inode j).ref ∧ (fs.inode j).dev = dev ∧
        (fs.inode j).inum = inum) := fun j hj =>
      absurd (find?_eq_none.mp hfind j (mem_finRange j)) (by simpa using hj)
    cases hempty : (finRange NINODE).find? (fun i => decide ((fs.inode i).ref = 0)) with
    | none =>
      rw [hempty] at hg
      cases hg
    | some k =>
      rw [hempty] at hg
      obtain ⟨rfl, rfl⟩ := Prod.mk.inj (Except.ok.inj hg)
      have hk := find?_some hempty
      simp only [decide_eq_true_eq] at hk
      refine ⟨⟨fun a b ha hb hd hn => ?_, fun a ha hv => ?_⟩, refs_setInode (by simp [hk]),
        rfl, rfl, by simp [Fs.setInode], by simp [Fs.setInode]⟩
      · -- the new entry is for an inode that had none
        by_cases hak : a = k <;> by_cases hbk : b = k
        · rw [hak, hbk]
        · subst hak
          simp only [Fs.setInode, update_self, update_of_ne hbk] at hb hd hn
          exact absurd ⟨hb, hd.symm, hn.symm⟩ (hnone b)
        · subst hbk
          simp only [Fs.setInode, update_self, update_of_ne hak] at ha hd hn
          exact absurd ⟨ha, hd, hn⟩ (hnone a)
        · simp only [Fs.setInode, update_of_ne hak, update_of_ne hbk] at ha hb hd hn
          exact h.unique a b ha hb hd hn
      · by_cases hak : a = k
        · subst hak
          simp [Fs.setInode] at hv
        · simp only [Fs.setInode, update_of_ne hak] at ha hv ⊢
          exact h.coherent a ha hv

theorem Ok.idup (h : Ok fs) (hi : 0 < (fs.inode i).ref) :
    Ok (fs.idup i) ∧ (fs.idup i).refs = fs.refs + Pi.single i 1 :=
  ⟨h.setInode hi rfl rfl (h.coherent i hi), refs_setInode rfl⟩

/-- **`ilock` reads the inode from disk.** -/
theorem Ok.ilock (h : Ok fs) (hl : fs.ilock i = .ok fs') :
    Ok fs' ∧ fs'.refs = fs.refs ∧ fs'.disk = fs.disk ∧ fs'.log = fs.log ∧
      (∀ j, (fs'.inode j).dev = (fs.inode j).dev ∧ (fs'.inode j).inum = (fs.inode j).inum) ∧
      (fs'.inode i).copy = fs.disk (fs.inode i).dev (fs.inode i).inum ∧
      (fs'.inode i).copy.type ≠ 0 := by
  unfold Fs.ilock at hl
  by_cases hr : (fs.inode i).ref < 1
  · rw [if_pos hr] at hl
    cases hl
  have hpos : 0 < (fs.inode i).ref := by omega
  rw [if_neg hr] at hl
  by_cases hv : (fs.inode i).valid = true
  · rw [if_pos hv] at hl
    cases hl
    obtain ⟨hc, ht⟩ := h.coherent i hpos hv
    exact ⟨h, rfl, rfl, rfl, fun _ => ⟨rfl, rfl⟩, hc, ht⟩
  · rw [if_neg hv] at hl
    by_cases ht : (fs.disk (fs.inode i).dev (fs.inode i).inum).type = 0
    · rw [if_pos ht] at hl
      cases hl
    rw [if_neg ht] at hl
    cases hl
    refine ⟨h.setInode hpos rfl rfl (fun _ => ⟨rfl, ht⟩),
      funext (update_keeps Inode.ref (by rfl)), rfl, rfl, update_names (by rfl) (by rfl), ?_, ?_⟩
    · simp [Fs.setInode]
    · simpa [Fs.setInode] using ht

/-- Writing an inode to disk leaves the others. -/
theorem disk_update_of_ne {disk : ℕ → ℕ → DInode} {d n d' n' : ℕ} (v : DInode)
    (h : d' = d → n' ≠ n) : update disk d (update (disk d) n v) d' n' = disk d' n' := by
  by_cases hd : d' = d
  · subst hd
    rw [update_self, update_of_ne (h rfl)]
  · rw [update_of_ne hd]

/-- **`iput` gives a reference back.** -/
theorem Ok.iput (h : Ok fs) (hr : fs.refs = r + Pi.single i 1) :
    Ok (fs.iput i) ∧ (fs.iput i).refs = r ∧ Keeps fs (fs.iput i) ∧ (fs.iput i).log = fs.log ∧
      (∀ j, ((fs.iput i).inode j).dev = (fs.inode j).dev ∧
        ((fs.iput i).inode j).inum = (fs.inode j).inum) := by
  have hri : (fs.inode i).ref = r i + 1 := by
    have hc := congrFun hr i
    rwa [Pi.add_apply, Pi.single_eq_same] at hc
  have hpos : 0 < (fs.inode i).ref := by omega
  have hrefs : ∀ {ip : Inode}, ip.ref = r i → ∀ j, (update fs.inode i ip j).ref = r j := by
    intro ip hip j
    by_cases hj : j = i
    · rw [hj, update_self, hip]
    · have hc := congrFun hr j
      rw [Pi.add_apply, Pi.single_eq_of_ne hj, add_zero] at hc
      rwa [update_of_ne hj]
  unfold Fs.iput
  by_cases hfree : (fs.inode i).ref = 1 ∧ (fs.inode i).valid = true ∧ (fs.inode i).copy.nlink = 0
  · rw [if_pos hfree]
    refine ⟨⟨fun a b ha hb hd hn => ?_, fun a ha hv => ?_⟩, funext (hrefs (by dsimp only; omega)),
      fun d n => ?_, rfl, update_names (by rfl) (by rfl)⟩
    · by_cases hai : a = i
      · subst hai
        simp at ha
      by_cases hbi : b = i
      · subst hbi
        simp at hb
      simp only [update_of_ne hai, update_of_ne hbi] at ha hb hd hn
      exact h.unique a b ha hb hd hn
    · by_cases hai : a = i
      · subst hai
        simp at ha
      simp only [update_of_ne hai] at ha hv ⊢
      obtain ⟨hc, ht⟩ := h.coherent a ha hv
      -- the inode that was freed is not the one of entry `a`
      exact ⟨hc.trans (disk_update_of_ne _ (fun hd => hai ∘ h.unique a i ha hpos hd)).symm, ht⟩
    · by_cases hd : d = (fs.inode i).dev
      · subst hd
        by_cases hn : n = (fs.inode i).inum
        · subst hn
          exact .inr (by simp)
        · exact .inl (by simp [hn])
      · exact .inl (by simp [hd])
  · rw [if_neg hfree]
    exact ⟨h.setInode hpos rfl rfl (h.coherent i hpos), funext (hrefs (by dsimp only; omega)),
      Keeps.refl, rfl, update_names (by rfl) (by rfl)⟩

/-- What `dirlookup` finds is what is on disk. -/
theorem dirlookup_cases {next : Option (Fin NINODE)}
    (hd : fs.dirlookup i name = .ok (fs', next)) :
    ∃ q, dirScan (fs.inode i).copy.data name 0 (((fs.inode i).copy.data.length + 15) / 16) = .ok q ∧
      (q = none → fs' = fs ∧ next = none) ∧
      (∀ inum, q = some inum → ∃ k, next = some k ∧
        fs.iget (fs.inode i).dev inum = .ok (fs', k)) := by
  unfold Fs.dirlookup at hd
  by_cases ht : (fs.inode i).copy.type ≠ T_DIR
  · rw [if_pos ht] at hd
    cases hd
  rw [if_neg ht] at hd
  obtain ⟨q, hq, hd⟩ := exists_of_bind_eq_ok hd
  refine ⟨q, hq, ?_, ?_⟩
  · rintro rfl
    cases hd
    exact ⟨rfl, rfl⟩
  · rintro inum rfl
    obtain ⟨⟨_, k⟩, hk, hd⟩ := exists_of_bind_eq_ok hd
    cases hd
    exact ⟨k, rfl, hk⟩

/-- **A lookup that returns has followed the directories on disk.** It holds a
reference to the inode it is at; an inode that is freed on the way cannot be
met again. -/
theorem Ok.namexLoop {rounds : ℕ} {res : Option (Fin NINODE × List UInt8)} (h : Ok fs₁)
    (hr : fs₁.refs = fs.refs + Pi.single i 1) (hk : Keeps fs fs₁)
    (hrun : namexLoop false rounds fs₁ i path name = .ok (fs', res)) :
    Ok fs' ∧ Keeps fs fs' ∧ fs'.log = fs₁.log ∧ (res = none → fs'.refs = fs.refs ∧
        resolveFrom fs.disk rounds (fs₁.inode i).dev (fs₁.inode i).inum path = none) ∧
      (∀ k nm, res = some (k, nm) → fs'.refs = fs.refs + Pi.single k 1 ∧
        resolveFrom fs.disk rounds (fs₁.inode i).dev (fs₁.inode i).inum path =
          some ((fs'.inode k).dev, (fs'.inode k).inum)) := by
  induction rounds generalizing fs₁ i path name with
  | zero => cases hrun
  | succ rounds ih =>
    unfold Fs.namexLoop at hrun
    unfold resolveFrom
    cases hskip : skipelem path with
    | none =>
      rw [hskip] at hrun
      cases hrun
      refine ⟨h, hk, rfl, (fun hc => by cases hc), fun k nm hkn => ?_⟩
      cases hkn
      exact ⟨hr, rfl⟩
    | some e =>
      obtain ⟨nm, _⟩ := e
      rw [hskip] at hrun
      obtain ⟨fs₂, hl, hrun⟩ := exists_of_bind_eq_ok hrun
      obtain ⟨h₂, hr₂, hdisk₂, hlog₂, hid₂, hcopy, htype⟩ := h.ilock hl
      -- the inode could be locked, so it has not been freed
      have hdisk : fs₁.disk (fs₁.inode i).dev (fs₁.inode i).inum =
          fs.disk (fs₁.inode i).dev (fs₁.inode i).inum :=
        (hk _ _).resolve_right (fun hc => htype (by rw [hcopy, hc]))
      rw [hdisk] at hcopy
      have hk₂ : Keeps fs fs₂ := hk.trans (Keeps.of_disk hdisk₂)
      rw [hr] at hr₂
      obtain ⟨hok, hrefs, hkeep, hlog, -⟩ := h₂.iput hr₂
      simp only [← hcopy]
      by_cases ht : (fs₂.inode i).copy.type ≠ T_DIR
      · rw [if_pos ht] at hrun ⊢
        cases hrun
        exact ⟨hok, hk₂.trans hkeep, hlog.trans hlog₂, fun _ => ⟨hrefs, rfl⟩,
          fun _ _ hc => by cases hc⟩
      · rw [if_neg ht, if_neg (fun hc => Bool.false_ne_true hc.1)] at hrun
        rw [if_neg ht]
        obtain ⟨⟨_, _⟩, hdl, hrun⟩ := exists_of_bind_eq_ok hrun
        obtain ⟨q, hq, hnone, hsome⟩ := dirlookup_cases hdl
        rw [hq]
        cases q with
        | none =>
          obtain ⟨rfl, rfl⟩ := hnone rfl
          cases hrun
          exact ⟨hok, hk₂.trans hkeep, hlog.trans hlog₂, fun _ => ⟨hrefs, rfl⟩,
            fun _ _ hc => by cases hc⟩
        | some inum =>
          obtain ⟨k, rfl, hget⟩ := hsome inum rfl
          obtain ⟨h₃, hr₃, hdisk₃, hlog₃, hdev₃, hinum₃⟩ := h₂.iget hget
          rw [hr₂, add_right_comm] at hr₃
          obtain ⟨h₄, hr₄, hkeep₄, hlog₄, hid₄⟩ := h₃.iput hr₃
          have hrec := ih h₄ hr₄ ((hk₂.trans (Keeps.of_disk hdisk₃)).trans hkeep₄) hrun
          rwa [(hid₄ k).1, (hid₄ k).2, hdev₃, hinum₃, (hid₂ i).1, hlog₄, hlog₃, hlog₂] at hrec

/-- **`namei` finds what the path names.** -/
theorem Ok.namei {cwd : Option (Fin NINODE)} {res : Option (Fin NINODE)} (h : Ok fs)
    (hcwd : ∀ i, cwd = some i → 0 < (fs.inode i).ref) (hrun : fs.namei cwd path = .ok (fs', res)) :
    Ok fs' ∧ Keeps fs fs' ∧ fs'.log = fs.log ∧
      (res = none → fs'.refs = fs.refs ∧ fs.resolve cwd path = none) ∧
      (∀ k, res = some k → fs'.refs = fs.refs + Pi.single k 1 ∧
        fs.resolve cwd path = some ((fs'.inode k).dev, (fs'.inode k).inum)) := by
  obtain ⟨⟨fs'', r⟩, hx, hrun⟩ := exists_of_bind_eq_ok hrun
  obtain ⟨rfl, rfl⟩ := Prod.mk.inj (Except.ok.inj hrun)
  -- the start of the lookup
  obtain ⟨fs₁, i, h₁, hr₁, hk₁, hlog₁, hres, hloop⟩ : ∃ fs₁ i, Ok fs₁ ∧
      fs₁.refs = fs.refs + Pi.single i 1 ∧ Keeps fs fs₁ ∧ fs₁.log = fs.log ∧
      fs.resolve cwd path = resolveFrom fs.disk (path.length + 1) (fs₁.inode i).dev
        (fs₁.inode i).inum path ∧
      Fs.namexLoop false (path.length + 1) fs₁ i path [] = .ok (fs'', r) := by
    unfold Fs.namex at hx
    unfold resolve
    split_ifs at hx with hp
    · obtain ⟨⟨fs₁, i⟩, hget, hx⟩ := exists_of_bind_eq_ok hx
      obtain ⟨h₁, hr₁, hdisk₁, hlog₁, hdev₁, hinum₁⟩ := h.iget hget
      refine ⟨fs₁, i, h₁, hr₁, Keeps.of_disk hdisk₁, hlog₁, ?_, hx⟩
      rw [if_pos hp, hdev₁, hinum₁]
    · cases cwd with
      | none => cases hx
      | some i =>
        obtain ⟨h₁, hr₁⟩ := h.idup (hcwd i rfl)
        refine ⟨fs.idup i, i, h₁, hr₁, Keeps.refl, rfl, ?_, hx⟩
        rw [if_neg hp]
        simp [Fs.idup, Fs.setInode]
  obtain ⟨hok, hkeep, hlog, hnone, hsome⟩ := h₁.namexLoop hr₁ hk₁ hloop
  rw [hres]
  refine ⟨hok, hkeep, hlog.trans hlog₁, fun hn => hnone (Option.map_eq_none_iff.mp hn),
    fun k hkr => ?_⟩
  obtain ⟨⟨k', nm⟩, hr', rfl⟩ := Option.map_eq_some_iff.mp hkr
  exact hsome k' nm hr'

/-! ## A file-system call -/

theorem beginOp_eq (h : fs.beginOp = .ok fs') : fs'.inode = fs.inode ∧ fs'.disk = fs.disk ∧
      fs'.log.outstanding = fs.log.outstanding + 1 := by
  unfold beginOp at h
  by_cases hc : fs.log.committing = true
  · rw [if_pos hc] at h
    cases h
  rw [if_neg hc] at h
  by_cases hn : LOGSIZE < fs.log.n + (fs.log.outstanding + 1) * MAXOPBLOCKS
  · rw [if_pos hn] at h
    cases h
  rw [if_neg hn] at h
  cases h
  exact ⟨rfl, rfl, rfl⟩

theorem endOp_eq (h : fs.endOp = .ok fs') : fs'.inode = fs.inode ∧ fs'.disk = fs.disk ∧
      fs'.log.outstanding = fs.log.outstanding - 1 := by
  unfold endOp at h
  by_cases hc : fs.log.committing = true
  · rw [if_pos hc] at h
    cases h
  rw [if_neg hc] at h
  by_cases hz : fs.log.outstanding - 1 = 0
  · rw [if_pos hz] at h
    cases h
    exact ⟨rfl, rfl, rfl⟩
  · rw [if_neg hz] at h
    cases h
    exact ⟨rfl, rfl, rfl⟩

/-- The same inodes with another log. -/
theorem Ok.of_eq (h : Ok fs) (hi : fs'.inode = fs.inode) (hd : fs'.disk = fs.disk) : Ok fs' := by
  constructor
  · rw [hi]
    exact h.unique
  · rw [hi, hd]
    exact h.coherent

theorem resolve_of_eq (hi : fs'.inode = fs.inode) (hd : fs'.disk = fs.disk)
    (cwd : Option (Fin NINODE)) (path : List UInt8) :
    fs'.resolve cwd path = fs.resolve cwd path := by
  unfold resolve
  rw [hi, hd]

theorem refs_of_eq (hi : fs'.inode = fs.inode) : fs'.refs = fs.refs := by
  unfold refs
  rw [hi]

variable {cwd : Option (Fin NINODE)} {fs₃ : Fs}

/-- **A path that is not found.** -/
theorem Ok.lookup_none (h : Ok fs) (hcwd : ∀ i, cwd = some i → 0 < (fs.inode i).ref)
    (hb : fs.beginOp = .ok fs₁) (hn : fs₁.namei cwd path = .ok (fs₂, none))
    (he : fs₂.endOp = .ok fs₃) : Ok fs₃ ∧ fs.resolve cwd path = none ∧ fs₃.refs = fs.refs ∧
      fs₃.log.outstanding = fs.log.outstanding := by
  obtain ⟨hi₁, hd₁, ho₁⟩ := beginOp_eq hb
  obtain ⟨hok, -, hlog, hnone, -⟩ := (h.of_eq hi₁ hd₁).namei (by rw [hi₁]; exact hcwd) hn
  obtain ⟨hrefs, hres⟩ := hnone rfl
  obtain ⟨hi, hd, ho⟩ := endOp_eq he
  refine ⟨hok.of_eq hi hd, (resolve_of_eq hi₁ hd₁ _ _).symm.trans hres, ?_, ?_⟩
  · rw [refs_of_eq hi, hrefs, refs_of_eq hi₁]
  · rw [ho, hlog, ho₁, Nat.add_sub_cancel]

/-- **A path that is found**: the inode that is locked has the contents that the
path names. -/
theorem Ok.lookup_some (h : Ok fs) (hcwd : ∀ i, cwd = some i → 0 < (fs.inode i).ref)
    (hb : fs.beginOp = .ok fs₁) (hn : fs₁.namei cwd path = .ok (fs₂, some i))
    (hl : fs₂.ilock i = .ok fs₃) :
    ∃ d n, fs.resolve cwd path = some (d, n) ∧ (fs₃.inode i).copy = fs.disk d n ∧ Ok fs₃ ∧
      fs₃.refs = fs.refs + Pi.single i 1 ∧ fs₃.log.outstanding = fs.log.outstanding + 1 := by
  obtain ⟨hi₁, hd₁, ho₁⟩ := beginOp_eq hb
  obtain ⟨hok, hkeep, hlog, -, hsome⟩ := (h.of_eq hi₁ hd₁).namei (by rw [hi₁]; exact hcwd) hn
  obtain ⟨hrefs, hres⟩ := hsome i rfl
  obtain ⟨hok₃, hrefs₃, -, hlog₃, -, hcopy, htype⟩ := hok.ilock hl
  refine ⟨_, _, (resolve_of_eq hi₁ hd₁ _ _).symm.trans hres, ?_, hok₃,
    by rw [hrefs₃, hrefs, refs_of_eq hi₁], by rw [hlog₃, hlog, ho₁]⟩
  -- it could be locked, so it has not been freed on the way
  rw [hcopy, ← hd₁]
  exact (hkeep _ _).resolve_right fun hc => htype (by rw [hcopy, hc])

/-- **Putting the inode and ending the call** undoes both. -/
theorem Ok.close (h : Ok fs) (hr : fs.refs = r + Pi.single i 1) (he : (fs.iput i).endOp = .ok fs') :
    Ok fs' ∧ fs'.refs = r ∧ fs'.log.outstanding = fs.log.outstanding - 1 := by
  obtain ⟨hok, hrefs, -, hlog, -⟩ := h.iput hr
  obtain ⟨hi, hd, ho⟩ := endOp_eq he
  exact ⟨hok.of_eq hi hd, by rw [refs_of_eq hi, hrefs], by rw [ho, hlog]⟩

end Fs

end Xv6
