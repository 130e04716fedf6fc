import OsProject.LoaderSafety
import OsProject.Sysfile

/-!
# References to inodes, counted

A call that takes references to inodes gives them back, except for those that it leaves in
a file or in the current directory of a process. `Holds` counts: the references in the
table are those that there were, and those on the list that the call keeps. For each
operation of the inode layer, and for the functions of `sysfile.c` that work on it, there
is one lemma that says how the list changes: `iget` and `idup` put an inode on it, `iput` takes
one off, and a function that looks up a path ends with at most one more than it had. None of
them panics in the code of the virtual memory, since they do not use it.

What others hold is in `r`, which no lemma changes. So a reference that a call has found in
the table, say that of the current directory, is still there when it is needed.
-/

namespace Xv6

open List

open Function (update update_of_ne update_self)

/-- A panic of the virtual memory. -/
abbrev MemFault (e : Fault) : Prop := e.ofMemory = true

namespace Fs

variable {fs fs' : Fs} {i j : Fin NINODE} {r : Fin NINODE → ℕ} {l l' : List (Fin NINODE)}
  {dev inum : ℕ} {path name : List UInt8} {cwd : Option (Fin NINODE)} {room : Room}

/-- **The call holds the references in `l`**, beside those in `r` that others hold. -/
structure Holds (r : Fin NINODE → ℕ) (l : List (Fin NINODE)) (fs : Fs) : Prop where
  ok : fs.Ok
  ref : ∀ j, (fs.inode j).ref = r j + l.count j

namespace Holds

section

variable (h : Holds r l fs)
include h

/-- The order of the list does not matter. -/
theorem perm (hp : l.Perm l') : Holds r l' fs :=
  ⟨h.ok, fun j => by rw [h.ref j, hp.count_eq]⟩

/-- The same references, counted in another way. -/
theorem recount {r' : Fin NINODE → ℕ} (hr : ∀ j, r j + l.count j = r' j + l'.count j) :
    Holds r' l' fs :=
  ⟨h.ok, fun j => by rw [h.ref j, hr j]⟩

/-- What the call holds is in use. -/
theorem pos (hi : i ∈ l) : 0 < (fs.inode i).ref := by
  rw [h.ref i]
  exact Nat.lt_of_lt_of_le (count_pos_iff.mpr hi) (Nat.le_add_left ..)

theorem refs_eq : fs.refs = r + fun j => l.count j := funext h.ref

omit h in
/-- The references with another one to `i`. -/
theorem count_cons_eq (r : Fin NINODE → ℕ) (l : List (Fin NINODE)) (i : Fin NINODE) :
    (r + fun j => (i :: l).count j) = (r + fun j => l.count j) + Pi.single i 1 := by
  funext j
  rw [Pi.add_apply, Pi.add_apply, Pi.add_apply, count_cons, add_assoc]
  by_cases hij : j = i
  · rw [hij, Pi.single_eq_same, if_pos (beq_self_eq_true _)]
  · rw [Pi.single_eq_of_ne hij, if_neg (by simpa using Ne.symm hij)]

/-- The table with another reference. -/
theorem cons (hok : fs'.Ok) (hr : fs'.refs = fs.refs + Pi.single i 1) : Holds r (i :: l) fs' := by
  have he : fs'.refs = r + fun j => (i :: l).count j := by
    rw [count_cons_eq, ← h.refs_eq, hr]
  exact ⟨hok, congrFun he⟩

theorem of_eq (hi : fs'.inode = fs.inode) (hd : fs'.disk = fs.disk) : Holds r l fs' :=
  ⟨h.ok.of_eq hi hd, fun j => by rw [hi, h.ref j]⟩

theorem beginOp : Ensures MemFault (Holds r l) fs.beginOp := by
  cases hb : fs.beginOp with
  | error =>
    rw [beginOp_error hb]
    nofun
  | ok =>
    obtain ⟨hi, hd, -⟩ := beginOp_eq hb
    exact h.of_eq hi hd

theorem endOp : Ensures MemFault (Holds r l) fs.endOp := by
  cases hb : fs.endOp with
  | error =>
    rw [endOp_error hb]
    nofun
  | ok =>
    obtain ⟨hi, hd, -⟩ := endOp_eq hb
    exact h.of_eq hi hd

/-- `iget`, which panics if there is no entry left. -/
theorem iget (dev inum : ℕ) :
    Ensures MemFault (fun x => Holds r (x.2 :: l) x.1) (fs.iget dev inum) := by
  cases hg : fs.iget dev inum with
  | error =>
    rw [iget_error hg]
    nofun
  | ok =>
    obtain ⟨hok, hr, -⟩ := h.ok.iget hg
    exact h.cons hok hr

theorem idup (hi : 0 < (fs.inode i).ref) : Holds r (i :: l) (fs.idup i) := by
  obtain ⟨hok, hr⟩ := h.ok.idup hi
  exact h.cons hok hr

theorem ilock (i : Fin NINODE) : Ensures MemFault (Holds r l) (fs.ilock i) := by
  cases hl : fs.ilock i with
  | error =>
    rcases ilock_error hl with rfl | rfl <;> nofun
  | ok =>
    obtain ⟨hok, hr, -⟩ := h.ok.ilock hl
    exact ⟨hok, fun j => (congrFun hr j).trans (h.ref j)⟩

end

/-- **`iput` takes a reference off the list**, also where it frees the inode. -/
theorem iput (h : Holds r (i :: l) fs) : Holds r l (fs.iput i) := by
  obtain ⟨hok, hrefs, -⟩ := h.ok.iput (h.refs_eq.trans (count_cons_eq r l i))
  exact ⟨hok, congrFun hrefs⟩

variable {f : DInode → DInode} {data : List UInt8} {off n : ℕ} {e : Fault} {dp : Fin NINODE}

/-- Writing an inode that somebody holds. -/
theorem modify_of_pos (h : Holds r l fs) (hpos : 0 < (fs.inode i).ref)
    (hf : ∀ d, (f d).type = d.type) : Holds r l (fs.modify i f) := by
  have hinode : ∀ j, ((fs.modify i f).inode j).ref = (fs.inode j).ref ∧
      ((fs.modify i f).inode j).dev = (fs.inode j).dev ∧
      ((fs.modify i f).inode j).inum = (fs.inode j).inum ∧
      ((fs.modify i f).inode j).valid = (fs.inode j).valid := fun j =>
    ⟨update_keeps Inode.ref (by rfl) j, update_keeps Inode.dev (by rfl) j,
      update_keeps Inode.inum (by rfl) j, update_keeps Inode.valid (by rfl) j⟩
  refine ⟨⟨fun a b ha hb hd hn => ?_, fun a ha hv => ?_⟩, fun j => by rw [(hinode j).1, h.ref j]⟩
  · rw [(hinode a).1] at ha
    rw [(hinode b).1] at hb
    rw [(hinode a).2.1, (hinode b).2.1] at hd
    rw [(hinode a).2.2.1, (hinode b).2.2.1] at hn
    exact h.ok.unique a b ha hb hd hn
  · rw [(hinode a).1] at ha
    rw [(hinode a).2.2.2] at hv
    obtain ⟨hcopy, htype⟩ := h.ok.coherent a ha hv
    by_cases hai : a = i
    · subst hai
      simp only [Fs.modify, update_self, true_and]
      rw [hf]
      exact htype
    · -- another inode
      simp only [Fs.modify, update_of_ne hai]
      rw [disk_update_of_ne _ (fun hd => hai ∘ h.ok.unique a i ha hpos hd)]
      exact ⟨hcopy, htype⟩

/-- Writing an inode that the call holds. -/
theorem modify (h : Holds r l fs) (hi : i ∈ l) (hf : ∀ d, (f d).type = d.type) :
    Holds r l (fs.modify i f) :=
  h.modify_of_pos (h.pos hi) hf

/-! ## Looking up paths -/

/-- `dirlookup` returns a reference to what it has found. -/
theorem dirlookup (h : Holds r l fs) (i : Fin NINODE) (name : List UInt8) :
    Ensures MemFault (fun x => Holds r (x.2.toList ++ l) x.1) (fs.dirlookup i name) := by
  unfold Fs.dirlookup
  dsimp only
  split
  · nofun
  · cases hs : dirScan (fs.inode i).copy.data name 0
      (((fs.inode i).copy.data.length + 15) / 16) with
    | error =>
      rw [dirScan_error hs]
      nofun
    | ok o =>
      rw [ok_bind]
      cases o with
      | none => exact h
      | some inum => exact (h.iget _ inum).bind (fun x hx => hx)

/-- **The loop of `namex`** has one reference, to the directory it has come to. It is exchanged for
the next one in every round, and given back when the path is at an end that it does not like. -/
theorem namexLoop (nameiparent : Bool) (rounds : ℕ) (h : Holds r (i :: l) fs)
    (path name : List UInt8) :
    Ensures MemFault (fun x => Holds r ((x.2.map Prod.fst).toList ++ l) x.1)
      (Fs.namexLoop nameiparent rounds fs i path name) := by
  induction rounds generalizing fs i path name with
  | zero => nofun
  | succ rounds ih =>
    rw [Fs.namexLoop]
    split
    · split
      · exact h.iput
      · exact h
    · next name' path' _ =>
      refine (h.ilock i).bind fun fs' h' => ?_
      split
      · exact h'.iput
      · split
        · exact h'
        · refine (h'.dirlookup i name').bind ?_
          rintro ⟨_, _ | _⟩ hx
          · exact hx.iput
          · exact ih (hx.perm (List.Perm.swap ..)).iput path' name'

/-- `namex` starts at the root, or at the current directory, which a process holds. -/
theorem namex (h : Holds r l fs) (hcwd : ∀ i, cwd = some i → 0 < r i) (path : List UInt8)
    (nameiparent : Bool) : Ensures MemFault (fun x => Holds r ((x.2.map Prod.fst).toList ++ l) x.1)
      (fs.namex cwd path nameiparent) := by
  unfold Fs.namex
  split
  · exact (h.iget ROOTDEV ROOTINO).bind fun x hx => hx.namexLoop ..
  · cases cwd with
    | none => nofun
    | some i =>
      have hpos : 0 < (fs.inode i).ref := by
        rw [h.ref i]
        exact Nat.add_pos_left (hcwd i rfl) _
      exact (h.idup hpos).namexLoop ..

theorem namei (h : Holds r l fs) (hcwd : ∀ i, cwd = some i → 0 < r i) (path : List UInt8) :
    Ensures MemFault (fun x => Holds r (x.2.toList ++ l) x.1) (fs.namei cwd path) :=
  (h.namex hcwd path false).bind (fun _ hx => hx)

/-! ## Directories -/

theorem writei (h : Holds r l fs) (hi : i ∈ l) (room : Room) (src : List UInt8) (off n : ℕ) :
    Holds r l (fs.writei room i src off n).1 := by
  unfold Fs.writei
  dsimp only
  split
  · exact h
  · split
    · exact h
    · exact h.modify (f := fun d => { d with data := _ }) hi fun _ => rfl

theorem emptyScan_error (h : emptyScan data off n = .error e) : e = .dirlinkRead := by
  induction n generalizing off with
  | zero => cases h
  | succ n ih =>
    rw [emptyScan] at h
    split_ifs at h
    · exact (Except.error.inj h).symm
    · exact ih h

theorem dirlink (h : Holds r l fs) (hi : i ∈ l) (room : Room) (name : List UInt8) (inum : ℕ) :
    Ensures MemFault (fun x => Holds r l x.1) (fs.dirlink room i name inum) := by
  refine (h.dirlookup i name).bind ?_
  rintro ⟨fs₁, _ | _⟩ hx
  · dsimp only
    cases hs : emptyScan (fs₁.inode i).copy.data 0
        (((fs₁.inode i).copy.data.length + 15) / 16) with
    | error =>
      obtain rfl := emptyScan_error hs
      exact (by decide : ¬ MemFault .dirlinkRead)
    | ok off => exact Holds.writei hx hi room (Blocks.State.dirent name inum) off 16
  · exact hx.iput

/-- `ialloc` takes a reference to an inode that was free on disk. -/
theorem ialloc (h : Holds r l fs) (ninodes dev type : ℕ) :
    Ensures MemFault (fun x => Holds r (x.2.toList ++ l) x.1) (fs.ialloc ninodes dev type) := by
  unfold Fs.ialloc
  split
  · exact h
  · next n hfind =>
    have hfree : (fs.disk dev n).type = 0 := by
      have hn := find?_some hfind
      exact (of_decide_eq_true hn).2
    have hok : Fs.Ok { fs with
        disk := update fs.disk dev (update (fs.disk dev) n (.fresh type)) } := by
      refine ⟨h.ok.unique, fun j hj hv => ?_⟩
      obtain ⟨hcopy, htype⟩ := h.ok.coherent j hj hv
      refine ⟨hcopy.trans (disk_update_of_ne _ fun hd hn => ?_).symm, htype⟩
      rw [hcopy, hd, hn] at htype
      exact htype hfree
    exact (Holds.iget ⟨hok, h.ref⟩ dev n).bind fun _ hx => hx

theorem linkDots (h : Holds r l fs) (hi : i ∈ l) (room : Room) (dp : Fin NINODE) :
    Ensures MemFault (fun x => Holds r l x.1) (fs.linkDots room i dp) := by
  refine (h.dirlink hi room dot _).bind fun x hx => ?_
  dsimp only
  split
  · exact hx
  · exact (hx.dirlink hi room dotdot _).bind fun _ hy => hy

theorem createFail (h : Holds r (i :: dp :: l) fs) : Holds r l (fs.createFail i dp) :=
  (h.modify (f := fun d => { d with nlink := 0 }) mem_cons_self (fun _ => rfl)).iput.iput

/-- The directory goes, the new inode stays, or both are given back. -/
theorem createLink (h : Holds r (i :: dp :: l) fs) (room : Room) (name : List UInt8) (type : ℕ) :
    Ensures MemFault (fun x => Holds r (x.2.toList ++ l) x.1)
      (fs.createLink room i dp name type) := by
  have hdp : dp ∈ i :: dp :: l := mem_cons_of_mem _ mem_cons_self
  refine (h.dirlink hdp room name _).bind fun x hx => ?_
  dsimp only
  split
  · exact hx.createFail
  · split
    · exact ((hx.modify (f := fun d => { d with nlink := toShort (d.nlink + 1) }) hdp
        (fun _ => rfl)).perm (List.Perm.swap ..)).iput
    · exact (hx.perm (List.Perm.swap ..)).iput

theorem createNew (h : Holds r (dp :: l) fs) (ninodes : ℕ) (room : Room) (name : List UInt8)
    (type : ℕ) (major minor : ℤ) : Ensures MemFault (fun x => Holds r (x.2.toList ++ l) x.1)
      (fs.createNew ninodes room dp name type major minor) := by
  refine (h.ialloc ninodes _ type).bind ?_
  rintro ⟨_, _ | ip⟩ hx
  · exact hx.iput
  · refine (hx.ilock ip).bind fun fs₁ h₁ => ?_
    have h₂ := h₁.modify (f := fun d => { d with major := major, minor := minor, nlink := 1 })
      mem_cons_self (fun _ => rfl)
    have hend : ∀ y : Fs × Bool, Holds r (ip :: dp :: l) y.1 →
        Ensures MemFault (fun x => Holds r (x.2.toList ++ l) x.1)
          (if y.2 = true then y.1.createLink room ip dp name type
          else .ok (y.1.createFail ip dp, none)) := by
      intro y hy
      split
      · exact hy.createLink room name type
      · exact hy.createFail
    split
    · exact (h₂.linkDots mem_cons_self room dp).bind hend
    · exact hend (_, true) h₂

/-- **`create`** returns a new inode or one that was there, with one reference. -/
theorem create (h : Holds r l fs) (hcwd : ∀ i, cwd = some i → 0 < r i) (ninodes : ℕ) (room : Room)
    (path : List UInt8) (type : ℕ) (major minor : ℤ) :
    Ensures MemFault (fun x => Holds r (x.2.toList ++ l) x.1)
      (fs.create ninodes room cwd path type major minor) := by
  refine (h.namex hcwd path true).bind ?_
  rintro ⟨_, _ | ⟨dp, name⟩⟩ hx
  · exact hx
  · refine (hx.ilock dp).bind fun fs₁ h₁ => (h₁.dirlookup dp name).bind ?_
    rintro ⟨_, _ | ip⟩ hz
    · exact hz.createNew ninodes room name type major minor
    · refine ((hz.perm (List.Perm.swap ..)).iput.ilock ip).bind fun fs₃ h₃ => ?_
      split
      · exact h₃
      · exact h₃.iput

/-- The lookup of `open`. -/
theorem openNamei (h : Holds r l fs) (hcwd : ∀ i, cwd = some i → 0 < r i) (path : List UInt8)
    (omode : BitVec 32) : Ensures MemFault (fun x => Holds r (x.2.toList ++ l) x.1)
      (Sysfile.State.openNamei fs cwd path omode) := by
  refine (h.namei hcwd path).bind ?_
  rintro ⟨_, _ | ip⟩ h₁
  · exact h₁
  · refine (h₁.ilock ip).bind fun fs₂ h₂ => ?_
    split
    · exact h₂.iput
    · exact h₂

theorem emptyFrom_error (h : emptyFrom data off n = .error e) : e = .isdirempty := by
  induction n generalizing off with
  | zero => cases h
  | succ n ih =>
    rw [emptyFrom] at h
    split_ifs at h
    · exact (Except.error.inj h).symm
    · exact ih h

/-- The end of `unlink`. -/
theorem unlinkEntry {ip : Fin NINODE} (h : Holds r (ip :: dp :: l) fs) (room : Room) (off : ℕ) :
    Ensures MemFault (fun x => Holds r l x.1) (Sysfile.State.unlinkEntry fs room dp ip off) := by
  have hdp : dp ∈ ip :: dp :: l := mem_cons_of_mem _ mem_cons_self
  refine (h.ilock ip).bind fun fs₁ h₁ => ?_
  have h₂ := h₁.writei hdp room (replicate 16 0) off 16
  generalize fs₁.writei room dp (replicate 16 0) off 16 = w at h₂
  have hend : ∀ busy : Bool, Ensures MemFault (fun x => Holds r l x.1)
      (if busy = true then .ok ((fs₁.iput ip).iput dp, -1)
      else if w.2 ≠ 16 then .error .unlinkWritei
      else
        let fs :=
          if (w.1.inode ip).copy.type = T_DIR then
            w.1.modify dp (fun d => { d with nlink := toShort (d.nlink - 1) })
          else w.1
        let fs := (fs.iput dp).modify ip (fun d => { d with nlink := toShort (d.nlink - 1) })
        .ok (fs.iput ip, 0)) := by
    intro busy
    split_ifs
    · exact h₁.iput.iput
    · nofun
    · exact (((h₂.modify (f := fun d => { d with nlink := toShort (d.nlink - 1) }) hdp
        (fun _ => rfl)).perm (List.Perm.swap ..)).iput.modify
          (f := fun d => { d with nlink := toShort (d.nlink - 1) }) mem_cons_self
          (fun _ => rfl)).iput
    · exact ((h₂.perm (List.Perm.swap ..)).iput.modify
        (f := fun d => { d with nlink := toShort (d.nlink - 1) }) mem_cons_self
        (fun _ => rfl)).iput
  by_cases hn : (fs₁.inode ip).copy.nlink < 1
  · rw [if_pos hn]
    nofun
  rw [if_neg hn]
  by_cases hdir : (fs₁.inode ip).copy.type = T_DIR
  · simp only [if_pos hdir]
    cases he : isdirempty (fs₁.inode ip).copy.data with
    | error =>
      rw [emptyFrom_error he]
      exact (by decide : ¬ MemFault .isdirempty)
    | ok e => exact hend (!e)
  · simp only [if_neg hdir]
    exact hend false

end Holds

end Fs

end Xv6
