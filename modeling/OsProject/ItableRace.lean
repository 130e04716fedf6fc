import OsProject.Itable
import OsProject.Pool

/-!
# An inode that is freed while it is allocated again

`iput` frees an inode in several steps, and in between another process may find that it is
free on disk, allocate it, and get the same entry of the table. The invariant says of each
entry what its sleep-lock is held for (`LockOk`): up to the step that writes type 0, the
process in `iput` has the only reference, and after it, it only has to leave behind an entry
that is not valid. Then it does not matter who gets the entry in the meantime.

An inode that has been allocated and for which `iget` has not been called yet has no entry
that anyone else uses (`Claim`): it has no links, and no one has a reference to it. That is
where the directories come in: an entry of a directory has to name a live inode. The entry
`..` of a directory that has been removed need not (`dotdot_of_removed`).

`Inv.entry_step` is the rule for a step at one entry, `Inv.exec` the step lemma, and
`Inv.of_runs` the run lemma.
-/

namespace Xv6.Itable

open State Option Pc List

open Function (forall_update_iff update update_eq_self update_idem update_of_ne update_self
  update_apply)

open Blocks (Dinode)

/-! ## Processes -/

namespace Pc

/-- The entry that a process is at. -/
def about : Pc → Option (Fin NINODE)
  | idle | alloc .. | get .. => none
  | locking k | loading k | put k | freeing k _ | drop k => some k

/-- At entry `k`, or at none. -/
def At (k : Fin NINODE) (x : Pc) : Prop := x.about = none ∨ x.about = some k

/-- In `iput`, before the inode on disk is free. -/
def early (k : Fin NINODE) : Pc → Bool
  | put j | freeing j .trunc | freeing j .clear | freeing j .write => decide (j = k)
  | _ => false

end Pc

/-- What the process that has the sleep-lock of an entry does with it. -/
inductive Role
  | uses
  | loads
  | frees (stage : Stage)

def Pc.role (k : Fin NINODE) : Pc → Role
  | .loading j => if j = k then .loads else .uses
  | .freeing j stage => if j = k then .frees stage else .uses
  | _ => .uses

section about

variable {x : Pc} {k : Fin NINODE} {stage : Stage}

theorem Pc.At.about_ne (h : x.At k) {j : Fin NINODE} (hj : j ≠ k) : x.about ≠ some j := by
  rcases h with h | h <;> rw [h]
  · exact nofun
  · exact fun he => hj (Option.some.inj he).symm

theorem Pc.role_of_about (h : x.about ≠ some k) : x.role k = .uses := by
  cases x with
  | loading | freeing => exact if_neg (fun he => h (congrArg some he))
  | _ => rfl

theorem Pc.puts_of_about (h : x.about ≠ some k) : x.puts k = false := by
  cases x with
  | put | freeing | drop => exact decide_eq_false (fun he => h (congrArg some he))
  | _ => rfl

theorem Pc.puts_of_early (h : x.early k = true) : x.puts k = true := by
  cases x with
  | put => exact h
  | freeing j stage => cases stage <;> first | exact h | cases h
  | _ => cases h

theorem Pc.early_of_about (h : x.about ≠ some k) : x.early k = false := by
  by_contra hc
  have := puts_of_early (Bool.eq_true_of_not_eq_false hc)
  rw [puts_of_about h] at this
  cases this

theorem Pc.role_eq_loads (h : x.role k = .loads) : x = .loading k := by
  cases x with
  | loading =>
    rw [role] at h
    split_ifs at h with he
    rw [he]
  | freeing =>
    rw [role] at h
    split at h <;> cases h
  | _ => cases h

theorem Pc.role_eq_frees (h : x.role k = .frees stage) : x = .freeing k stage := by
  cases x with
  | loading =>
    rw [role] at h
    split at h <;> cases h
  | freeing =>
    rw [role] at h
    split_ifs at h with he
    cases h
    rw [he]
  | _ => cases h

theorem Pc.role_loading : (Pc.loading k).role k = .loads := if_pos rfl

theorem Pc.role_freeing (stage : Stage) : (Pc.freeing k stage).role k = .frees stage := if_pos rfl

/-- The last stages. -/
theorem Pc.late (h : (Pc.freeing k stage).early k = false) :
    stage = .invalidate ∨ stage = .unlock := by
  cases stage with
  | invalidate => exact .inl rfl
  | unlock => exact .inr rfl
  | _ => exact absurd rfl (of_decide_eq_false h)

end about

/-! ## The invariant -/

/-- **What holds of an entry**, by what its sleep-lock is held for. The inode on disk is
`d`, and there are `h` references to the entry that are not in `iput`. -/
def LockOk (ip : Inode) (h : ℕ) (d : Dinode) : Option Role → Prop
  | none => ip.changed = false ∧ (0 < ip.ref → ip.valid = true → ip.copy = d ∧ d.type ≠ 0)
  | some .loads => ip.changed = false ∧ 0 < h ∧ (ip.valid = true → ip.copy = d)
  | some .uses =>
    0 < h ∧ ip.valid = true ∧ ip.copy.type ≠ 0 ∧ (ip.changed = false → ip.copy = d) ∧
      (ip.dev = ROOTDEV → ip.inum = ROOTINO → ip.copy.nlink ≠ 0)
  | some (.frees .trunc) =>
    ip.changed = false ∧ h = 0 ∧ ip.ref = 1 ∧ (ip.copy.nlink = 0 ∧ ip.copy.type ≠ 0) ∧ d.nlink = 0
  | some (.frees .clear) | some (.frees .write) =>
    ip.changed = false ∧ h = 0 ∧ ip.ref = 1 ∧ ip.copy.nlink = 0 ∧ d.nlink = 0
  | some (.frees .invalidate) => ip.changed = false
  | some (.frees .unlock) => ip.changed = false ∧ ip.valid = false

/-- What holds of an entry and the processes `pc`. -/
structure EntryOk (k : Fin NINODE) (ip : Inode) (h : ℕ) (d : Dinode) (pc : ℕ → Pc) : Prop where
  lock : LockOk ip h d (ip.lock.map (fun p => (pc p).role k))
  loads : ∀ p, pc p = .loading k → ip.lock = some p
  frees : ∀ p stage, pc p = .freeing k stage → ip.lock = some p
  waits : ∀ p, pc p = .locking k → 0 < h

/-- There is a reference to an entry for an inode that is not free. -/
def Active (k : Fin NINODE) (h : ℕ) (pc : ℕ → Pc) : Prop := 0 < h ∨ ∃ p, (pc p).early k = true

/-- A process has allocated an inode, and nobody else knows it yet. -/
structure Claim (s : State) (p dev inum : ℕ) : Prop where
  type : (s.disk dev inum).type ≠ 0
  nlink : (s.disk dev inum).nlink = 0
  inactive : ∀ k, (s.inode k).dev = dev → (s.inode k).inum = inum → ¬ Active k (s.held k) s.pc
  one : ∀ q, s.pc q = .get dev inum → q = p

namespace State

/-- The inode on disk that an entry is for. -/
def dinode (s : State) (k : Fin NINODE) : Dinode := s.disk (s.inode k).dev (s.inode k).inum

/-- Two entries are for the same inode. -/
def Same (s : State) (j k : Fin NINODE) : Prop :=
  (s.inode j).dev = (s.inode k).dev ∧ (s.inode j).inum = (s.inode k).inum

end State

/-- **What holds between steps.** -/
structure Inv (s : State) : Prop where
  unique : ∀ j k, 0 < (s.inode j).ref → 0 < (s.inode k).ref → s.Same j k → j = k
  count : ∀ k, (s.inode k).ref = s.outstanding k
  entry : ∀ k, EntryOk k (s.inode k) (s.held k) (s.dinode k) s.pc
  typed : ∀ k, Active k (s.held k) s.pc → (s.dinode k).type ≠ 0
  claim : ∀ p dev inum, s.pc p = .get dev inum → Claim s p dev inum
  free : ∀ dev inum, (s.disk dev inum).type = 0 → (s.disk dev inum).nlink = 0
  root : (s.disk ROOTDEV ROOTINO).nlink ≠ 0

/-! ## Other entries -/

section frame

variable {k : Fin NINODE} {ip : Inode} {h : ℕ} {d : Dinode} {pc : ℕ → Pc} {p : ℕ} {y : Pc}

/-- Only the process that has the sleep-lock does more with an entry than to use it. -/
theorem EntryOk.owner (E : EntryOk k ip h d pc) {q : ℕ} (hq : (pc q).role k ≠ .uses) :
    ip.lock = some q := by
  cases hr : (pc q).role k with
  | uses => exact absurd hr hq
  | loads => exact E.loads q (role_eq_loads hr)
  | frees stage => exact E.frees q stage (role_eq_frees hr)

/-- What has to be shown of an entry when a process goes on. -/
theorem EntryOk.of_update (hlock : LockOk ip h d (ip.lock.map fun q => (update pc p y q).role k))
    (hy : y.role k ≠ .uses → ip.lock = some p) (hw : y = .locking k → 0 < h)
    (howner : ∀ q, q ≠ p → (pc q).role k ≠ .uses → ip.lock = some q)
    (hwaits : ∀ q, pc q = .locking k → 0 < h) : EntryOk k ip h d (update pc p y) := by
  have hone : ∀ q, (update pc p y q).role k ≠ .uses → ip.lock = some q :=
    (forall_update_iff pc fun q z => z.role k ≠ .uses → ip.lock = some q).mpr ⟨hy, howner⟩
  refine ⟨hlock, fun q hq => hone q ?_, fun q stage hq => hone q ?_,
    (forall_update_iff pc fun _ z => z = .locking k → 0 < h).mpr ⟨hw, fun q _ => hwaits q⟩⟩
  · rw [hq, role_loading]
    exact nofun
  · rw [hq, role_freeing]
    exact nofun

/-- A process goes on without taking or releasing the sleep-lock. -/
theorem EntryOk.move (E : EntryOk k ip h d pc) (hr : y.role k = (pc p).role k)
    (hw : y = .locking k → 0 < h) : EntryOk k ip h d (update pc p y) := by
  have hrole : (fun q => ((update pc p y) q).role k) = fun q => (pc q).role k :=
    funext (update_keeps (role k) hr)
  refine .of_update ?_ (fun hy => E.owner (hr ▸ hy)) hw (fun q _ => E.owner) E.waits
  rw [hrole]
  exact E.lock

/-- Where a process is that is at another entry does not matter. -/
theorem EntryOk.frame (E : EntryOk k ip h d pc) (hx : (pc p).about ≠ some k)
    (hy : y.about ≠ some k) : EntryOk k ip h d (update pc p y) := by
  refine E.move ?_ fun he => absurd (congrArg about he) hy
  rw [role_of_about hx, role_of_about hy]

theorem Active.of_update (ha : Active k h (update pc p y)) (hy : y.early k = false) :
    Active k h pc := by
  refine ha.imp id ?_
  rintro ⟨q, hq⟩
  rw [update_apply] at hq
  split_ifs at hq with hqp
  · rw [hy] at hq
    cases hq
  · exact ⟨q, hq⟩

theorem active_update (hx : (pc p).about ≠ some k) (hy : y.about ≠ some k) :
    Active k h (update pc p y) ↔ Active k h pc := by
  refine ⟨fun ha => ha.of_update (early_of_about hy), Or.imp id ?_⟩
  rintro ⟨q, hq⟩
  have hqp : q ≠ p := by
    rintro rfl
    rw [early_of_about hx] at hq
    cases hq
  exact ⟨q, by rwa [update_of_ne hqp]⟩

/-- An entry that is not in use is for nothing. -/
theorem EntryOk.of_unused (E : EntryOk k ip 0 d pc) (hp : ∀ p stage, pc p ≠ .freeing k stage) :
    ip.lock = none ∧ ip.changed = false := by
  have hlock := E.lock
  cases hl : ip.lock with
  | none =>
    rw [hl] at hlock
    exact ⟨rfl, hlock.1⟩
  | some p =>
    rw [hl, map_some] at hlock
    cases hr : (pc p).role k with
    | uses =>
      rw [hr] at hlock
      exact absurd hlock.1 (lt_irrefl 0)
    | loads =>
      rw [hr] at hlock
      exact absurd hlock.2.1 (lt_irrefl 0)
    | frees stage => exact absurd (role_eq_frees hr) (hp p stage)

/-- What is on disk does not matter to it. -/
theorem EntryOk.disk_of_unused (E : EntryOk k ip 0 d pc) (hp : ∀ p stage, pc p ≠ .freeing k stage)
    (hr : ip.ref = 0) (d' : Dinode) : EntryOk k ip 0 d' pc := by
  obtain ⟨hl, hc⟩ := E.of_unused hp
  refine ⟨?_, E.loads, E.frees, E.waits⟩
  rw [hl]
  exact ⟨hc, fun h0 => absurd h0 (by rw [hr]; exact lt_irrefl 0)⟩

end frame

variable {r : Option Role} {s s' : State} {k : Fin NINODE} {ip : Inode} {d : Dinode} {h p : ℕ}
  {y : Pc}

/-- Another reference. -/
theorem LockOk.more (L : LockOk ip h d r)
    (hpos : ip.valid = true → 0 < ip.ref) (hr : ∀ stage, r = some (.frees stage) → 0 < h ∨
      d.nlink ≠ 0 ∨ stage = .invalidate ∨ stage = .unlock) :
    LockOk { ip with ref := ip.ref + 1 } (h + 1) d r := by
  cases r with
  | none => exact ⟨L.1, fun _ hv => L.2 (hpos hv) hv⟩
  | some r =>
    cases r with
    | uses => exact ⟨Nat.succ_pos h, L.2⟩
    | loads => exact ⟨L.1, Nat.succ_pos h, L.2.2⟩
    | frees stage =>
      have := hr stage rfl
      cases stage with
      | invalidate | unlock => exact L
      | _ =>
        obtain ⟨-, hh, -, -, hn⟩ := L
        rw [hh, hn] at this
        simp at this

/-- One reference less. -/
theorem LockOk.fewer (L : LockOk ip h d r) (hr : ∀ stage, r = some (.frees stage) → 2 ≤ ip.ref) :
    LockOk { ip with ref := ip.ref - 1 } h d r := by
  cases r with
  | none => exact ⟨L.1, fun h0 hv => L.2 (h0.trans_le (Nat.sub_le _ _)) hv⟩
  | some r =>
    cases r with
    | uses | loads => exact L
    | frees stage =>
      have := hr stage rfl
      cases stage with
      | invalidate | unlock => exact L
      | _ => exact absurd L.2.2.1 (by omega)

/-- The inode on disk that nobody has a reference to may become another one. -/
theorem LockOk.of_free {d' : Dinode} (L : LockOk ip 0 d r) (hd : d.type = 0)
    (hr : ∀ stage, r = some (.frees stage) → stage = .invalidate ∨ stage = .unlock) :
    LockOk ip 0 d' r := by
  cases r with
  | none => exact ⟨L.1, fun h hv => absurd hd (L.2 h hv).2⟩
  | some r =>
    cases r with
    | uses => exact absurd L.1 (lt_irrefl 0)
    | loads => exact absurd L.2.1 (lt_irrefl 0)
    | frees stage =>
      rcases hr stage rfl with rfl | rfl <;> exact L

/-! ## Steps at one entry -/

/-- A process is somewhere else, and one entry, its references and its inode on disk have
changed. -/
structure Change (s s' : State) (p : ℕ) (y : Pc) (k : Fin NINODE) (ip : Inode) (h : ℕ)
    (d : Dinode) : Prop where
  procs : s'.procs = s.procs.set p y
  inode : s'.inode = update s.inode k ip
  held : s'.held = update s.held k h
  disk : s'.disk = (s.setDisk ip.dev ip.inum d).disk

theorem State.inode_setInode_self (s : State) (k : Fin NINODE) (ip : Inode) :
    (s.setInode k ip).inode k = ip := update_self ..

theorem State.inode_setInode_of_ne (s : State) {j : Fin NINODE} (ip : Inode) (h : j ≠ k) :
    (s.setInode k ip).inode j = s.inode j := update_of_ne h _ _

theorem State.setInode_setInode (s : State) (k : Fin NINODE) (ip ip' : Inode) :
    (s.setInode k ip).setInode k ip' = s.setInode k ip' := by
  show { s with inode := update (update s.inode k ip) k ip' } = _
  rw [update_idem]
  rfl

section disk

variable (s : State) (dev inum : ℕ) (d : Dinode)

theorem State.disk_setDisk : (s.setDisk dev inum d).disk =
    update s.disk dev (update (s.disk dev) inum d) := rfl

theorem State.disk_setDisk_self : (s.setDisk dev inum d).disk dev inum = d := by
  rw [disk_setDisk, update_self, update_self]

variable {dev inum}

theorem State.disk_setDisk_of_ne {dev' inum' : ℕ} (hne : ¬ (dev' = dev ∧ inum' = inum)) :
    (s.setDisk dev inum d).disk dev' inum' = s.disk dev' inum' := by
  rw [disk_setDisk]
  by_cases hd : dev' = dev
  · subst hd
    rw [update_self, update_of_ne (fun hi => hne ⟨rfl, hi⟩)]
  · rw [update_of_ne hd]

end disk

theorem State.pc_eq_update (hp : p < s.procs.length)
    (h : s'.procs = s.procs.set p y) : s'.pc = update s.pc p y := by
  unfold pc
  rw [h, Pool.getD_set hp]

theorem State.countP_eq (hp : p < s.procs.length) (h : s'.procs = s.procs.set p y) (f : Pc → Bool) :
    s'.procs.countP f + (f (s.pc p)).toNat = s.procs.countP f + (f y).toNat := by
  rw [h]
  exact Pool.countP_set hp f

/-- An entry with no references. -/
theorem Inv.unused (I : Inv s) (hr : (s.inode k).ref = 0) :
    s.held k = 0 ∧ ∀ p, (s.pc p).puts k = false := by
  have := I.count k
  rw [hr, outstanding] at this
  exact ⟨by omega, Pool.eq_false_of_countP (by omega) rfl⟩

theorem Inv.not_freeing (I : Inv s) (hr : (s.inode k).ref = 0) (p : ℕ) (stage : Stage) :
    s.pc p ≠ .freeing k stage := by
  intro hp
  have := (I.unused hr).2 p
  rw [hp] at this
  exact absurd rfl (of_decide_eq_false this)

theorem Inv.inactive_of_unused (I : Inv s)
    (hr : (s.inode k).ref = 0) : ¬ Active k (s.held k) s.pc := by
  obtain ⟨hh, hputs⟩ := I.unused hr
  rintro (h0 | ⟨q, hq⟩)
  · exact ne_of_gt h0 hh
  · exact Bool.false_ne_true ((hputs q).symm.trans (puts_of_early hq))

theorem Inv.same_unused (I : Inv s) (hpos : 0 < (s.inode k).ref)
    (j : Fin NINODE) (hj : j ≠ k) (h : s.Same j k) : (s.inode j).ref = 0 := by
  by_contra hr
  exact hj (I.unique j k (pos_of_ne_zero hr) hpos h)

namespace Change

variable {s s' : State} {p : ℕ} {y : Pc} {k j : Fin NINODE} {ip : Inode} {h : ℕ} {d : Dinode}

variable (C : Change s s' p y k ip h d)
include C

theorem disk_self : s'.disk ip.dev ip.inum = d := by
  rw [C.disk, disk_setDisk_self]

theorem disk_of_ne {dev inum : ℕ} (hne : ¬ (dev = ip.dev ∧ inum = ip.inum)) :
    s'.disk dev inum = s.disk dev inum := by
  rw [C.disk, disk_setDisk_of_ne s d hne]

theorem inode_self : s'.inode k = ip := by
  rw [C.inode, update_self]

theorem inode_of_ne (hj : j ≠ k) : s'.inode j = s.inode j := by
  rw [C.inode, update_of_ne hj]

theorem held_self : s'.held k = h := by
  rw [C.held, update_self]

theorem held_of_ne (hj : j ≠ k) : s'.held j = s.held j := by
  rw [C.held, update_of_ne hj]

end Change

section step

variable {s s' : State} {p : ℕ} {x y : Pc} {k : Fin NINODE} {ip : Inode} {h : ℕ} {d : Dinode}

/-- **The rule for a step at one entry**: what holds of the others still does. -/
theorem Inv.entry_step (I : Inv s) (hp : p < s.procs.length) (C : Change s s' p y k ip h d)
    (huniq : ∀ j, j ≠ k → s.Same j k → (s.inode j).ref = 0) (hpx : s.pc p = x) (hx : x.At k)
    (hy : y.At k)
    (hget : ∀ dev inum, y ≠ .get dev inum)
    (hkey : ip.dev = (s.inode k).dev ∧ ip.inum = (s.inode k).inum)
    (href : ip.ref + s.held k + (x.puts k).toNat = (s.inode k).ref + h + (y.puts k).toNat)
    (hentry : EntryOk k ip h d (update s.pc p y))
    (htyped : Active k h (update s.pc p y) → d.type ≠ 0)
    (hclaim : (∀ q, q ≠ p → s.pc q ≠ .get ip.dev ip.inum) ∨
      (d = s.dinode k ∧ (Active k h (update s.pc p y) → Active k (s.held k) s.pc)))
    (hfree : d.type = 0 → d.nlink = 0)
    (hroot : ip.dev = ROOTDEV → ip.inum = ROOTINO → d.nlink ≠ 0) : Inv s' := by
  have hpc := pc_eq_update hp C.procs
  subst hpx
  have hsame : ∀ j, j ≠ k → (s.inode j).dev = ip.dev → (s.inode j).inum = ip.inum →
      (s.inode j).ref = 0 :=
    fun j hj hdev hinum => huniq j hj ⟨hdev.trans hkey.1, hinum.trans hkey.2⟩
  refine ⟨fun i j hi hj hij => ?_, fun j => ?_, fun j => ?_, fun j hj => ?_,
    fun q dev inum hq => ?_, fun dev inum ht => ?_, ?_⟩
  · -- another entry for the inode of this one is not in use
    have hone : ∀ j, j ≠ k → 0 < (s'.inode j).ref → ¬ s'.Same j k := by
      intro j hj hr hjk
      rw [C.inode_of_ne hj] at hr
      rw [State.Same, C.inode_of_ne hj, C.inode_self] at hjk
      rw [hsame j hj hjk.1 hjk.2] at hr
      exact lt_irrefl 0 hr
    by_cases hik : i = k
    · by_contra hne
      rw [hik] at hij hne
      exact hone j (Ne.symm hne) hj ⟨hij.1.symm, hij.2.symm⟩
    by_cases hjk : j = k
    · rw [hjk] at hij
      exact absurd hij (hone i hik hi)
    rw [C.inode_of_ne hik] at hi
    rw [C.inode_of_ne hjk] at hj
    rw [State.Same, C.inode_of_ne hik, C.inode_of_ne hjk] at hij
    exact I.unique i j hi hj hij
  · have hc := countP_eq hp C.procs (puts j)
    have hold := I.count j
    unfold outstanding at hold ⊢
    by_cases hj : j = k
    · subst hj
      rw [C.inode_self, C.held_self]
      omega
    · rw [puts_of_about (hx.about_ne hj), puts_of_about (hy.about_ne hj)] at hc
      rw [C.inode_of_ne hj, C.held_of_ne hj]
      omega
  · rw [hpc]
    by_cases hj : j = k
    · subst hj
      rw [dinode, C.inode_self, C.held_self, C.disk_self]
      exact hentry
    · rw [dinode, C.inode_of_ne hj, C.held_of_ne hj]
      refine EntryOk.frame ?_ (hx.about_ne hj) (hy.about_ne hj)
      by_cases hkj : (s.inode j).dev = ip.dev ∧ (s.inode j).inum = ip.inum
      · have hr := hsame j hj hkj.1 hkj.2
        have E := I.entry j
        rw [(I.unused hr).1] at E ⊢
        exact E.disk_of_unused (I.not_freeing hr) hr _
      · rw [C.disk_of_ne hkj]
        exact I.entry j
  · rw [hpc] at hj
    by_cases hjk : j = k
    · subst hjk
      rw [C.held_self] at hj
      rw [dinode, C.inode_self, C.disk_self]
      exact htyped hj
    · rw [C.held_of_ne hjk, active_update (hx.about_ne hjk) (hy.about_ne hjk)] at hj
      rw [dinode, C.inode_of_ne hjk, C.disk_of_ne]
      · exact I.typed j hj
      · rintro ⟨hdev, hinum⟩
        exact I.inactive_of_unused (hsame j hjk hdev hinum) hj
  · rw [hpc] at hq
    have hqp : q ≠ p := by
      rintro rfl
      rw [update_self] at hq
      exact hget _ _ hq
    rw [update_of_ne hqp] at hq
    have c := I.claim q dev inum hq
    have hone : ∀ q', s'.pc q' = .get dev inum → q' = q := by
      intro q' hq'
      refine c.one q' ?_
      rwa [hpc, update_of_ne] at hq'
      rintro rfl
      rw [update_self] at hq'
      exact hget _ _ hq'
    -- only the inode of the entry has changed
    have hdisk : s'.disk dev inum = s.disk dev inum := by
      by_cases hk : dev = ip.dev ∧ inum = ip.inum
      · obtain ⟨rfl, rfl⟩ := hk
        rw [C.disk_self, (hclaim.resolve_left fun hno => hno q hqp hq).1, dinode, hkey.1, hkey.2]
      · rw [C.disk_of_ne hk]
    refine ⟨by rw [hdisk]; exact c.type, by rw [hdisk]; exact c.nlink, fun j h₁ h₂ => ?_, hone⟩
    rw [hpc]
    by_cases hjk : j = k
    · subst hjk
      rw [C.inode_self] at h₁ h₂
      subst h₁ h₂
      rw [C.held_self]
      have hact := (hclaim.resolve_left fun hno => hno q hqp hq).2
      exact fun ha => c.inactive j hkey.1.symm hkey.2.symm (hact ha)
    · rw [C.held_of_ne hjk, active_update (hx.about_ne hjk) (hy.about_ne hjk)]
      rw [C.inode_of_ne hjk] at h₁ h₂
      exact c.inactive j h₁ h₂
  · by_cases hk : dev = ip.dev ∧ inum = ip.inum
    · obtain ⟨rfl, rfl⟩ := hk
      rw [C.disk_self] at ht ⊢
      exact hfree ht
    · rw [C.disk_of_ne hk] at ht ⊢
      exact I.free dev inum ht
  · by_cases hk : ROOTDEV = ip.dev ∧ ROOTINO = ip.inum
    · rw [hk.1, hk.2, C.disk_self]
      exact hroot hk.1.symm hk.2.symm
    · rw [C.disk_of_ne hk]
      exact I.root

/-- The rule for a step that writes nothing to disk. -/
theorem Inv.local_step (I : Inv s) (hp : p < s.procs.length)
    (hprocs : s'.procs = s.procs.set p y) (hinode : s'.inode = update s.inode k ip)
    (hheld : s'.held = update s.held k h) (hdisk : s'.disk = s.disk) (hpos : 0 < (s.inode k).ref)
    (hpx : s.pc p = x) (hx : x.At k) (hy : y.At k)
    (hget : ∀ dev inum, y ≠ .get dev inum)
    (hkey : ip.dev = (s.inode k).dev ∧ ip.inum = (s.inode k).inum)
    (href : ip.ref + s.held k + (x.puts k).toNat = (s.inode k).ref + h + (y.puts k).toNat)
    (hentry : EntryOk k ip h (s.dinode k) (update s.pc p y))
    (hact : Active k h (update s.pc p y) → Active k (s.held k) s.pc) : Inv s' := by
  have hd : s.dinode k = s.disk ip.dev ip.inum := by rw [dinode, hkey.1, hkey.2]
  refine I.entry_step hp ⟨hprocs, hinode, hheld, ?_⟩ (I.same_unused hpos) hpx hx hy hget
    hkey href hentry (fun ha => I.typed k (hact ha)) (.inr ⟨rfl, hact⟩) ?_ ?_
  · rw [hd, disk_setDisk, update_eq_self, update_eq_self, hdisk]
  · exact I.free _ _
  · intro hdev hinum
    rw [hd, hdev, hinum]
    exact I.root

end step

/-! ## One entry -/

section entry

variable {k : Fin NINODE} {ip ip' : Inode} {h : ℕ} {d : Dinode} {pc : ℕ → Pc} {p : ℕ} {y : Pc}

variable (E : EntryOk k ip h d pc)
include E

/-- Nobody else does more than to use the entry. -/
theorem EntryOk.eq_of_owner (hl : ip.lock = some p) {q : ℕ} (hq : (pc q).role k ≠ .uses) : q = p :=
  Option.some.inj ((E.owner hq).symm.trans hl)

/-- The process that has the sleep-lock goes on. -/
theorem EntryOk.holder (hl : ip.lock = some p) {h' : ℕ} {d' : Dinode} (hl' : ip'.lock = some p)
    (hL : LockOk ip' h' d' (some (y.role k))) (hh : 0 < h → 0 < h') (hw : y = .locking k → 0 < h') :
    EntryOk k ip' h' d' (update pc p y) := by
  refine .of_update ?_ (fun _ => hl') hw (fun q hqp hq => absurd (E.eq_of_owner hl hq) hqp)
    (fun q hq => hh (E.waits q hq))
  rw [hl', map_some, update_self]
  exact hL

/-- The process that frees the inode goes on. -/
theorem EntryOk.freeing (hl : ip.lock = some p) {d' : Dinode} {stage : Stage}
    (hl' : ip'.lock = some p) (hL : LockOk ip' h d' (some (.frees stage))) :
    EntryOk k ip' h d' (update pc p (.freeing k stage)) := by
  refine E.holder hl hl' ?_ id nofun
  rw [role_freeing]
  exact hL

/-- The sleep-lock is released. -/
theorem EntryOk.release (hl : ip.lock = some p) (hl' : ip'.lock = none) (hL : LockOk ip' h d none)
    (hy : y.role k = .uses) (hw : y = .locking k → 0 < h) : EntryOk k ip' h d (update pc p y) := by
  refine .of_update ?_ (absurd hy) hw (fun q hqp hq => absurd (E.eq_of_owner hl hq) hqp) E.waits
  rw [hl']
  exact hL

/-- The sleep-lock is taken. -/
theorem EntryOk.take (hl : ip.lock = none) (hl' : ip'.lock = some p)
    (hL : LockOk ip' h d (some (y.role k))) (hw : y = .locking k → 0 < h) :
    EntryOk k ip' h d (update pc p y) := by
  refine .of_update ?_ (fun _ => hl') hw (fun q _ hq => ?_) E.waits
  · rw [hl', map_some, update_self]
    exact hL
  · cases hl.symm.trans (E.owner hq)

end entry

/-! ## Counting -/

namespace Inv

variable {s : State} {p q : ℕ} {k : Fin NINODE}

variable (I : Inv s)
include I

/-- A reference in `iput` counts. -/
theorem held_lt (h : (s.pc p).puts k = true) : s.held k < (s.inode k).ref := by
  rw [I.count k, outstanding]
  exact Nat.lt_add_of_pos_right (Pool.countP_pos rfl h)

theorem held_le (k : Fin NINODE) : s.held k ≤ (s.inode k).ref := by
  rw [I.count k]
  exact Nat.le_add_right _ _

/-- Two references in `iput` count twice. -/
theorem two_le_ref (hqp : q ≠ p) (h : (s.pc p).puts k = true) (h' : (s.pc q).puts k = true) :
    2 ≤ (s.inode k).ref := by
  rw [I.count k, outstanding]
  exact Nat.le_add_left_of_le (Pool.two_le_countP hqp rfl h h')

theorem dinode_root (k : Fin NINODE) (hdev : (s.inode k).dev = ROOTDEV)
    (hinum : (s.inode k).inum = ROOTINO) : (s.dinode k).nlink ≠ 0 := by
  rw [dinode, hdev, hinum]
  exact I.root

/-- An active inode has no claim. -/
theorem not_claimed (ha : Active k (s.held k) s.pc) (q : ℕ) :
    s.pc q ≠ .get (s.inode k).dev (s.inode k).inum :=
  fun hq => (I.claim q _ _ hq).inactive k rfl rfl ha

end Inv

/-! ## The functions -/

/-- What a step may do: make a state where the invariant holds, or not be possible. The
table can be full. -/
def Fine (r : Except Stop State) : Prop :=
  r = .error .blocked ∨ r = .error (.panic .iget) ∨ ∃ s, r = .ok s ∧ Inv s

theorem Inv.fine (I : Inv s) : Fine (.ok s) := .inr (.inr ⟨s, rfl, I⟩)

/-- A call that is made only if a condition holds. -/
theorem Fine.guard {c : Prop} [Decidable c] {r : Except Stop State} (h : c → Fine r) :
    Fine (if c then r else .error .blocked) := by
  split
  · next hc => exact h hc
  · exact .inl rfl

namespace Inv

variable {s : State} {p : ℕ} {k : Fin NINODE} {disk : ℕ → ℕ → Dinode}

section

variable (I : Inv s)
include I

/-- A process goes on in `ialloc`, with an inode that nobody else knows if it has found one. -/
theorem aside (hp : p < s.procs.length) (hx : (s.pc p).about = none) (hy : y.about = none)
    (hget : ∀ dev inum, y = .get dev inum →
      (s.disk dev inum).type ≠ 0 ∧ (s.disk dev inum).nlink = 0 ∧
      (∀ k, (s.inode k).dev = dev → (s.inode k).inum = inum → ¬ Active k (s.held k) s.pc) ∧
      ∀ q, s.pc q ≠ .get dev inum) : Inv (s.setPc p y) := by
  have hpc : (s.setPc p y).pc = update s.pc p y := pc_eq_update hp rfl
  have hx' : ∀ j, (s.pc p).about ≠ some j := fun j => by rw [hx]; exact nofun
  have hy' : ∀ j, y.about ≠ some j := fun j => by rw [hy]; exact nofun
  refine ⟨I.unique, fun j => ?_, fun j => ?_, fun j hj => ?_, fun q dev inum hq => ?_, I.free,
    I.root⟩
  · have hc : (s.setPc p y).procs.countP (puts j) + ((s.pc p).puts j).toNat =
        s.procs.countP (puts j) + (y.puts j).toNat := countP_eq hp rfl _
    rw [puts_of_about (hx' j), puts_of_about (hy' j)] at hc
    show _ = s.held j + (s.setPc p y).procs.countP (puts j)
    rw [add_right_cancel hc]
    exact I.count j
  · rw [hpc]
    exact (I.entry j).frame (hx' j) (hy' j)
  · rw [hpc] at hj
    exact I.typed j ((active_update (hx' j) (hy' j)).mp hj)
  · have hcases : ∀ {q}, (s.setPc p y).pc q = .get dev inum →
        (q = p ∧ y = .get dev inum) ∨ s.pc q = .get dev inum := by
      intro q hq
      rw [hpc] at hq
      rw [update_apply] at hq
      split_ifs at hq with hqp
      · exact .inl ⟨hqp, hq⟩
      · exact .inr hq
    have hact : ∀ {j}, Active j (s.held j) (s.setPc p y).pc → Active j (s.held j) s.pc := by
      intro j ha
      rw [hpc] at ha
      exact (active_update (hx' j) (hy' j)).mp ha
    rcases hcases hq with ⟨rfl, hyq⟩ | hqs
    · obtain ⟨ht, hn, hna, hno⟩ := hget dev inum hyq
      exact ⟨ht, hn, fun j h₁ h₂ ha => hna j h₁ h₂ (hact ha),
        fun q' hq' => (hcases hq').elim And.left (absurd · (hno q'))⟩
    · have c := I.claim q dev inum hqs
      exact ⟨c.type, c.nlink, fun j h₁ h₂ ha => c.inactive j h₁ h₂ (hact ha),
        fun q' hq' => (hcases hq').elim (fun h => absurd hqs ((hget dev inum h.2).2.2.2 q))
          (c.one q')⟩

/-- An inode that is free has no entry that anyone uses. -/
theorem inactive_of_free {dev inum : ℕ} (hfree : (s.disk dev inum).type = 0) (j : Fin NINODE)
    (h₁ : (s.inode j).dev = dev) (h₂ : (s.inode j).inum = inum) : ¬ Active j (s.held j) s.pc := by
  intro ha
  refine I.typed j ha ?_
  rw [dinode, h₁, h₂]
  exact hfree

/-- `ialloc` writes an inode that is free. -/
theorem fill {dev inum : ℕ} (type : FileType) (hfree : (s.disk dev inum).type = 0) :
    Inv (s.setDisk dev inum (.fresh type.1)) := by
  have hother : ∀ {dev' inum'}, ¬ (dev' = dev ∧ inum' = inum) →
      (s.setDisk dev inum (.fresh type.1)).disk dev' inum' = s.disk dev' inum' :=
    disk_setDisk_of_ne s _
  refine ⟨I.unique, I.count, fun j => ?_, fun j hj => ?_, fun q dev' inum' hq => ?_,
    fun dev' inum' ht => ?_, ?_⟩
  · have E := I.entry j
    by_cases hk : (s.inode j).dev = dev ∧ (s.inode j).inum = inum
    · have hna := I.inactive_of_free hfree j hk.1 hk.2
      have hh : s.held j = 0 := Nat.eq_zero_of_not_pos (fun h => hna (.inl h))
      refine ⟨?_, E.loads, E.frees, E.waits⟩
      have L := E.lock
      show LockOk _ (s.held j) _ _
      rw [hh] at L ⊢
      refine L.of_free ?_ fun stage hs => ?_
      · rw [dinode, hk.1, hk.2]
        exact hfree
      · obtain ⟨q, -, hq⟩ := map_eq_some_iff.mp hs
        have hearly : (s.pc q).early j = false :=
          Bool.eq_false_iff.mpr (fun he => hna (.inr ⟨q, he⟩))
        rw [role_eq_frees hq] at hearly
        exact late hearly
    · have hd : (s.setDisk dev inum (.fresh type.1)).dinode j = s.dinode j := hother hk
      rw [hd]
      exact E
  · have hd : (s.setDisk dev inum (.fresh type.1)).dinode j = s.dinode j :=
      hother (fun hk => I.inactive_of_free hfree j hk.1 hk.2 hj)
    rw [hd]
    exact I.typed j hj
  · have c := I.claim q dev' inum' hq
    have hd := @hother dev' inum' (by rintro ⟨rfl, rfl⟩; exact c.type hfree)
    exact ⟨by rw [hd]; exact c.type, by rw [hd]; exact c.nlink, c.inactive, c.one⟩
  · by_cases hk : dev' = dev ∧ inum' = inum
    · rw [hk.1, hk.2, disk_setDisk_self] at ht
      exact absurd ht type.2
    · rw [hother hk] at ht ⊢
      exact I.free dev' inum' ht
  · rw [hother]
    · exact I.root
    · rintro ⟨rfl, rfl⟩
      exact I.root (I.free _ _ hfree)

/-- `ialloc` takes an inode that is free. -/
theorem mark (hp : p < s.procs.length) {dev inum : ℕ} (type : FileType) (hx : (s.pc p).about = none)
    (hfree : (s.disk dev inum).type = 0) :
    Inv ((s.setDisk dev inum (.fresh type.1)).setPc p (.get dev inum)) := by
  refine (I.fill type hfree).aside hp hx rfl ?_
  rintro _ _ ⟨⟩
  rw [disk_setDisk_self]
  exact ⟨type.2, rfl, I.inactive_of_free hfree, fun q hq => (I.claim q _ _ hq).type hfree⟩

/-- An entry that is not in use may be for any inode. -/
theorem rekey (hr : (s.inode k).ref = 0) (dev inum : ℕ) :
    Inv (s.setInode k { s.inode k with dev := dev, inum := inum, valid := false }) := by
  have hna := I.inactive_of_unused hr
  have hpos : ∀ {j}, 0 < ((s.setInode k
      { s.inode k with dev := dev, inum := inum, valid := false }).inode j).ref →
      j ≠ k ∧ 0 < (s.inode j).ref := by
    intro j hj
    by_cases hjk : j = k
    · rw [hjk, inode_setInode_self] at hj
      exact absurd hj (by rw [hr]; exact lt_irrefl 0)
    · rw [inode_setInode_of_ne _ _ hjk] at hj
      exact ⟨hjk, hj⟩
  refine ⟨fun i j hi hj hij => ?_, fun j => ?_, fun j => ?_, fun j hj => ?_,
    fun q dev' inum' hq => ?_, I.free, I.root⟩
  · obtain ⟨hik, hi⟩ := hpos hi
    obtain ⟨hjk, hj⟩ := hpos hj
    rw [State.Same, inode_setInode_of_ne _ _ hik, inode_setInode_of_ne _ _ hjk] at hij
    exact I.unique i j hi hj hij
  · by_cases hjk : j = k
    · rw [hjk, inode_setInode_self]
      exact I.count k
    · rw [inode_setInode_of_ne _ _ hjk]
      exact I.count j
  · by_cases hjk : j = k
    · have E := I.entry k
      obtain ⟨hl, hc⟩ := ((I.unused hr).1 ▸ E : EntryOk k _ 0 _ _).of_unused (I.not_freeing hr)
      rw [hjk, inode_setInode_self]
      refine ⟨?_, E.loads, E.frees, E.waits⟩
      rw [hl]
      exact ⟨hc, nofun⟩
    · rw [dinode, inode_setInode_of_ne _ _ hjk]
      exact I.entry j
  · have hjk : j ≠ k := by
      rintro rfl
      exact hna hj
    rw [dinode, inode_setInode_of_ne _ _ hjk]
    exact I.typed j hj
  · have c := I.claim q dev' inum' hq
    refine ⟨c.type, c.nlink, fun j h₁ h₂ => ?_, c.one⟩
    by_cases hjk : j = k
    · rw [hjk]
      exact hna
    · rw [inode_setInode_of_ne _ _ hjk] at h₁ h₂
      exact c.inactive j h₁ h₂

/-- Another reference to an entry. -/
theorem refer (hp : p < s.procs.length) (hx : (s.pc p).about = none)
    (huniq : ∀ j, j ≠ k → s.Same j k → (s.inode j).ref = 0)
    (hpos : (s.inode k).valid = true → 0 < (s.inode k).ref) (ht : (s.dinode k).type ≠ 0)
    (hclaim : ∀ q, q ≠ p → s.pc q ≠ .get (s.inode k).dev (s.inode k).inum)
    (hfree : ∀ q stage, s.pc q = .freeing k stage → 0 < s.held k ∨ (s.dinode k).nlink ≠ 0 ∨
      stage = .invalidate ∨ stage = .unlock) :
    Inv (((s.setInode k { s.inode k with ref := (s.inode k).ref + 1 }).setHeld k
      (s.held k + 1)).setPc p .idle) := by
  have hx' : (s.pc p).about ≠ some k := by rw [hx]; exact nofun
  have hd : s.dinode k = s.disk (s.inode k).dev (s.inode k).inum := rfl
  refine I.entry_step hp ⟨rfl, rfl, rfl, ?_⟩ huniq rfl (.inl hx) (.inl rfl) nofun ⟨rfl, rfl⟩ ?_ ?_
    (fun _ => ht) (.inl hclaim) (I.free _ _) ?_
  · rw [hd, disk_setDisk, update_eq_self, update_eq_self]
    rfl
  · rw [puts_of_about hx']
    show (s.inode k).ref + 1 + s.held k + 0 = (s.inode k).ref + (s.held k + 1) + 0
    omega
  · have E := I.entry k
    refine EntryOk.frame ⟨E.lock.more hpos (fun stage hs => ?_), E.loads, E.frees,
      fun _ _ => Nat.succ_pos _⟩ hx' nofun
    obtain ⟨q, -, hq⟩ := map_eq_some_iff.mp hs
    exact hfree q stage (role_eq_frees hq)
  · intro hdev hinum
    rw [hd, show (s.inode k).dev = ROOTDEV from hdev, show (s.inode k).inum = ROOTINO from hinum]
    exact I.root

/-- **`iget`** of an inode that is live, or that the process has allocated. -/
theorem iget (hp : p < s.procs.length) {dev inum : ℕ} (hx : (s.pc p).about = none)
    (hlive : s.Live dev inum ∨ s.pc p = .get dev inum) : Fine (s.iget p dev inum) := by
  have ht : (s.disk dev inum).type ≠ 0 := by
    rcases hlive with (hn | ⟨j, hj, rfl, rfl⟩) | hget
    · exact fun h0 => hn (I.free _ _ h0)
    · exact I.typed j (.inl hj)
    · exact (I.claim p _ _ hget).type
  have hclaim : ∀ q, q ≠ p → s.pc q ≠ .get dev inum := by
    intro q hqp hq
    have c := I.claim q _ _ hq
    rcases hlive with (hn | ⟨j, hj, rfl, rfl⟩) | hget
    · exact hn c.nlink
    · exact c.inactive j rfl rfl (.inl hj)
    · exact hqp (c.one p hget).symm
  unfold State.iget
  split
  · next k hk =>
    have hfound := find?_some hk
    obtain ⟨hpos, rfl, rfl⟩ := of_decide_eq_true hfound
    refine (I.refer hp hx (I.same_unused hpos) (fun _ => hpos) ht hclaim
      (fun q stage hq => ?_)).fine
    rcases hlive with (hn | ⟨j, hj, hdev, hinum⟩) | hget
    · exact .inr (.inl hn)
    · have hjk : j = k := I.unique j k (hj.trans_le (I.held_le j)) hpos ⟨hdev, hinum⟩
      exact .inl (hjk ▸ hj)
    · refine .inr (.inr (late (k := k) (Bool.eq_false_iff.mpr (fun he => ?_))))
      exact I.not_claimed (.inr ⟨q, by rw [hq]; exact he⟩) p hget
  · next hnone =>
    split
    · exact .inr (.inl rfl)
    · next k hk =>
      have hfree := find?_some hk
      have hr : (s.inode k).ref = 0 := of_decide_eq_true hfree
      have hno : ∀ j, 0 < (s.inode j).ref →
          ¬ ((s.inode j).dev = dev ∧ (s.inode j).inum = inum) := by
        intro j hj hkey
        have := find?_eq_none.mp hnone j (mem_finRange j)
        exact this (decide_eq_true ⟨hj, hkey⟩)
      have I₁ := I.rekey hr dev inum
      have hk' := s.inode_setInode_self k
        { s.inode k with dev := dev, inum := inum, valid := false }
      refine Inv.fine ?_
      have := I₁.refer (k := k) hp hx (fun j hj hsame => ?_) ?_ ?_ ?_ (fun q stage hq => ?_)
      · rw [hk'] at this
        rw [setInode_setInode] at this
        simp only [hr, zero_add] at this
        exact this
      · rw [State.Same, hk', inode_setInode_of_ne _ _ hj] at hsame
        rw [inode_setInode_of_ne _ _ hj]
        exact Nat.eq_zero_of_not_pos fun h0 => hno j h0 hsame
      · rw [hk']
        exact nofun
      · rw [dinode, hk']
        exact ht
      · rw [hk']
        exact hclaim
      · exact absurd hq (I.not_freeing hr q stage)

theorem ref_pos (h : 0 < s.held k) : 0 < (s.inode k).ref :=
  h.trans_le (I.held_le k)

/-- `idup`. -/
theorem idup (hp : p < s.procs.length) (hx : s.pc p = .idle) (hh : 0 < s.held k) :
    Inv ((s.setInode k { s.inode k with ref := (s.inode k).ref + 1 }).setHeld k
      (s.held k + 1)) := by
  have hpos := I.ref_pos hh
  have := I.refer hp (by rw [hx]; rfl) (I.same_unused hpos) (fun _ => hpos) (I.typed k (.inl hh))
    (fun q _ => I.not_claimed (.inl hh) q) (fun _ _ _ => .inl hh)
  rw [setPc, show ((s.setInode k { s.inode k with ref := (s.inode k).ref + 1 }).setHeld k
    (s.held k + 1)).procs = s.procs from rfl, Pool.set_self hp hx] at this
  exact this

/-- A process calls `ilock`. -/
theorem ilock (hp : p < s.procs.length) (hx : s.pc p = .idle) (hh : 0 < s.held k) :
    Inv (s.setPc p (.locking k)) := by
  have hpos := I.ref_pos hh
  exact I.local_step hp rfl (update_eq_self k s.inode).symm (update_eq_self ..).symm rfl hpos hx
    (.inl rfl) (.inr rfl) nofun ⟨rfl, rfl⟩ rfl
    ((I.entry k).move (by rw [hx]; rfl) (fun _ => hh)) (fun _ => .inl hh)

/-- What holds of an entry while a process has its sleep-lock. -/
theorem uses (hl : s.locks p k) : LockOk (s.inode k) (s.held k) (s.dinode k) (some .uses) := by
  have L := (I.entry k).lock
  rwa [hl.2, map_some, hl.1] at L

section

variable (hp : p < s.procs.length)
include hp

/-- A process that has the sleep-lock changes the copy. -/
theorem set (hl : s.locks p k) (ht : d.type ≠ 0)
    (hroot : (s.inode k).dev = ROOTDEV → (s.inode k).inum = ROOTINO → d.nlink ≠ 0) :
    Inv (s.setInode k { s.inode k with copy := d, changed := true }) := by
  obtain ⟨hh, hv, -, -, -⟩ := I.uses hl
  obtain ⟨hx, hl⟩ := hl
  refine I.local_step hp (Pool.set_self hp hx).symm rfl
    (update_eq_self ..).symm rfl (I.ref_pos hh) hx (.inl rfl) (.inl rfl) nofun ⟨rfl, rfl⟩ rfl ?_
    (fun _ => .inl hh)
  exact (I.entry k).holder hl hl ⟨hh, hv, ht, nofun, hroot⟩ id nofun

/-- `iupdate`. -/
theorem iupdate (hl : s.locks p k) :
    Inv ((s.setDisk (s.inode k).dev (s.inode k).inum (s.inode k).copy).setInode k
      { s.inode k with changed := false }) := by
  obtain ⟨hh, hv, ht, -, hroot⟩ := I.uses hl
  obtain ⟨hx, hl⟩ := hl
  refine I.entry_step hp
    ⟨(Pool.set_self hp hx).symm, rfl, (update_eq_self ..).symm, rfl⟩
    (I.same_unused (I.ref_pos hh)) hx (.inl rfl) (.inl rfl) nofun ⟨rfl, rfl⟩ rfl ?_ (fun _ => ht)
    (.inl (fun q _ => I.not_claimed (.inl hh) q)) (fun h0 => absurd h0 ht) hroot
  exact (I.entry k).holder hl hl ⟨hh, hv, ht, fun _ => rfl, hroot⟩ id nofun

/-- `iunlock`. -/
theorem iunlock (hl : s.locks p k) (hc : (s.inode k).changed = false) :
    Inv (s.setInode k { s.inode k with lock := none }) := by
  obtain ⟨hh, -, ht, hcopy, -⟩ := I.uses hl
  obtain ⟨hx, hl⟩ := hl
  refine I.local_step hp (Pool.set_self hp hx).symm rfl
    (update_eq_self ..).symm rfl (I.ref_pos hh) hx (.inl rfl) (.inl rfl) nofun ⟨rfl, rfl⟩ rfl ?_
    (fun _ => .inl hh)
  refine (I.entry k).release hl rfl ⟨hc, fun _ _ => ?_⟩ rfl nofun
  rw [← hcopy hc]
  exact ⟨rfl, ht⟩

/-- A process calls `iput`. -/
theorem iput (hx : s.pc p = .idle) (hh : 0 < s.held k) (huse : 2 ≤ s.held k ∨ s.inUse k = false) :
    Inv ((s.setHeld k (s.held k - 1)).setPc p (.put k)) := by
  have E := I.entry k
  -- the sleep-lock of an entry that is not in use is free, or `iput` has it
  have hrole : ∀ r, (s.inode k).lock.map (fun q => (s.pc q).role k) = some r →
      0 < s.held k - 1 ∨ ∃ stage, r = .frees stage := by
    intro r hr
    rcases huse with h2 | hno
    · exact .inl (by omega)
    · obtain ⟨q, hq, rfl⟩ := map_eq_some_iff.mp hr
      rw [inUse, Bool.or_eq_false_iff, hq, any_some, Bool.not_eq_false'] at hno
      cases hpc : s.pc q with
      | freeing j stage =>
        rw [hpc] at hno
        rw [show j = k from of_decide_eq_true hno.2, role_freeing]
        exact .inr ⟨stage, rfl⟩
      | _ =>
        rw [hpc] at hno
        cases hno.2
  have hwait : ∀ q, s.pc q = .locking k → 0 < s.held k - 1 := by
    intro q hq
    rcases huse with h2 | hno
    · omega
    · rw [inUse, Bool.or_eq_false_iff] at hno
      exact absurd (decide_eq_true rfl) (any_eq_false.mp hno.1 _ (Pool.mem_of_getD hq nofun))
  have hL : LockOk (s.inode k) (s.held k - 1) (s.dinode k)
      ((s.inode k).lock.map (fun q => (s.pc q).role k)) := by
    have L := E.lock
    cases hr : (s.inode k).lock.map (fun q => (s.pc q).role k) with
    | none =>
      rwa [hr] at L
    | some r =>
      have h1 := hrole r hr
      rw [hr] at L
      cases r with
      | uses => exact ⟨h1.resolve_right (by rintro ⟨_, ⟨⟩⟩), L.2⟩
      | loads => exact ⟨L.1, h1.resolve_right (by rintro ⟨_, ⟨⟩⟩), L.2.2⟩
      | frees stage =>
        cases stage with
        | invalidate | unlock => exact L
        | _ => exact absurd L.2.1 (ne_of_gt hh)
  refine I.local_step hp rfl (update_eq_self k s.inode).symm rfl rfl (I.ref_pos hh) hx (.inl rfl)
    (.inr rfl) nofun ⟨rfl, rfl⟩ ?_ ?_ (fun _ => .inl hh)
  · simp only [puts, Bool.toNat_false, decide_true, Bool.toNat_true]
    omega
  · exact EntryOk.move ⟨hL, E.loads, E.frees, hwait⟩ (by rw [hx]; rfl) nofun

/-- `acquiresleep` in `ilock`. -/
theorem acquire (hx : s.pc p = .locking k) : Fine (s.acquire p k) := by
  unfold State.acquire
  by_cases hl : (s.inode k).lock = none
  swap
  · rw [if_neg hl]
    exact .inl rfl
  rw [if_pos hl]
  refine Inv.fine ?_
  have E := I.entry k
  have hh := E.waits p hx
  have L := E.lock
  rw [hl] at L
  refine I.local_step hp rfl rfl (update_eq_self ..).symm rfl (I.ref_pos hh) hx (.inr rfl)
    (.inr rfl) nofun ⟨rfl, rfl⟩ rfl (E.take hl rfl ?_ nofun) (fun _ => .inl hh)
  rw [role_loading]
  exact ⟨L.1, hh, fun hv => (L.2 (I.ref_pos hh) hv).1⟩

/-- **The end of `ilock`**: the type is not 0. -/
theorem load (hx : s.pc p = .loading k) :
    ∃ s', s.load p k = .ok s' ∧ Inv s' ∧ (s'.inode k).lock = some p ∧ (s'.inode k).valid = true ∧
      (s'.inode k).copy = s'.dinode k ∧ (s'.dinode k).type ≠ 0 := by
  have E := I.entry k
  have hl := E.loads p hx
  have L := E.lock
  rw [hl, map_some, hx, role_loading] at L
  obtain ⟨-, hh, hcopy⟩ := L
  have ht := I.typed k (.inl hh)
  have heq : s.load p k = .ok ((s.setInode k
      { s.inode k with copy := s.dinode k, valid := true }).setPc p .idle) := by
    unfold State.load
    dsimp only
    cases hv : (s.inode k).valid with
    | true =>
      have hself : { s.inode k with copy := s.dinode k, valid := true } = s.inode k := by
        rw [← hcopy hv, ← hv]
      rw [if_pos rfl, hself, setInode, update_eq_self]
    | false =>
      rw [if_neg Bool.false_ne_true]
      exact if_neg ht
  refine ⟨_, heq, ?_, ?_⟩
  · refine I.local_step hp rfl rfl (update_eq_self ..).symm rfl (I.ref_pos hh) hx (.inr rfl)
      (.inl rfl) nofun ⟨rfl, rfl⟩ rfl ?_ (fun _ => .inl hh)
    exact E.holder hl hl ⟨hh, rfl, ht, fun _ => rfl, I.dinode_root k⟩ id nofun
  · have hself := s.inode_setInode_self k { s.inode k with copy := s.dinode k, valid := true }
    have hd : ((s.setInode k { s.inode k with copy := s.dinode k, valid := true }).setPc p
        .idle).dinode k = s.dinode k := by
      show s.disk ((s.setInode k _).inode k).dev ((s.setInode k _).inode k).inum = _
      rw [hself]
      rfl
    rw [hd]
    show ((s.setInode k _).inode k).lock = _ ∧ ((s.setInode k _).inode k).valid = _ ∧
      ((s.setInode k _).inode k).copy = _ ∧ _
    rw [hself]
    exact ⟨hl, rfl, rfl, ht⟩

end

/-- A process that frees an inode has a reference besides this one. -/
theorem two_le_of_freeing (hx : s.pc p = .put k ∨ s.pc p = .drop k) {q : ℕ} {stage : Stage}
    (hq : s.pc q = .freeing k stage) : 2 ≤ (s.inode k).ref := by
  refine I.two_le_ref (p := p) ?_ ?_ (by rw [hq]; exact decide_eq_true rfl)
  · rintro rfl
    rcases hx with hx | hx <;> rw [hx] at hq <;> cases hq
  · rcases hx with hx | hx <;> rw [hx] <;> exact decide_eq_true rfl

section

variable (hp : p < s.procs.length)
include hp

/-- `ref--` at the end of `iput`. -/
theorem unrefer (hx : s.pc p = .put k ∨ s.pc p = .drop k) :
    Inv ((s.setInode k { s.inode k with ref := (s.inode k).ref - 1 }).setPc p .idle) := by
  have hputs : (s.pc p).puts k = true := by
    rcases hx with hx | hx <;> rw [hx] <;> exact decide_eq_true rfl
  have hlt := I.held_lt hputs
  have E := I.entry k
  have hrole : (s.pc p).role k = .uses := by rcases hx with hx | hx <;> rw [hx] <;> rfl
  refine I.local_step hp rfl rfl (update_eq_self ..).symm rfl (by omega) rfl (.inr ?_) (.inl rfl)
    nofun ⟨rfl, rfl⟩ ?_ ?_ (fun ha => ha.of_update rfl)
  · rcases hx with hx | hx <;> rw [hx] <;> rfl
  · rw [hputs]
    show (s.inode k).ref - 1 + s.held k + 1 = (s.inode k).ref + s.held k + 0
    omega
  · refine EntryOk.move ⟨E.lock.fewer (fun stage hs => ?_), E.loads, E.frees, E.waits⟩
      hrole.symm nofun
    obtain ⟨_, -, hq⟩ := map_eq_some_iff.mp hs
    exact I.two_le_of_freeing hx (role_eq_frees hq)

/-- **The first section of `iput`**: it can take the sleep-lock. -/
theorem putFirst (hx : s.pc p = .put k) : Fine (s.putFirst p k) := by
  have hlt := I.held_lt (by rw [hx]; exact decide_eq_true rfl)
  have E := I.entry k
  have L := E.lock
  unfold State.putFirst
  by_cases hcond : (s.inode k).ref = 1 ∧ (s.inode k).valid = true ∧ (s.inode k).copy.nlink = 0
  · rw [if_pos hcond]
    obtain ⟨hr, hv, hn⟩ := hcond
    have hh : s.held k = 0 := by omega
    have hl : (s.inode k).lock = none :=
      ((hh ▸ E : EntryOk k _ 0 _ _).of_unused fun q stage hq => by
        have := I.two_le_of_freeing (.inl hx) hq
        omega).1
    rw [hl] at L
    rw [if_pos hl]
    refine Inv.fine (I.local_step hp rfl rfl (update_eq_self ..).symm rfl (by omega) hx (.inr rfl)
      (.inr rfl) nofun ⟨rfl, rfl⟩ rfl (E.take hl rfl ?_ nofun)
      (fun _ => .inr ⟨p, by rw [hx]; exact decide_eq_true rfl⟩))
    rw [role_freeing]
    obtain ⟨hcopy, ht⟩ := L.2 (by omega) hv
    refine ⟨L.1, hh, hr, ⟨hn, by rw [hcopy]; exact ht⟩, ?_⟩
    rw [← hcopy]
    exact hn
  · rw [if_neg hcond]
    exact (I.unrefer hp (.inl hx)).fine

/-- **`iput` frees an inode.** -/
theorem freeing {stage : Stage} (hx : s.pc p = .freeing k stage) : Inv (s.free p k stage) := by
  have hputs : (s.pc p).puts k = true := by rw [hx]; exact decide_eq_true rfl
  have hpos : 0 < (s.inode k).ref := Nat.lt_of_le_of_lt (Nat.zero_le _) (I.held_lt hputs)
  have E := I.entry k
  have hl := E.frees p stage hx
  have L := E.lock
  rw [hl, map_some, hx, role_freeing] at L
  have hactive : (Pc.freeing k stage).early k = true → Active k (s.held k) s.pc :=
    fun h => .inr ⟨p, by rw [hx]; exact h⟩
  cases stage with
  | trunc =>
    obtain ⟨hc, hh, hr, ⟨hn, ht⟩, hd⟩ := L
    exact I.entry_step hp ⟨rfl, rfl, (update_eq_self ..).symm, rfl⟩ (I.same_unused hpos) hx
      (.inr rfl) (.inr rfl) nofun ⟨rfl, rfl⟩ rfl (E.freeing hl hl ⟨hc, hh, hr, hn, hn⟩)
      (fun _ => ht) (.inl fun q _ => I.not_claimed (hactive (decide_eq_true rfl)) q) (fun _ => hn)
      (fun h₁ h₂ => absurd hd (I.dinode_root k h₁ h₂))
  | clear =>
    exact I.local_step hp rfl rfl (update_eq_self ..).symm rfl hpos hx (.inr rfl) (.inr rfl) nofun
      ⟨rfl, rfl⟩ rfl (E.freeing hl hl L) (fun _ => hactive (decide_eq_true rfl))
  | write =>
    obtain ⟨hc, hh, hr, hn, hd⟩ := L
    refine I.entry_step (k := k) (h := s.held k) hp
      ⟨rfl, (update_eq_self k s.inode).symm, (update_eq_self ..).symm, rfl⟩ (I.same_unused hpos) hx
      (.inr rfl) (.inr rfl) nofun ⟨rfl, rfl⟩ rfl (E.freeing hl hl hc) (fun ha => ?_)
      (.inl fun q _ => I.not_claimed (hactive (decide_eq_true rfl)) q) (fun _ => hn)
      (fun h₁ h₂ => absurd hd (I.dinode_root k h₁ h₂))
    -- this is the last reference
    rcases ha with h0 | ⟨q, hq⟩
    · omega
    · have hqp : q ≠ p := by
        rintro rfl
        rw [update_self] at hq
        cases hq
      rw [update_of_ne hqp] at hq
      have := I.two_le_ref hqp hputs (puts_of_early hq)
      omega
  | invalidate =>
    exact I.local_step hp rfl rfl (update_eq_self ..).symm rfl hpos hx (.inr rfl) (.inr rfl) nofun
      ⟨rfl, rfl⟩ rfl (E.freeing hl hl ⟨L, rfl⟩) (fun ha => ha.of_update rfl)
  | unlock =>
    obtain ⟨hc, hinvalid⟩ := L
    refine I.local_step hp rfl rfl (update_eq_self ..).symm rfl hpos hx (.inr rfl) (.inr rfl) nofun
      ⟨rfl, rfl⟩ rfl (E.release hl rfl ⟨hc, fun _ hv => ?_⟩ rfl nofun) (fun ha => ha.of_update rfl)
    exact absurd (hinvalid.symm.trans hv) Bool.false_ne_true

/-- `ialloc` looks at an inode. -/
theorem iallocRound {ninodes dev inum : ℕ} {type : FileType} (hx : s.pc p = .alloc dev type inum) :
    Inv (s.iallocRound ninodes p dev type inum) := by
  have habout : (s.pc p).about = none := by rw [hx]; rfl
  unfold State.iallocRound
  by_cases hend : ninodes ≤ inum
  · rw [if_pos hend]
    exact I.aside hp habout rfl nofun
  rw [if_neg hend]
  by_cases hfree : (s.disk dev inum).type = 0
  · rw [if_pos hfree]
    exact I.mark hp type habout hfree
  · rw [if_neg hfree]
    exact I.aside hp habout rfl nofun

/-- **The next step of a process.** -/
theorem run (ninodes : ℕ) : Fine (s.run ninodes p) := by
  unfold State.run
  cases hx : s.pc p with
  | idle => exact .inl rfl
  | alloc => exact (I.iallocRound hp hx).fine
  | get => exact I.iget hp (by rw [hx]; rfl) (.inr hx)
  | locking => exact I.acquire hp hx
  | loading =>
    obtain ⟨_, heq, I', -⟩ := I.load hp hx
    dsimp only
    rw [heq]
    exact I'.fine
  | put => exact I.putFirst hp hx
  | freeing => exact (I.freeing hp hx).fine
  | drop => exact (I.unrefer hp (.inr hx)).fine

end

/-- **A step whose lookups find live inodes.** -/
theorem exec {ninodes : ℕ} {l : Label} (hok : s.Found l) : Fine (s.exec ninodes l) := by
  unfold State.exec
  by_cases hp : l.proc < s.procs.length
  swap
  · rw [if_neg hp]
    exact .inl rfl
  rw [if_pos hp]
  cases l with
  | root p => exact .guard fun hx => I.iget (p := p) hp (by rw [hx]; rfl) (.inl (.inl I.root))
  | lookup p k n =>
    refine .guard fun h => ?_
    cases he : s.entry k n with
    | none => exact .inl rfl
    | some inum => exact I.iget (p := p) hp (by rw [h.1.1]; rfl) (.inl (hok inum he))
  | ialloc p =>
    exact .guard fun hx => Inv.fine (I.aside hp (by rw [hx]; rfl) rfl nofun)
  | idup => exact .guard fun h => (I.idup hp h.1 h.2).fine
  | ilock =>
    refine .guard fun h => ?_
    rw [if_neg (not_lt.mpr (I.ref_pos h.2))]
    exact (I.ilock hp h.1 h.2).fine
  | set => exact .guard fun h => (I.set hp h.1 h.2.1 h.2.2).fine
  | iupdate => exact .guard fun h => (I.iupdate hp h).fine
  | write =>
    exact .guard fun _ => Inv.fine { I with claim := fun q _ _ hq => { I.claim q _ _ hq with } }
  | iunlock =>
    refine .guard fun h => ?_
    rw [if_neg (not_lt.mpr (I.ref_pos (I.uses h.1).1))]
    exact (I.iunlock hp h.1 h.2).fine
  | iput => exact .guard fun h => (I.iput hp h.1 h.2.1 h.2.2).fine
  | run => exact I.run hp ninodes

end

/-- After `iinit`. -/
theorem boot (n : ℕ) (hdisk : Image disk) (ents : ℕ → ℕ → List ℕ) : Inv (boot n disk ents) := by
  have hpc : ∀ p, (Itable.boot n disk ents).pc p = .idle := by
    intro p
    show (replicate n idle).getD p .idle = .idle
    rw [getD_eq_getElem?_getD, getElem?_replicate]
    split <;> rfl
  refine ⟨fun _ _ h => absurd h (lt_irrefl 0), fun k => ?_, fun k => ?_, fun k hk => ?_,
    fun p dev inum hp => ?_, hdisk.free, hdisk.root⟩
  · show 0 = 0 + (replicate n idle).countP (puts k)
    rw [countP_replicate]
    rfl
  · refine ⟨⟨rfl, nofun⟩, fun p hp => ?_, fun p stage hp => ?_, fun p hp => ?_⟩ <;>
      rw [hpc] at hp <;> cases hp
  · rcases hk with h0 | ⟨p, hp⟩
    · exact absurd h0 (lt_irrefl 0)
    · rw [hpc] at hp
      cases hp
  · rw [hpc] at hp
    cases hp

/-- **What holds in every state that is reached.** -/
theorem of_runs {n ninodes : ℕ} {ents : ℕ → ℕ → List ℕ} (hdisk : Image disk)
    (h : Lts.Runs (step ninodes) State.Found (Itable.boot n disk ents) s) : Inv s := by
  refine h.invariant (boot n hdisk ents) fun s l s' I hok hs => ?_
  rcases I.exec hok with he | he | ⟨s'', he, I'⟩
  · rw [step, he] at hs
    cases hs
  · rw [step, he] at hs
    cases hs
  · rw [step, he] at hs
    cases hs
    exact I'

end Inv

/-! ## The race -/

/-- **The inode table.** In every run in which the entries of directories that references
are taken through name live inodes, there is one entry for an inode, its count is that of
the references, `ilock` returns with the inode that is on disk, which is not free, and no
step panics, unless the table is full. -/
theorem inode_table {n ninodes : ℕ} {disk : ℕ → ℕ → Dinode} {ents : ℕ → ℕ → List ℕ}
    (hdisk : Image disk) {s : State}
    (h : Lts.Runs (step ninodes) State.Found (boot n disk ents) s) :
    (∀ j k, 0 < (s.inode j).ref → 0 < (s.inode k).ref → (s.inode j).dev = (s.inode k).dev →
      (s.inode j).inum = (s.inode k).inum → j = k) ∧ (∀ k, (s.inode k).ref = s.outstanding k) ∧
    (∀ p k, s.pc p = .loading k → ∃ s', s.exec ninodes (.run p) = .ok s' ∧
      (s'.inode k).lock = some p ∧ (s'.inode k).copy = s'.dinode k ∧ (s'.inode k).copy.type ≠ 0) ∧
    ∀ l e, s.Found l → s.exec ninodes l = .error (.panic e) → e = .iget := by
  have I := Inv.of_runs hdisk h
  refine ⟨fun j k hj hk hdev hinum => I.unique j k hj hk ⟨hdev, hinum⟩, I.count,
    fun p k hx => ?_, fun l e hok he => ?_⟩
  · have hp : p < s.procs.length := Pool.lt_length (show s.pc p ≠ .idle by rw [hx]; exact nofun)
    obtain ⟨s', heq, -, hl, -, hcopy, ht⟩ := I.load hp hx
    refine ⟨s', ?_, hl, hcopy, by rw [hcopy]; exact ht⟩
    rw [exec, if_pos (show (Label.run p).proc < _ from hp), call, run, hx]
    exact heq
  · rcases I.exec hok with hb | hb | ⟨s', hb, -⟩
    · rw [he] at hb
      cases hb
    · rw [he] at hb
      cases hb
      rfl
    · rw [he] at hb
      cases hb

/-- A disk with these inodes, from number 1 on. -/
def diskOf (inodes : List Dinode) (dev inum : ℕ) : Dinode :=
  if dev = ROOTDEV ∧ 0 < inum then inodes.getD (inum - 1) (.fresh 0) else .fresh 0

/-- A directory. -/
def dirOf (nlink : ℤ) : Dinode where
  type := T_DIR
  nlink := nlink
  size := 48
  addrs := fun _ => 0

theorem image_diskOf {inodes : List Dinode} (hfree : ∀ d ∈ inodes, d.type ≠ 0)
    (hroot : ∃ d ds, inodes = d :: ds ∧ d.nlink ≠ 0) : Image (diskOf inodes) := by
  refine ⟨fun dev inum ht => ?_, ?_⟩
  · unfold diskOf at ht ⊢
    split at ht
    · next h =>
      rw [if_pos h]
      rw [getD_eq_getElem?_getD] at ht ⊢
      cases hd : inodes[inum - 1]? with
      | none => rfl
      | some d =>
        rw [hd] at ht
        exact absurd ht (hfree d (mem_of_getElem? hd))
    · next h =>
      rw [if_neg h]
      rfl
  · obtain ⟨d, -, rfl, hd⟩ := hroot
    exact hd

/-- **The race.** Process 0 frees an inode, and process 1 allocates it again after it is free
on disk; they share the entry. When process 1 has the lock, it reads the new inode. -/
theorem inode_table_race : ∃ s s', Lts.Runs (step 4) State.Found
      (boot 2 (diskOf [dirOf 1]) (fun _ _ => [])) s ∧ s.pc 0 = .drop 0 ∧ s.pc 1 = .loading 0 ∧
    (s.inode 0).ref = 2 ∧ s.exec 4 (.run 1) = .ok s' ∧ (s'.inode 0).copy = s'.dinode 0 ∧
    (s'.inode 0).copy.type ≠ 0 := by
  obtain ⟨s, h, h₀, h₁, hr⟩ : ∃ s ∈ Lts.runIf (step 4) State.Found
      (boot 2 (diskOf [dirOf 1]) (fun _ _ => []))
      [.ialloc 0 1 ⟨2, by decide⟩, .run 0, .run 0, .run 0, .ilock 0 0, .run 0, .run 0, .iunlock 0 0,
        .iput 0 0, .run 0, .run 0, .run 0, .run 0,
        .ialloc 1 1 ⟨1, by decide⟩, .run 1, .run 1, .run 1, .ilock 1 0,
        .run 0, .run 0, .run 1],
      s.pc 0 = .drop 0 ∧ s.pc 1 = .loading 0 ∧ (s.inode 0).ref = 2 := by decide +kernel
  have himage : Image (diskOf [dirOf 1]) := by
    refine image_diskOf (fun d hd => ?_) ⟨_, _, rfl, by decide⟩
    rw [mem_singleton.mp hd]
    decide
  replace h := Lts.runs_of_runIf h
  obtain ⟨s', heq, -, hcopy, ht⟩ := (inode_table himage h).2.2.1 1 0 h₁
  exact ⟨s, s', h, h₀, h₁, hr, heq, hcopy, ht⟩

/-- The steps of `ilock` by process 0, if it does not wait. -/
def ilockSteps (k : Fin NINODE) : List Label := [.ilock 0 k, .run 0, .run 0]

/-- The steps of `iunlockput` by process 0, if it frees nothing. -/
def iunlockputSteps (k : Fin NINODE) : List Label := [.iunlock 0 k, .iput 0 k, .run 0]

/-- The steps of changing an inode by process 0. -/
def updateSteps (k : Fin NINODE) (d : Dinode) : List Label := [.set 0 k d, .iupdate 0 k]

/-- **A removed directory has an entry for a free inode.** In a tree with the directory `/a/b`,
a process calls `chdir("/a/b")`, `unlink("/a/b")` and `unlink("/a")`, and then
`chdir("..")`: the entry `..` of its current directory is still for `/a`, and `ilock`
panics. -/
theorem dotdot_of_removed : Image (diskOf [dirOf 2, dirOf 2, dirOf 1]) ∧
    ∃ s, Lts.Runs (step 10) (fun _ _ => True) (boot 1 (diskOf [dirOf 2, dirOf 2, dirOf 1])
        (fun _ inum => [[], [1, 1, 2], [2, 1, 3], [3, 2]].getD inum [])) s ∧
      s.exec 10 (.run 0) = .error (.panic .noType) := by
  refine ⟨image_diskOf (by simp [dirOf]) ⟨_, _, rfl, by decide⟩, ?_⟩
  obtain ⟨s, h, hs⟩ : ∃ s ∈ Lts.run (step 10) (boot 1 (diskOf [dirOf 2, dirOf 2, dirOf 1])
      (fun _ inum => [[], [1, 1, 2], [2, 1, 3], [3, 2]].getD inum []))
    -- chdir("/a/b")
    ([.root 0] ++ ilockSteps 0 ++ [.lookup 0 0 2] ++ iunlockputSteps 0 ++
      ilockSteps 1 ++ [.lookup 0 1 2] ++ iunlockputSteps 1 ++ ilockSteps 0 ++ [.iunlock 0 0] ++
    -- unlink("/a/b")
      [.root 0] ++ ilockSteps 1 ++ [.lookup 0 1 2] ++ iunlockputSteps 1 ++
      ilockSteps 2 ++ [.iunlock 0 2] ++ ilockSteps 2 ++ [.lookup 0 2 2] ++ ilockSteps 0 ++
      [.write 0 2 [2, 1]] ++ updateSteps 2 (dirOf 1) ++ iunlockputSteps 2 ++
      updateSteps 0 (dirOf 0) ++ iunlockputSteps 0 ++
    -- unlink("/a")
      [.root 0] ++ ilockSteps 1 ++ [.iunlock 0 1] ++ ilockSteps 1 ++ [.lookup 0 1 2] ++
      ilockSteps 2 ++ [.write 0 1 [1, 1]] ++ updateSteps 1 (dirOf 1) ++ iunlockputSteps 1 ++
      updateSteps 2 (dirOf 0) ++ iunlockputSteps 2 ++ replicate 6 (.run 0) ++
    -- chdir("..")
      [.idup 0 0] ++ ilockSteps 0 ++ [.lookup 0 0 1] ++ iunlockputSteps 0 ++
      [.ilock 0 1, .run 0]),
      (match s.exec 10 (.run 0) with
        | .error e => decide (e = .panic .noType)
        | .ok _ => false) = true := by decide +kernel
  refine ⟨s, Lts.runs_of_run h, ?_⟩
  cases he : s.exec 10 (.run 0) with
  | error =>
    rw [he] at hs
    rw [of_decide_eq_true hs]
  | ok =>
    rw [he] at hs
    cases hs

end Xv6.Itable
