import Mathlib.Algebra.BigOperators.Intervals
import Mathlib.Algebra.Order.BigOperators.Group.Finset
import OsProject.MkfsImage

/-!
# Building an image

What `main` of mkfs does, call by call: each of `ialloc`, `iappend` and the loops over
the files either makes the next image, with the inodes and the contents that one expects
(`Built`), or fails, and then a file is too long or the blocks do not suffice (`Over`).
The contents are kept as a function from inode numbers to bytes, of which `added` says
how the files extend it.
-/

namespace Xv6.Mkfs

open Function (update update_eq_self update_idem update_of_ne update_self)

open Blocks Finset
open Blocks.State (dirent)

variable {D D' : Disk} {i n' n : ℕ} {data data' : ℕ → List UInt8}

/-! ## Invariants -/

/-- The blocks of an image whose inodes `1, ..., n - 1` hold `data`. -/
def total (n : ℕ) (data : ℕ → List UInt8) : ℕ :=
  nmeta + ∑ i ∈ Finset.Ico 1 n, taken (nblocks (data i).length)

/-- The data is too much for an image with these inodes: a file is too long, or there are
not enough blocks. -/
def Over (n : ℕ) (data : ℕ → List UInt8) : Prop :=
  (∃ i, 1 ≤ i ∧ i < n ∧ MAXFILE * BSIZE < (data i).length) ∨ FSSIZE < total n data

theorem total_mono (hn : n ≤ n')
    (h : ∀ i, (data i).length ≤ (data' i).length) : total n data ≤ total n' data' := by
  refine Nat.add_le_add_left ?_ _
  calc ∑ i ∈ Finset.Ico 1 n, taken (nblocks (data i).length)
      ≤ ∑ i ∈ Finset.Ico 1 n, taken (nblocks (data' i).length) :=
        sum_le_sum (fun i _ => taken_mono (nblocks_mono (h i)))
    _ ≤ ∑ i ∈ Finset.Ico 1 n', taken (nblocks (data' i).length) :=
        sum_le_sum_of_subset (Finset.Ico_subset_Ico_right hn)

/-- More data is still too much. -/
theorem Over.mono (ho : Over n data) (hn : n ≤ n')
    (h : ∀ i, (data i).length ≤ (data' i).length) : Over n' data' := by
  rcases ho with ⟨i, h1, hi, hlt⟩ | hlt
  · exact .inl ⟨i, h1, hi.trans_le hn, hlt.trans_le (h i)⟩
  · exact .inr (hlt.trans_le (total_mono hn h))

/-- **An image as `main` builds it**: the inodes below `freeinode` are in use, the first
for the root directory and the others for files, and hold `data`. -/
structure Built (D : Disk) (data : ℕ → List UInt8) : Prop where
  image : Image D data
  inodes : 1 ≤ D.freeinode ∧ D.freeinode ≤ inodeSlots
  type : ∀ i, i < inodeSlots → (D.dinode i).type =
    if 1 ≤ i ∧ i < D.freeinode then if i = ROOTINO then T_DIR else T_FILE else 0
  size : ∀ i, 1 ≤ i → i < D.freeinode → (D.dinode i).size = (data i).length
  rest : ∀ i, D.freeinode ≤ i → data i = []
  blocks : D.freeblock = total D.freeinode data
  super : D.img 1 = blank.img 1

namespace Built

theorem allocated_iff (B : Built D data) :
    Allocated config D.dinode i ↔ 1 ≤ i ∧ i < D.freeinode := by
  constructor
  · rintro ⟨hlt, ht⟩
    rw [B.type i hlt] at ht
    by_contra hc
    rw [if_neg hc] at ht
    exact ht rfl
  · intro h
    have hlt : i < inodeSlots := lt_of_lt_of_le h.2 B.inodes.2
    refine ⟨hlt, ?_⟩
    rw [B.type i hlt, if_pos h]
    split <;> decide

/-- The inode in memory at the start of `iappend`. -/
theorem writing (B : Built D data) (h : 1 ≤ i ∧ i < D.freeinode) :
    Writing D i (D.dinode i) (data i) (nblocks (data i).length) data := by
  have ha := B.allocated_iff.mpr h
  refine ⟨⟨?_, ha.1, ha.2⟩, B.image.fits i ha, B.image.stored i ha,
    fun j _ hj => B.image.stored j hj, B.image.blank, B.image.room⟩
  show Owned config (update D.dinode i (D.dinode i)) D.img _
  rw [update_eq_self]
  exact B.image.owned

/-- The blocks when one file has other contents. -/
theorem total_update (n : ℕ) (data : ℕ → List UInt8) (h : 1 ≤ i ∧ i < n) (bytes : List UInt8) :
    total n (update data i bytes) + taken (nblocks (data i).length) =
      total n data + taken (nblocks bytes.length) := by
  have hi : i ∈ Finset.Ico 1 n := mem_Ico.mpr h
  have hrest : ∑ j ∈ (Finset.Ico 1 n).erase i, taken (nblocks (update data i bytes j).length) =
      ∑ j ∈ (Finset.Ico 1 n).erase i, taken (nblocks (data j).length) :=
    sum_congr rfl (fun j hj => by rw [update_of_ne (ne_of_mem_erase hj)])
  rw [total, total, ← add_sum_erase _ _ hi, ← add_sum_erase _ _ hi, hrest,
    update_self]
  omega

/-- **`iappend` adds the bytes to the file**, unless it becomes too long or there are not
enough blocks. -/
theorem iappend (B : Built D data) (h : 1 ≤ i ∧ i < D.freeinode) (p : List UInt8) :
    (∃ D', D.iappend i p = .ok D' ∧ D'.freeinode = D.freeinode ∧
      Built D' (update data i (data i ++ p))) ∨ ((∃ e, D.iappend i p = .error e) ∧
      Over D.freeinode (update data i (data i ++ p))) := by
  have hlt : i < inodeSlots := lt_of_lt_of_le h.2 B.inodes.2
  have htotal := total_update D.freeinode data h (data i ++ p)
  have hblocks := B.blocks
  rw [Disk.iappend, D.rinode_eq hlt, ok_bind, B.size i h.1 h.2]
  rcases (B.writing h).iappendLoop (le_refl p.length) with
    ⟨_, _, heq, W, hk, ht, hb⟩ | ⟨⟨e, heq⟩, hb⟩
  · rw [heq, ok_bind]
    have hsize : (data i ++ p).length < 2 ^ 32 :=
      lt_of_le_of_lt (W.stored.room.trans (Nat.mul_le_mul_right _ W.stored.le)) (by decide)
    obtain ⟨D', he, hfi, hfb, hdin, hsuper, I⟩ := W.winode
      (fun j _ hj => hk.dinode ▸ B.image.fits j (hk.dinode ▸ hj)) (W.fits.setSize hsize) rfl rfl
    rw [hk.freeinode] at hfi
    rw [hk.dinode] at hdin
    refine .inl ⟨D', he, hfi, I, hfi.symm ▸ B.inodes, fun j hj => ?_, fun j h1 h2 => ?_,
      fun j hj => ?_, ?_, (hsuper.trans hk.super).trans B.super⟩
    · rw [hfi, ← B.type j hj, hdin]
      by_cases hji : j = i
      · rw [hji, update_self]
        exact ht
      · rw [update_of_ne hji]
    · rw [hdin]
      by_cases hji : j = i
      · rw [hji, update_self, update_self]
      · rw [update_of_ne hji, update_of_ne hji]
        exact B.size j h1 (hfi ▸ h2)
    · rw [hfi] at hj
      rw [update_of_ne (by omega), B.rest j hj]
    · rw [hfi, hfb]
      omega
  · rw [heq]
    refine .inr ⟨⟨e, rfl⟩, hb.imp (fun hlt => ?_) (fun hlt => ?_)⟩
    · exact ⟨i, h.1, h.2, by rwa [update_self]⟩
    · omega

/-- **All that is read from a file is added to the inode.** -/
theorem iappendAll (B : Built D data) (h : 1 ≤ i ∧ i < D.freeinode) (chunks : List (List UInt8)) :
    (∃ D', Disk.iappendAll i chunks D = .ok D' ∧ D'.freeinode = D.freeinode ∧
      Built D' (update data i (data i ++ (chunks.takeWhile (· ≠ [])).flatten))) ∨
    ((∃ e, Disk.iappendAll i chunks D = .error e) ∧ Over D.freeinode (update data i
        (data i ++ (chunks.takeWhile (· ≠ [])).flatten))) := by
  induction chunks generalizing D data with
  | nil =>
    refine .inl ⟨D, rfl, rfl, ?_⟩
    rw [List.takeWhile_nil, List.flatten_nil, List.append_nil, update_eq_self]
    exact B
  | cons p ps ih =>
    unfold Disk.iappendAll
    by_cases hp : p = []
    · rw [if_pos hp, List.takeWhile_cons_of_neg (by simp [hp]), List.flatten_nil,
        List.append_nil, update_eq_self]
      exact .inl ⟨D, rfl, rfl, B⟩
    rw [if_neg hp, List.takeWhile_cons_of_pos (by simpa using hp), List.flatten_cons,
      ← List.append_assoc]
    rcases B.iappend h p with ⟨_, heq, hfi, B₁⟩ | ⟨⟨e, heq⟩, ho⟩
    · rw [heq, ok_bind]
      have := ih B₁ (hfi.symm ▸ h)
      rwa [hfi, update_self, update_idem] at this
    · rw [heq]
      refine .inr ⟨⟨e, rfl⟩, ho.mono le_rfl (fun j => ?_)⟩
      by_cases hj : j = i
      · rw [hj, update_self, update_self]
        exact (List.sublist_append_left _ _).length_le
      · rw [update_of_ne hj, update_of_ne hj]

/-- **`ialloc` takes the next inode.** -/
theorem ialloc (B : Built D data) (type : ℕ) (hlt : D.freeinode < inodeSlots)
    (htype : type = if D.freeinode = ROOTINO then T_DIR else T_FILE) :
    ∃ D', D.ialloc type = .ok (D', D.freeinode) ∧ D'.freeinode = D.freeinode + 1 ∧
      Built D' data := by
  have hle := B.inodes.1
  obtain ⟨d, hd⟩ : ∃ d : Dinode, d = { Dinode.fresh type with nlink := 1 } := ⟨_, rfl⟩
  have hd0 : d.type ≠ 0 := by
    rw [hd, htype]
    split <;> decide
  have hnum : ∀ q, d.number D.img q = 0 := by
    subst hd
    rintro (_ | _) <;> simp [Dinode.number, Dinode.fresh]
  have hfree : ¬ Allocated config D.dinode D.freeinode := by
    rw [B.allocated_iff]
    omega
  -- the new inode has no blocks, and the old one had none either
  have hheld : held config (update D.dinode D.freeinode d) D.img =
      held config D.dinode D.img := by
    funext p
    obtain ⟨j, q⟩ := p
    by_cases hj : j = D.freeinode
    · rw [hj, held_update ⟨hlt, by rwa [update_self]⟩, hnum, held, if_neg hfree]
    · exact held_update_of_ne hj q
  have hfits : Fits d := by
    subst hd
    refine ⟨?_, by simp, by simp [Dinode.fresh], fun j => by simp [Dinode.fresh], fun j _ => rfl⟩
    rw [htype]
    split <;> decide
  have W : Writing { D with freeinode := D.freeinode + 1 } D.freeinode d []
      (nblocks ([] : List UInt8).length) data := by
    refine ⟨⟨?_, hlt, hd0⟩, hfits, ⟨fun bn => ?_, ?_, Nat.zero_le _, Nat.zero_le _,
      fun bn hbn => absurd hbn (Nat.not_lt_zero bn)⟩,
      fun j _ hj => B.image.stored j hj, B.image.blank, B.image.room⟩
    · show Ownership.Exact _ _ (held config (update D.dinode D.freeinode d) D.img) _
      rw [hheld]
      exact B.image.owned
    · exact iff_of_false (fun h => h (hnum _)) (Nat.not_lt_zero _)
    · refine iff_of_false (fun h => h ?_) (Nat.not_lt_zero _)
      rw [← Dinode.number_slot d D.img le_rfl, hnum]
  obtain ⟨D', he, hfi, hfb, hdin, hsuper, I⟩ := W.winode
    (fun j _ hj => B.image.fits j hj) hfits rfl rfl
  rw [show update data D.freeinode [] = data by
    rw [← B.rest _ le_rfl, update_eq_self]] at I
  change D'.freeinode = D.freeinode + 1 at hfi
  change D'.dinode = update D.dinode D.freeinode d at hdin
  refine ⟨D', ?_, hfi, I, by omega, fun j hj => ?_, fun j h1 h2 => ?_, fun j hj => ?_, ?_,
    hsuper.trans B.super⟩
  · rw [Disk.ialloc]
    rw [← hd, he]
    rfl
  · rw [hdin, hfi]
    by_cases hj' : j = D.freeinode
    · rw [hj', update_self, if_pos (by omega), hd, ← htype]
      rfl
    · rw [update_of_ne hj', B.type j hj]
      congr 1
      simp only [eq_iff_iff]
      omega
  · rw [hdin]
    by_cases hj' : j = D.freeinode
    · rw [hj', update_self, hd, B.rest _ le_rfl]
      rfl
    · rw [update_of_ne hj', B.size j h1 (by omega)]
  · exact B.rest j (by omega)
  · rw [hfi, hfb, total, sum_Ico_succ_top (by omega), B.rest _ le_rfl]
    exact B.blocks

end Built

/-- The image without files. -/
theorem built_blank : Built blank (fun _ => []) := by
  have hsec : ∀ b, 1 < b → blank.img b = .zero := by
    intro b hb
    unfold blank
    dsimp only
    rw [update_of_ne (by omega)]
  have hdin : ∀ i, (blank.dinode i).type = 0 := by
    intro i
    rw [Disk.dinode]
    split
    · next hi =>
      rw [hsec _ (Disk.sector_of_inode hi).1]
      rfl
    · rfl
  have hno : ∀ i, ¬ Allocated config blank.dinode i := fun i h => h.2 (hdin i)
  have hheld : ∀ p, held config blank.dinode blank.img p = 0 := fun p => if_neg (hno p.1)
  refine ⟨⟨⟨?_, ?_, fun b hb _ => ?_, fun b hb => ?_, by decide⟩, fun j hj => absurd hj (hno j),
    fun j hj => absurd hj (hno j), fun b hb => hsec b (lt_of_lt_of_le (by decide) hb), by decide⟩,
    by decide, fun i _ => ?_, fun i h1 h2 => absurd h2 h1.not_gt, fun _ _ => rfl, rfl,
    rfl⟩
  · exact fun p q hp => absurd (hheld p) hp
  · exact fun p hp => absurd (hheld p) hp
  · refine iff_of_false (fun h => ?_) fun hmem => ?_
    · exact absurd (of_decide_eq_true h) hb.not_gt
    · obtain ⟨p, hp⟩ := hmem
      rw [hheld] at hp
      exact absurd hb (by rw [← hp]; decide)
  · exact decide_eq_true hb
  · rw [hdin, if_neg]
    show ¬ (1 ≤ i ∧ i < 1)
    omega

/-! ## The root directory -/

/-- The entries for the root directory itself. -/
def dots : List UInt8 := dirent dot ROOTINO ++ dirent dotdot ROOTINO

/-- **The image with an empty root directory.** -/
theorem withRoot_eq : ∃ D, withRoot = .ok D ∧ D.freeinode = 2 ∧
    Built D (update (fun _ => []) ROOTINO dots) := by
  obtain ⟨D₁, heq, hfi, B₁⟩ := built_blank.ialloc T_DIR (by decide) rfl
  have h₁ : 1 ≤ ROOTINO ∧ ROOTINO < D₁.freeinode := by
    rw [hfi]
    decide
  have hover : ∀ bytes : List UInt8, bytes.length ≤ 32 →
      ¬ Over 2 (update (fun _ => []) ROOTINO bytes) := by
    rintro bytes hb (⟨i, h1, h2, hlt⟩ | hlt)
    · have hmax : 32 < MAXFILE * BSIZE := by decide
      obtain rfl : i = ROOTINO := by
        simp only [ROOTINO]
        omega
      rw [update_self] at hlt
      omega
    · have hone : taken (nblocks bytes.length) ≤ 1 := taken_mono (nblocks_mono hb)
      have hmeta : nmeta + 1 ≤ FSSIZE := by decide
      rw [total, sum_Ico_succ_top le_rfl, Finset.Ico_self, sum_empty,
        update_self] at hlt
      omega
  rw [withRoot, heq, ok_bind, show blank.freeinode = ROOTINO from rfl]
  dsimp only
  rw [if_neg (by decide)]
  rcases B₁.iappend h₁ (dirent dot ROOTINO) with ⟨_, heq₂, hfi₂, B₂⟩ | ⟨_, ho⟩
  swap
  · rw [hfi] at ho
    exact absurd ho (hover _ (by decide))
  rcases B₂.iappend (hfi₂ ▸ h₁) (dirent dotdot ROOTINO) with ⟨D₃, heq₃, hfi₃, B₃⟩ | ⟨_, ho⟩
  swap
  · rw [hfi₂, hfi, update_self, update_idem] at ho
    exact absurd ho (hover _ (by decide))
  rw [update_self, update_idem] at B₃
  refine ⟨D₃, ?_, hfi₃.trans (hfi₂.trans hfi), B₃⟩
  rw [heq₂]
  exact heq₃

/-! ## The files -/

/-- What the inodes hold when the files `fs` have been added, from inode `n` on. -/
def added : ℕ → List Input → (ℕ → List UInt8) → ℕ → List UInt8
  | _, [], data => data
  | n, f :: fs, data =>
    added (n + 1) fs (update (update data ROOTINO (data ROOTINO ++ dirent f.name n)) n f.contents)

/-- A file that mkfs can add. -/
structure Addable (f : Input) : Prop where
  slash : slash ∉ shortname f.path
  opens : f.chunks ≠ none
  name : f.name.length ≤ DIRSIZ

instance (f : Input) : Decidable (Addable f) :=
  decidable_of_iff (Xv6.slash ∉ shortname f.path ∧ f.chunks ≠ none ∧ f.name.length ≤ DIRSIZ)
    ⟨fun h => ⟨h.1, h.2.1, h.2.2⟩, fun h => ⟨h.slash, h.opens, h.name⟩⟩

/-- **A file is added** with an entry in the root directory. -/
theorem Built.addFile (B : Built D data) (h2 : 2 ≤ D.freeinode) (hlt : D.freeinode < inodeSlots)
    (f : Input) : (∃ D', addFile D f = .ok D' ∧ D'.freeinode = D.freeinode + 1 ∧
      Built D' (added D.freeinode [f] data)) ∨ ((∃ e, addFile D f = .error e) ∧
      (¬ Addable f ∨ Over (D.freeinode + 1) (added D.freeinode [f] data))) := by
  unfold Mkfs.addFile
  by_cases hs : slash ∈ shortname f.path
  · rw [if_pos hs]
    exact .inr ⟨⟨_, rfl⟩, .inl (fun h => h.slash hs)⟩
  rw [if_neg hs]
  cases hc : f.chunks with
  | none => exact .inr ⟨⟨_, rfl⟩, .inl (fun h => h.opens hc)⟩
  | some chunks =>
    dsimp only
    by_cases hn : DIRSIZ < f.name.length
    · rw [if_pos hn]
      exact .inr ⟨⟨_, rfl⟩, .inl (fun h => absurd h.name hn.not_ge)⟩
    rw [if_neg hn]
    obtain ⟨_, heq₁, hfi₁, B₁⟩ := B.ialloc T_FILE hlt
      (by rw [if_neg]; simp only [ROOTINO]; omega)
    rw [heq₁, ok_bind]
    have hroot : D.freeinode ≠ ROOTINO := by
      simp only [ROOTINO]
      omega
    have hcont : f.contents = (chunks.takeWhile (· ≠ [])).flatten := by
      rw [Input.contents, hc]
      rfl
    have hnew : data D.freeinode = [] := B.rest _ le_rfl
    rcases B₁.iappend (i := ROOTINO) ⟨le_rfl, by rw [hfi₁]; simp only [ROOTINO]; omega⟩
      (dirent f.name D.freeinode) with ⟨_, heq₂, hfi₂, B₂⟩ | ⟨⟨e, heq₂⟩, ho⟩
    swap
    · rw [heq₂]
      refine .inr ⟨⟨e, rfl⟩, .inr ((hfi₁ ▸ ho).mono le_rfl (fun j => ?_))⟩
      rw [added, added]
      by_cases hj : j = D.freeinode
      · rw [hj, update_of_ne hroot, hnew]
        exact Nat.zero_le _
      · rw [update_of_ne hj]
    rw [heq₂, ok_bind]
    have h := B₂.iappendAll (i := D.freeinode) ⟨by omega, by omega⟩ chunks
    rw [update_of_ne hroot, hnew, List.nil_append, ← hcont, hfi₂, hfi₁] at h
    exact h.imp id (And.imp_right .inr)

variable {n : ℕ} {fs : List Input}

theorem added_cons (n : ℕ) (f : Input) (fs : List Input) (data : ℕ → List UInt8) :
    added n (f :: fs) data = added (n + 1) fs (added n [f] data) := rfl

theorem added_one_root (hn : 2 ≤ n) (f : Input) (data : ℕ → List UInt8) :
    added n [f] data ROOTINO = data ROOTINO ++ dirent f.name n := by
  rw [added, added, update_of_ne (by simp only [ROOTINO]; omega), update_self]

theorem added_one_of_ne (f : Input) (data : ℕ → List UInt8) (hi : i ≠ n)
    (hr : i ≠ ROOTINO) : added n [f] data i = data i := by
  rw [added, added, update_of_ne hi, update_of_ne hr]

/-- The other inodes stay as they are. -/
theorem added_of_lt (hi : i < n) (hr : i ≠ ROOTINO) : added n fs data i = data i := by
  induction fs generalizing n data with
  | nil => rfl
  | cons f fs ih =>
    rw [added_cons, ih (Nat.lt_succ_of_lt hi), added_one_of_ne f data (ne_of_lt hi) hr]

/-- **A file holds its contents.** -/
theorem added_file (hn : 2 ≤ n) {k : ℕ} (hk : k < fs.length) :
    added n fs data (n + k) = fs[k].contents := by
  induction fs generalizing n data k with
  | nil => exact absurd hk (Nat.not_lt_zero k)
  | cons f fs ih =>
    rw [added_cons]
    cases k with
    | zero =>
      show added (n + 1) fs (added n [f] data) n = f.contents
      rw [added_of_lt (Nat.lt_succ_self n) (by simp only [ROOTINO]; omega), added, added,
        update_self]
    | succ k =>
      rw [show n + (k + 1) = n + 1 + k by omega]
      exact ih (by omega) (Nat.lt_of_succ_lt_succ hk)

/-- **The root directory holds an entry for each file.** -/
theorem added_root (hn : 2 ≤ n) : added n fs data ROOTINO =
      data ROOTINO ++ (fs.zipIdx n).flatMap (fun x => dirent x.1.name x.2) := by
  induction fs generalizing n data with
  | nil => exact (List.append_nil _).symm
  | cons f fs ih =>
    rw [added_cons, ih (by omega), added_one_root hn, List.append_assoc]
    rfl

/-- Adding files makes none shorter. -/
theorem length_le_added (hn : 2 ≤ n) (hrest : ∀ i, n ≤ i → data i = []) (i : ℕ) :
    (data i).length ≤ (added n fs data i).length := by
  by_cases hr : i = ROOTINO
  · rw [hr, added_root hn]
    exact (List.sublist_append_left _ _).length_le
  · by_cases hi : i < n
    · rw [added_of_lt hi hr]
    · rw [hrest i (not_lt.mp hi)]
      exact Nat.zero_le _

/-- **The files are added one after the other**, if mkfs can add each of them and they are
not too much. -/
theorem Built.addFiles (B : Built D data) (fs : List Input) (h2 : 2 ≤ D.freeinode)
    (hlen : D.freeinode + fs.length ≤ inodeSlots) :
    (∃ D', addFiles fs D = .ok D' ∧ D'.freeinode = D.freeinode + fs.length ∧
      Built D' (added D.freeinode fs data)) ∨ ((∃ e, addFiles fs D = .error e) ∧
      ((∃ f ∈ fs, ¬ Addable f) ∨ Over (D.freeinode + fs.length) (added D.freeinode fs data))) := by
  induction fs generalizing D data with
  | nil => exact .inl ⟨D, rfl, rfl, B⟩
  | cons f fs ih =>
    rw [List.length_cons] at hlen ⊢
    rw [Mkfs.addFiles, added_cons]
    rcases B.addFile h2 (by omega) f with ⟨_, heq, hfi, B₁⟩ | ⟨⟨e, heq⟩, hbad⟩
    · have := ih B₁ (by omega) (by omega)
      rw [hfi, add_right_comm, add_assoc] at this
      rw [heq, ok_bind]
      exact this.imp id (And.imp_right (Or.imp_left
        (fun ⟨g, hg, hbad⟩ => ⟨g, List.mem_cons_of_mem f hg, hbad⟩)))
    · rw [heq]
      refine .inr ⟨⟨e, rfl⟩, hbad.imp (fun h => ⟨f, List.mem_cons_self, h⟩) (fun ho => ?_)⟩
      refine ho.mono (by omega) (length_le_added (by omega) (fun i hi => ?_))
      rw [added_one_of_ne f data (by omega) (by simp only [ROOTINO]; omega)]
      exact B.rest i (by omega)

end Xv6.Mkfs
