import Mathlib.Algebra.BigOperators.Fin
import OsProject.MkfsBuild

/-!
# mkfs and the kernel agree on the format

The image that mkfs has finished is read by the kernel with its own code. The kernel
takes from the super block where the inodes and the bitmap are, so it sees the inodes
that mkfs has written and the blocks that mkfs has handed out (`Finished.dinode_eq`,
`Finished.bitmap_eq`), and the bitmap is exact (`Finished.owned`).

Two things can be wrong with an image. `ialloc` does not compare the number of the inode
with `NINODES`. And the size of the root directory is rounded up to a multiple of `BSIZE`
that is larger than its length, also if its length is a multiple of `BSIZE` already; then
the directory has no block for the last part of its size. The image is well formed if and
only if neither happens (`mkfs_wellFormed_iff`).

On every image `dirlookup` finds the files in the root directory, whose entries are all in
the part that has blocks, and `readi` reads what mkfs was given (`Finished.reads`).
-/

namespace Xv6.Mkfs

open Function (update update_eq_self update_of_ne update_self)

open Blocks List Disk
open Blocks.State (dirent)

variable {D D' : Disk} {i len k : ℕ} {data : ℕ → List UInt8} {files : List Input}
  {bytes name de : List UInt8} {B : ℕ → Block} {d : Dinode} {s : State}

/-! ## The number of inodes -/

namespace Disk

theorem freeinode_winode (h : D.winode i d = .ok D') : D'.freeinode = D.freeinode := by
  obtain ⟨_, -, h⟩ := exists_of_bind_eq_ok h
  rw [← Except.ok.inj h]
  rfl

variable {din : Dinode} {p : List UInt8} {r : Disk × Dinode × ℕ}

theorem freeinode_blockFor {fbn : ℕ} (h : D.blockFor din fbn = .ok r) :
    r.1.freeinode = D.freeinode := by
  unfold blockFor at h
  split at h
  · split at h <;> rw [← Except.ok.inj h]
  · split_ifs at h with h0
    · obtain ⟨buf, -, h⟩ := exists_of_bind_eq_ok h
      split at h
      · rw [← Except.ok.inj h]
        rfl
      · rw [← Except.ok.inj h]
    · obtain ⟨buf, -, h⟩ := exists_of_bind_eq_ok h
      split at h
      · rw [← Except.ok.inj h]
        rfl
      · rw [← Except.ok.inj h]

theorem freeinode_iappendLoop {rounds off : ℕ}
    (h : iappendLoop rounds D din off p = .ok r) : r.1.freeinode = D.freeinode := by
  induction rounds generalizing D din off p with
  | zero => rw [← Except.ok.inj h]
  | succ rounds ih =>
    unfold iappendLoop at h
    split at h
    · rw [← Except.ok.inj h]
    dsimp only at h
    split_ifs at h
    obtain ⟨_, hx, h⟩ := exists_of_bind_eq_ok h
    obtain ⟨_, -, h⟩ := exists_of_bind_eq_ok h
    exact (ih h).trans (freeinode_blockFor hx)

theorem freeinode_iappend (h : D.iappend i p = .ok D') : D'.freeinode = D.freeinode := by
  obtain ⟨_, -, h⟩ := exists_of_bind_eq_ok h
  obtain ⟨_, hx, h⟩ := exists_of_bind_eq_ok h
  exact (freeinode_winode h).trans (freeinode_iappendLoop hx)

theorem freeinode_iappendAll {chunks : List (List UInt8)} (h : iappendAll i chunks D = .ok D') :
    D'.freeinode = D.freeinode := by
  induction chunks generalizing D with
  | nil => rw [← Except.ok.inj h]
  | cons p ps ih =>
    unfold iappendAll at h
    split at h
    · rw [← Except.ok.inj h]
    · obtain ⟨_, h₁, h⟩ := exists_of_bind_eq_ok h
      exact (ih h).trans (freeinode_iappend h₁)

theorem freeinode_ialloc {type : ℕ} {r : Disk × ℕ} (h : D.ialloc type = .ok r) :
    r.1.freeinode = D.freeinode + 1 := by
  obtain ⟨_, h₁, h⟩ := exists_of_bind_eq_ok h
  rw [← Except.ok.inj h]
  exact freeinode_winode h₁

end Disk

theorem freeinode_addFiles {fs : List Input} (h : addFiles fs D = .ok D') :
    D'.freeinode = D.freeinode + fs.length := by
  induction fs generalizing D with
  | nil => rw [← Except.ok.inj h]; rfl
  | cons f fs ih =>
    obtain ⟨_, h₁, h⟩ := exists_of_bind_eq_ok h
    rw [ih h, length_cons]
    unfold addFile at h₁
    split at h₁
    · cases h₁
    split at h₁
    · cases h₁
    split at h₁
    · cases h₁
    obtain ⟨_, hx, h₁⟩ := exists_of_bind_eq_ok h₁
    obtain ⟨_, h₂, h₁⟩ := exists_of_bind_eq_ok h₁
    rw [freeinode_iappendAll h₁, freeinode_iappend h₂, freeinode_ialloc hx]
    omega

/-- The end of `main`. -/
def finish (D : Disk) : Except Failure Disk := do
  let din ← D.rinode ROOTINO
  let D ← D.winode ROOTINO { din with size := (din.size / BSIZE + 1) * BSIZE }
  D.balloc D.freeblock

theorem mkfs_eq (files : List Input) :
    mkfs files = (do let D ← withRoot; let D ← addFiles files D; finish D) := rfl

theorem freeinode_finish (h : finish D = .ok D') : D'.freeinode = D.freeinode := by
  obtain ⟨_, -, h⟩ := exists_of_bind_eq_ok h
  obtain ⟨_, h₁, h⟩ := exists_of_bind_eq_ok h
  rw [← freeinode_winode h₁]
  unfold balloc at h
  split_ifs at h
  rw [← Except.ok.inj h]
  rfl

/-- **mkfs uses as many inodes as there are files**, and one for the root directory. -/
theorem freeinode_mkfs (h : mkfs files = .ok D) : D.freeinode = files.length + 2 := by
  obtain ⟨_, hroot, hfi, -⟩ := withRoot_eq
  rw [mkfs_eq, hroot, ok_bind] at h
  obtain ⟨_, h₁, h⟩ := exists_of_bind_eq_ok h
  rw [freeinode_finish h, freeinode_addFiles h₁, hfi, add_comm]

/-! ## The bitmap -/

/-- The sector that `balloc` writes. -/
def bits (used : ℕ) : Block :=
  (List.range used).foldl (fun buf i =>
    update buf (i / 8) (UInt8.ofNat ((buf (i / 8)).toNat ||| 2 ^ (i % 8)))) Block.zero

/-- **`balloc` marks the blocks below `used`.** -/
theorem testBit_bits (used b : ℕ) :
    ((bits used) (b / 8)).toNat.testBit (b % 8) = decide (b < used) := by
  induction used with
  | zero => simp [bits, Block.zero]
  | succ used ih =>
    rw [bits, range_succ, foldl_append]
    show ((update (bits used) (used / 8) _) (b / 8)).toNat.testBit (b % 8) = _
    by_cases hb : b / 8 = used / 8
    · have hlt : (bits used (used / 8)).toNat ||| 2 ^ (used % 8) < 2 ^ 8 :=
        Nat.or_lt_two_pow (UInt8.toNat_lt _) (Nat.pow_lt_pow_right (by decide) (by omega))
      rw [hb] at ih ⊢
      rw [update_self]
      show (UInt8.ofNat ((bits used (used / 8)).toNat ||| _)).toNat.testBit _ = _
      rw [UInt8.toNat_ofNat', Nat.mod_eq_of_lt hlt, Nat.testBit_or, ih, Nat.testBit_two_pow]
      rw [← Bool.decide_or, decide_eq_decide]
      omega
    · rw [update_of_ne hb, ih, decide_eq_decide]
      omega

/-! ## The finished image -/

/-- **The image at the end of `main`.** -/
structure Finished (D : Disk) (data : ℕ → List UInt8) : Prop where
  image : Image D data
  super : D.img 1 = blank.img 1
  bitmap : D.img bmapstart = bits D.freeblock
  inodes : D.freeinode ≤ inodeSlots
  type : ∀ i, i < inodeSlots → (D.dinode i).type =
    if 1 ≤ i ∧ i < D.freeinode then if i = ROOTINO then T_DIR else T_FILE else 0
  size : ∀ i, 1 ≤ i → i < D.freeinode → (D.dinode i).size =
    if i = ROOTINO then ((data i).length / BSIZE + 1) * BSIZE else (data i).length

/-- The bitmap is written. -/
theorem Image.wsect_bmapstart (I : Image D data) (X : Block) :
    Image (D.wsect bmapstart X) data := by
  have hdin := D.dinode_wsect le_rfl X
  have hrange : ∀ p, held config D.dinode D.img p ≠ 0 → nmeta ≤ held config D.dinode D.img p :=
    fun p hp => (I.owned.range p hp).1
  have hb := bmapstart_lt
  refine ⟨?_, fun j ha => ?_, fun j ha => ?_, fun b h => ?_, I.room⟩
  · show Ownership.Exact _ _ (held config (D.wsect bmapstart X).dinode (update D.img _ X)) _
    rw [hdin, held_update_block X]
    · exact I.owned
    · intro j hj
      have := hrange (j, .slot NDIRECT) (by rw [hj]; decide)
      omega
  · rw [hdin] at ha ⊢
    exact I.fits j ha
  · rw [hdin] at ha ⊢
    refine (I.stored j ha).update_meta (fun q hq => ?_) (by decide) hb X
    rw [← held_of_allocated ha] at hq ⊢
    exact hrange _ hq
  · have := I.owned.le_of_free (decide_eq_false (lt_irrefl D.freeblock))
    have hdata : config.data = nmeta := rfl
    rw [img_wsect, update_of_ne, I.blank b h]
    rw [freeblock_wsect] at h
    omega

/-- **The end of `main`** writes the size of the root directory and the bitmap. -/
theorem Built.finish (B : Built D data) (h2 : 2 ≤ D.freeinode) :
    ∃ D', Mkfs.finish D = .ok D' ∧ D'.freeinode = D.freeinode ∧ Finished D' data := by
  have hroot : 1 ≤ ROOTINO ∧ ROOTINO < D.freeinode := ⟨le_rfl, h2⟩
  have hlt : ROOTINO < inodeSlots := by decide
  have W := B.writing hroot
  have hsize : (data ROOTINO).length ≤ MAXFILE * BSIZE :=
    W.stored.room.trans (Nat.mul_le_mul_right _ W.stored.le)
  have hround : ((data ROOTINO).length / BSIZE + 1) * BSIZE < 2 ^ 32 := by
    simp only [MAXFILE, NDIRECT, NINDIRECT, BSIZE] at *
    omega
  obtain ⟨D₁, he, hfi, -, hdin, hsuper, I⟩ := W.winode
    (fun j _ hj => B.image.fits j hj) (W.fits.setSize hround) rfl rfl
  rw [update_eq_self] at I
  have hdin' := D₁.dinode_wsect le_rfl (bits D₁.freeblock)
  have hused : D₁.freeblock < BPB := lt_of_le_of_lt I.room (show FSSIZE < BPB by decide)
  refine ⟨D₁.wsect bmapstart (bits D₁.freeblock), ?_, hfi, I.wsect_bmapstart _, ?_, ?_, ?_,
    fun i hi => ?_, fun i h1 hi => ?_⟩
  · rw [Mkfs.finish, D.rinode_eq hlt, ok_bind, B.size _ hroot.1 hroot.2, he, ok_bind,
      balloc, if_pos hused]
    rfl
  · rw [img_wsect, update_of_ne (by decide)]
    exact hsuper.trans B.super
  · rw [img_wsect, update_self]
    rfl
  · exact hfi.symm ▸ B.inodes.2
  · show ((D₁.wsect _ _).dinode i).type = if 1 ≤ i ∧ i < D₁.freeinode then _ else _
    rw [hdin', hdin, hfi, ← B.type i hi]
    by_cases hr : i = ROOTINO
    · rw [hr, update_self]
    · rw [update_of_ne hr]
  · rw [hdin', hdin]
    by_cases hr : i = ROOTINO
    · rw [hr, update_self, if_pos rfl]
    · rw [update_of_ne hr, if_neg hr]
      exact B.size i h1 (hfi ▸ hi)

/-! ## What the kernel sees -/

theorem word_super : (List.range sb.length).map (blank.img 1).word = sb := by decide +kernel

theorem word_inodestart : (blank.img 1).word 6 = inodestart := by decide +kernel

theorem word_bmapstart : (blank.img 1).word 7 = bmapstart := by decide +kernel

namespace Finished

variable (F : Finished D data)
include F

/-- The kernel finds the inodes. -/
theorem dinode_eq (hi : i < inodeSlots) : (kernelState D.img).dinode i = D.dinode i := by
  rw [kernelState, dinode, if_pos hi]
  rw [F.super, word_inodestart]

/-- It finds the marks of the blocks. -/
theorem bitmap_eq {b : ℕ} (hb : b < FSSIZE) :
    (kernelState D.img).bitmap b = decide (b < D.freeblock) := by
  have hlt : b < BPB := hb.trans (by decide)
  rw [kernelState]
  dsimp only
  rw [F.super, word_bmapstart, Nat.div_eq_of_lt hlt, zero_add, F.bitmap,
    Nat.mod_eq_of_lt hlt, testBit_bits]

theorem allocated_eq : Allocated config (kernelState D.img).dinode i ↔ 1 ≤ i ∧ i < D.freeinode := by
  constructor
  · rintro ⟨hi, ht⟩
    rw [F.dinode_eq hi, F.type i hi] at ht
    by_contra hc
    rw [if_neg hc] at ht
    exact ht rfl
  · intro h
    have hi : i < inodeSlots := lt_of_lt_of_le h.2 F.inodes
    refine ⟨hi, ?_⟩
    rw [F.dinode_eq hi, F.type i hi, if_pos h]
    split <;> decide

theorem held_eq : held config (kernelState D.img).dinode D.img = held config D.dinode D.img := by
  funext p
  rw [held, held]
  by_cases hi : p.1 < inodeSlots
  · have hiff : Allocated config (kernelState D.img).dinode p.1 ↔
      Allocated config D.dinode p.1 := by
      unfold Allocated
      rw [F.dinode_eq hi]
    by_cases ha : Allocated config D.dinode p.1
    · rw [if_pos ha, if_pos (hiff.mpr ha), F.dinode_eq hi]
    · rw [if_neg ha, if_neg (mt hiff.mp ha)]
  · rw [if_neg (fun h => hi h.1), if_neg (fun h => hi h.1)]

/-- **The kernel's bitmap is exact.** -/
theorem owned : Owned config (kernelState D.img).dinode D.img (kernelState D.img).bitmap := by
  have h := F.image.owned
  show Ownership.Exact _ _ _ _
  rw [F.held_eq]
  refine ⟨h.inj, h.range, fun b hlo hhi => ?_, fun b hb => ?_, h.pos⟩
  · rw [F.bitmap_eq hhi]
    exact h.marked_iff b hlo hhi
  · rw [F.bitmap_eq (hb.trans (by decide))]
    exact h.reserved b hb

/-- An inode as the kernel finds it. -/
theorem stored (h : 1 ≤ i ∧ i < D.freeinode) :
    Stored ((kernelState D.img).dinode i) D.img (data i) (nblocks (data i).length) := by
  have ha := F.allocated_eq.mpr h
  have hd := F.dinode_eq ha.1
  rw [hd]
  refine F.image.stored i ⟨ha.1, ?_⟩
  rw [← hd]
  exact ha.2

theorem size_eq (h : 1 ≤ i ∧ i < D.freeinode) :
    ((kernelState D.img).dinode i).size =
      if i = ROOTINO then ((data i).length / BSIZE + 1) * BSIZE else (data i).length := by
  rw [F.dinode_eq (lt_of_lt_of_le h.2 F.inodes), F.size i h.1 h.2]

end Finished

/-- The bytes of an inode. -/
theorem Stored.bytes_eq {m : ℕ} (S : Stored d B bytes m) :
    (List.range bytes.length).map (d.byteAt B) = bytes := by
  refine ext_getElem (by simp) fun o h₁ h₂ => ?_
  rw [getElem_map, getElem_range, S.byte o h₂]

/-- They have blocks. -/
theorem Stored.mapped (S : Stored d B bytes (nblocks bytes.length)) : d.Mapped B bytes.length := by
  intro bn hbn
  rw [S.blocks]
  unfold nblocks
  simp only [BSIZE] at *
  omega

/-! ## Well-formed images -/

/-- **A well-formed image**, as the kernel reads it. -/
structure WellFormed (D : Disk) : Prop where
  super : (List.range sb.length).map (D.img 1).word = sb
  /-- Every inode that has been used is one of the `sb.ninodes` inodes. -/
  inodes : ∀ i, 1 ≤ i → i < D.freeinode → i < NINODES
  /-- These are the inodes in use. -/
  used : ∀ i, Allocated config (kernelState D.img).dinode i ↔ 1 ≤ i ∧ i < D.freeinode
  /-- Every block number in them is the number of a data block and occurs once, and the
  bitmap marks these blocks and those before the data blocks. -/
  owned : Owned config (kernelState D.img).dinode D.img (kernelState D.img).bitmap
  /-- All parts of them have blocks. -/
  mapped : ∀ i, Allocated config (kernelState D.img).dinode i →
    ((kernelState D.img).dinode i).Mapped D.img ((kernelState D.img).dinode i).size

theorem nblocks_of_dvd (h : len % BSIZE = 0) : nblocks len = len / BSIZE := by
  unfold nblocks
  simp only [BSIZE] at *
  omega

theorem nblocks_of_not_dvd (h : len % BSIZE ≠ 0) : nblocks len = len / BSIZE + 1 := by
  unfold nblocks
  simp only [BSIZE] at *
  omega

/-- **The image is well formed unless the entries of the root directory fill its last
block.** Then its size, rounded up, covers a block that it does not have. -/
theorem Finished.wellFormed_iff (F : Finished D data) (h2 : 2 ≤ D.freeinode)
    (hn : D.freeinode ≤ NINODES) :
    WellFormed D ↔ (data ROOTINO).length % BSIZE ≠ 0 := by
  have hroot : 1 ≤ ROOTINO ∧ ROOTINO < D.freeinode := ⟨le_rfl, h2⟩
  constructor
  · intro hw hc
    have hm := hw.mapped ROOTINO (F.allocated_eq.mpr hroot)
    rw [F.size_eq hroot, if_pos rfl] at hm
    refine (F.stored hroot).blocks ((data ROOTINO).length / BSIZE) |>.mp (hm _ ?_) |>.ne ?_
    · exact mul_lt_mul_of_pos_right (Nat.lt_succ_self _) (by decide)
    · exact (nblocks_of_dvd hc).symm
  · intro hc
    refine ⟨F.super ▸ word_super, fun i _ hi => hi.trans_le hn,
      fun i => F.allocated_eq, F.owned, fun i ha bn hbn => ?_⟩
    have hi := F.allocated_eq.mp ha
    rw [(F.stored hi).blocks]
    rw [F.size_eq hi] at hbn
    split at hbn
    · next hr =>
      subst hr
      rw [nblocks_of_not_dvd hc]
      exact Nat.lt_of_mul_lt_mul_right hbn
    · exact ((F.stored hi).blocks bn).mp ((F.stored hi).mapped bn hbn)

/-- What the inodes hold at the end. -/
def contentsOf (files : List Input) : ℕ → List UInt8 :=
  added 2 files (update (fun _ => []) ROOTINO dots)

/-- **mkfs builds an image of the files**, if it can add each of them and they are not too
much. -/
theorem mkfs_cases (hlen : files.length + 2 ≤ inodeSlots) :
    (∃ D, mkfs files = .ok D ∧ D.freeinode = files.length + 2 ∧ Finished D (contentsOf files)) ∨
    ((∃ e, mkfs files = .error e) ∧
      ((∃ f ∈ files, ¬ Addable f) ∨ Over (files.length + 2) (contentsOf files))) := by
  obtain ⟨_, hroot, hfi₀, B₀⟩ := withRoot_eq
  rw [mkfs_eq, hroot, ok_bind]
  rcases B₀.addFiles files (by omega) (by omega) with ⟨_, heq, _, B⟩ | ⟨⟨e, heq⟩, hbad⟩
  · obtain ⟨D, hfin, _, F⟩ := B.finish (by omega)
    rw [hfi₀] at F
    refine .inl ⟨D, ?_, by omega, F⟩
    rw [heq]
    exact hfin
  · rw [hfi₀, add_comm] at hbad
    rw [heq]
    exact .inr ⟨⟨e, rfl⟩, hbad⟩

/-- The length of the root directory. -/
theorem length_contentsOf_root (files : List Input) :
    (contentsOf files ROOTINO).length = 16 * (files.length + 2) := by
  have hsum : ∀ (fs : List Input) (n : ℕ),
      ((fs.zipIdx n).flatMap (fun x => dirent x.1.name x.2)).length = 16 * fs.length := by
    intro fs
    induction fs with
    | nil => exact fun _ => rfl
    | cons f fs ih =>
      intro n
      rw [zipIdx_cons, flatMap_cons, length_append, ih, length_dirent, length_cons]
      omega
  have hdots : dots.length = 32 := by decide
  rw [contentsOf, added_root le_rfl, update_self, length_append, hsum, hdots]
  omega

/-- The number of blocks that the files take, with the root directory and the blocks
before the data blocks. -/
def blocksOf (files : List Input) : ℕ :=
  nmeta + taken (nblocks (16 * (files.length + 2))) +
    (files.map (fun f => taken (nblocks f.contents.length))).sum

theorem total_contentsOf (files : List Input) :
    total (files.length + 2) (contentsOf files) = blocksOf files := by
  have hfiles : ∑ i ∈ Finset.Ico 2 (files.length + 2), taken (nblocks (contentsOf files i).length) =
      (files.map (fun f => taken (nblocks f.contents.length))).sum := by
    rw [Finset.sum_Ico_eq_sum_range, Nat.add_sub_cancel, Finset.sum_range,
      ← Fin.sum_univ_fun_getElem files (fun f => taken (nblocks f.contents.length))]
    refine Finset.sum_congr rfl fun k _ => ?_
    rw [contentsOf, added_file le_rfl k.isLt]
  have hroot : (contentsOf files 1).length = 16 * (files.length + 2) :=
    length_contentsOf_root files
  rw [total, Finset.sum_eq_sum_Ico_succ_bot (by omega), hfiles, hroot, blocksOf]
  omega

/-- The files are not too much for an image. -/
theorem not_over_contentsOf (hlen : files.length + 2 ≤ inodeSlots)
    (hmax : ∀ f ∈ files, f.contents.length ≤ MAXFILE * BSIZE) (hblocks : blocksOf files ≤ FSSIZE) :
    ¬ Over (files.length + 2) (contentsOf files) := by
  rintro (⟨i, h1, hi, hlt⟩ | hlt)
  · by_cases hr : i = ROOTINO
    · have hbig : 16 * inodeSlots ≤ MAXFILE * BSIZE := by decide
      rw [hr, length_contentsOf_root] at hlt
      omega
    · obtain ⟨k, rfl⟩ : ∃ k, i = 2 + k := ⟨i - 2, by simp only [ROOTINO] at hr; omega⟩
      rw [contentsOf, added_file le_rfl (by omega : k < files.length)] at hlt
      exact absurd hlt (not_lt.mpr (hmax _ (getElem_mem _)))
  · rw [total_contentsOf] at hlt
    omega

/-- **mkfs builds an image of the files** that can be added and are not too much. -/
theorem mkfs_builds (files : List Input) (hlen : files.length + 2 ≤ inodeSlots)
    (hadd : ∀ f ∈ files, Addable f) (hmax : ∀ f ∈ files, f.contents.length ≤ MAXFILE * BSIZE)
    (hblocks : blocksOf files ≤ FSSIZE) :
    ∃ D, mkfs files = .ok D ∧ D.freeinode = files.length + 2 ∧ Finished D (contentsOf files) := by
  rcases mkfs_cases hlen with h | ⟨-, ⟨f, hf, hbad⟩ | ho⟩
  · exact h
  · exact absurd (hadd f hf) hbad
  · exact absurd ho (not_over_contentsOf hlen hmax hblocks)

/-- **mkfs writes well-formed images if and only if** there are at most `NINODES - 2` files
and the entries of the root directory, two more than there are files, do not fill its last
block. -/
theorem mkfs_wellFormed_iff (files : List Input) (D : Disk) (h : mkfs files = .ok D) :
    WellFormed D ↔ files.length + 2 ≤ NINODES ∧ (files.length + 2) % (BSIZE / 16) ≠ 0 := by
  by_cases hlen : files.length + 2 ≤ NINODES
  · rcases mkfs_cases (hlen.trans (by decide)) with ⟨_, h', hfi, F⟩ | ⟨⟨e, he⟩, -⟩
    · cases h'.symm.trans h
      rw [F.wellFormed_iff (by omega) (by omega), length_contentsOf_root]
      simp only [hlen, true_and, BSIZE]
      omega
    · rw [he] at h
      cases h
  · refine iff_of_false (fun hw => hlen ?_) fun hc => hlen hc.1
    have hfi := freeinode_mkfs h
    have := hw.inodes (files.length + 1) (by omega) (by omega)
    omega

/-- The program `user/_a`, of two blocks, and a file `b` of two bytes. -/
def twoFiles : List Input :=
  [{ path := [117, 115, 101, 114, 47, 95, 97], noNul := by decide
     chunks := some [List.replicate 1500 7] },
   { path := [98], noNul := by decide, chunks := some [[7], [8]] }]

/-- The image with these two files is well formed. -/
theorem mkfs_wellFormed_iff_two_files : ∃ D, mkfs twoFiles = .ok D ∧ WellFormed D := by
  obtain ⟨D, h, -⟩ := mkfs_builds twoFiles (by decide) (by decide +kernel) (by decide +kernel)
    (by decide +kernel)
  exact ⟨D, h, (mkfs_wellFormed_iff twoFiles D h).mpr (by decide)⟩

/-- Empty files `a0`, `a1`, and so on. -/
def emptyFiles (n : ℕ) : List Input :=
  (List.range n).map (fun k =>
    { path := [97, UInt8.ofNat (k % 64 + 48)]
      noNul := by
        have h : (UInt8.ofNat (k % 64 + 48)).toNat = k % 64 + 48 := by
          rw [UInt8.toNat_ofNat']
          omega
        simp only [mem_cons, not_mem_nil, or_false, not_or]
        exact ⟨by decide, fun hc => by rw [← hc] at h; cases h⟩
      chunks := some [] })

/-- With 62 files the entries fill the block of the root directory, and its size is that
of two blocks. -/
theorem mkfs_root_hole : ∃ D, mkfs (emptyFiles 62) = .ok D ∧ ¬ WellFormed D := by
  obtain ⟨D, h, hfi, F⟩ := mkfs_builds (emptyFiles 62) (by decide) (by decide +kernel)
    (by decide +kernel) (by decide +kernel)
  refine ⟨D, h, fun hw => ?_⟩
  exact (F.wellFormed_iff (by omega) (hfi.trans_le (by decide))).mp hw
    (by rw [length_contentsOf_root]; decide)

/-! ## The kernel reads the files -/

/-- **A kernel that runs on the image** and has written nothing yet: the copies of inodes
are those on the image, and there is an entry of the table that is not in use. -/
structure Reads (img : ℕ → Block) (s : State) : Prop where
  block : s.block = img
  dinode : s.dinode = (kernelState img).dinode
  copies : ∀ k, 0 < (s.inode k).ref → (s.inode k).valid = true →
    (s.inode k).copy = s.dinode (s.inode k).inum
  free : ∃ k, (s.inode k).ref = 0

/-- The entries of the root directory, with their numbers. -/
def entries (files : List Input) : List (List UInt8 × ℕ) :=
  (dot, ROOTINO) :: (dotdot, ROOTINO) :: (files.map Input.name).zipIdx 2

theorem ents_contentsOf_root (files : List Input) :
    ents (contentsOf files ROOTINO) = (entries files).map (fun x => dirent x.1 x.2) := by
  have hroot : contentsOf files ROOTINO =
      ((entries files).map (fun x => dirent x.1 x.2)).flatten := by
    rw [contentsOf, added_root le_rfl, update_self, dots, entries, zipIdx_map,
      map_cons, map_cons, flatten_cons, flatten_cons, map_map,
      append_assoc]
    rfl
  rw [hroot, ents_flatten]
  intro de hde
  obtain ⟨x, -, rfl⟩ := mem_map.mp hde
  exact length_dirent _ _

/-- A stored name is a string of C. -/
theorem Input.noNul_name (f : Input) : 0 ∉ f.name := by
  intro h
  refine f.noNul ?_
  have hshort : 0 ∈ shortname f.path := by
    unfold Input.name at h
    split at h
    · exact mem_of_mem_tail h
    · exact h
  unfold shortname at hshort
  split at hshort
  · exact mem_of_mem_drop hshort
  · exact hshort

/-- The names and numbers in the root directory. -/
theorem of_mem_entries (hadd : ∀ f ∈ files, Addable f) {x : List UInt8 × ℕ}
    (hx : x ∈ entries files) :
    0 ∉ x.1 ∧ x.1.length ≤ DIRSIZ ∧ 0 < x.2 ∧ x.2 < files.length + 2 := by
  rcases mem_cons.mp hx with rfl | hx
  · exact ⟨by decide, by decide, by decide, by simp only [ROOTINO]; omega⟩
  rcases mem_cons.mp hx with rfl | hx
  · exact ⟨by decide, by decide, by decide, by simp only [ROOTINO]; omega⟩
  obtain ⟨name, n⟩ := x
  obtain ⟨_, hlt, hname⟩ := mem_zipIdx hx
  rw [length_map] at hlt
  rw [getElem_map] at hname
  have hf := hadd _ (getElem_mem (by omega : n - 2 < files.length))
  rw [hname]
  exact ⟨Input.noNul_name _, hf.name, by omega, by omega⟩

/-- **The entry that `dirlookup` finds for a file.** -/
theorem find_entry (hadd : ∀ f ∈ files, Addable f)
    (hnames : (dot :: dotdot :: files.map Input.name).Nodup) (hlen : files.length + 2 ≤ inodeSlots)
    (hk : k < files.length) :
    (ents (contentsOf files ROOTINO)).find? (fun de => decide (Named files[k].name de)) =
      some (dirent files[k].name (k + 2)) := by
  have hslots : inodeSlots < 2 ^ 16 := by decide
  have hmem : (files[k].name, k + 2) ∈ entries files := by
    refine mem_cons_of_mem _ (mem_cons_of_mem _ (mem_iff_getElem.mpr ⟨k, ?_, ?_⟩))
    · rw [length_zipIdx, length_map]
      exact hk
    · rw [getElem_zipIdx, getElem_map, add_comm]
  -- the entry with the name is the only one
  have hfst : (entries files).map Prod.fst = dot :: dotdot :: files.map Input.name := by
    rw [entries, map_cons, map_cons, zipIdx_map_fst]
  have huniq : ∀ x ∈ entries files, x.1 = files[k].name → x = (files[k].name, k + 2) :=
    fun x hx he => inj_on_of_nodup_map (hfst ▸ hnames) hx hmem he
  have hnamed : ∀ x ∈ entries files,
      (Named files[k].name (dirent x.1 x.2) ↔ files[k].name = x.1) := by
    intro x hx
    obtain ⟨h0, hl, hpos, _⟩ := of_mem_entries hadd hx
    obtain ⟨h0', hl', -, -⟩ := of_mem_entries hadd hmem
    exact named_dirent_iff h0' h0 hl' hl hpos (by omega)
  rw [ents_contentsOf_root, find?_map]
  cases hf : (entries files).find?
      ((fun de => decide (Named files[k].name de)) ∘ fun x => dirent x.1 x.2) with
  | none =>
    have := find?_eq_none.mp hf _ hmem
    simp only [Function.comp_apply, decide_eq_true_eq] at this
    exact absurd ((hnamed _ hmem).mpr rfl) this
  | some x =>
    have hx := mem_of_find?_eq_some hf
    have hn := find?_some hf
    simp only [Function.comp_apply, decide_eq_true_eq] at hn
    rw [huniq x hx ((hnamed x hx).mp hn).symm]
    rfl

namespace Reads

variable {s : State}

/-- `iget` finds the inode in the table or takes an entry that is not in use. -/
theorem iget (R : Reads D.img s) (inum : ℕ) :
    ∃ s' k, s.iget inum = .ok (s', k) ∧ s'.block = s.block ∧ s'.dinode = s.dinode ∧
      0 < (s'.inode k).ref ∧ (s'.inode k).inum = inum ∧
      ((s'.inode k).valid = true → (s'.inode k).copy = s.dinode inum) := by
  unfold State.iget
  cases hf : (finRange NINODE).find? (fun k =>
      decide (0 < (s.inode k).ref ∧ (s.inode k).inum = inum)) with
  | some k =>
    have hk : 0 < (s.inode k).ref ∧ (s.inode k).inum = inum := by
      simpa using find?_some hf
    refine ⟨_, k, rfl, rfl, rfl, ?_, ?_, ?_⟩
    · rw [State.inode_setInode_self]
      exact Nat.succ_pos _
    · rw [State.inode_setInode_self]
      exact hk.2
    · rw [State.inode_setInode_self]
      intro hv
      rw [← hk.2]
      exact R.copies k hk.1 hv
  | none =>
    obtain ⟨j, hj⟩ := R.free
    cases hf' : (finRange NINODE).find? (fun k => decide ((s.inode k).ref = 0)) with
    | none => exact absurd hj (by simpa using find?_eq_none.mp hf' j (mem_finRange j))
    | some k =>
      refine ⟨_, k, rfl, rfl, rfl, ?_, ?_, ?_⟩
      · rw [State.inode_setInode_self]
        exact one_pos
      · rw [State.inode_setInode_self]
      · rw [State.inode_setInode_self]
        exact nofun

end Reads

/-- `ilock` reads the inode. -/
theorem ilock_eq {k : Fin NINODE} (hr : 0 < (s.inode k).ref)
    (ht : (s.dinode (s.inode k).inum).type ≠ 0)
    (hv : (s.inode k).valid = true → (s.inode k).copy = s.dinode (s.inode k).inum) :
    ∃ s', s.ilock k = .ok s' ∧ s'.block = s.block ∧
      (s'.inode k).copy = s.dinode (s.inode k).inum := by
  unfold State.ilock
  rw [if_neg (by omega)]
  by_cases h : (s.inode k).valid = true
  · rw [if_pos h]
    exact ⟨s, rfl, rfl, hv h⟩
  · rw [if_neg h, if_neg ht]
    exact ⟨_, rfl, rfl, by rw [State.inode_setInode_self]⟩

/-- **`dirlookup` of the root directory** finds the first entry with the name. -/
theorem Finished.dirlookup (F : Finished D (contentsOf files))
    (hfi : D.freeinode = files.length + 2) (R : Reads D.img s) (root : Fin NINODE)
    (hr : 0 < (s.inode root).ref) (hi : (s.inode root).inum = ROOTINO)
    (hv : (s.inode root).valid = true)
    (hde : (ents (contentsOf files ROOTINO)).find? (fun de => decide (Named name de)) = some de) :
    s.dirlookup config root name = (do
      let (s, ip) ← s.iget (direntInum de)
      .ok (s, some ip)) := by
  have hroot : 1 ≤ ROOTINO ∧ ROOTINO < D.freeinode :=
    ⟨le_rfl, by rw [hfi]; simp only [ROOTINO]; omega⟩
  have hcopy : (s.inode root).copy = (kernelState D.img).dinode ROOTINO := by
    rw [R.copies root hr hv, hi, R.dinode]
  have hslot : ROOTINO < inodeSlots := by decide
  have htype : (s.inode root).copy.type = T_DIR := by
    rw [hcopy, F.dinode_eq hslot, F.type _ hslot, if_pos hroot, if_pos rfl]
  have S := F.stored hroot
  rw [← hcopy, ← R.block] at S
  have hsize := F.size_eq hroot
  rw [← hcopy, if_pos rfl] at hsize
  have hmax : (contentsOf files ROOTINO).length ≤ MAXFILE * BSIZE :=
    S.room.trans (Nat.mul_le_mul_right _ S.le)
  have hle : (contentsOf files ROOTINO).length ≤ (s.inode root).copy.size := by
    rw [hsize]
    generalize (contentsOf files ROOTINO).length = len
    simp only [BSIZE]
    omega
  have hwhole : Whole (contentsOf files ROOTINO) := by
    refine ⟨Dvd.intro _ (length_contentsOf_root files).symm, hmax.trans_lt ?_⟩
    decide
  have hscan : State.dirScan config root name (((s.inode root).copy.size + 15) / 16) s 0 =
      .ok (s, some (direntInum de)) := by
    refine dirScan_mapped S.mapped hle hmax (n := ((contentsOf files ROOTINO).length + 15) / 16)
      (by omega) ?_
    rw [S.bytes_eq, dirScan_eq hwhole, hde]
    rfl
  rw [State.dirlookup, if_neg (fun h => h htype), hscan, ok_bind]

/-- What `readi` reads, its arguments being of type `uint`. -/
theorem readi_uint (bytes : List UInt8) (off n : UInt32) :
    readi bytes off.toNat n.toNat =
      if off.toNat + n.toNat < 2 ^ 32 then (bytes.drop off.toNat).take n.toNat else [] := by
  have hn := n.toNat_lt
  rw [readi]
  by_cases h : off.toNat + n.toNat < 2 ^ 32
  · rw [if_pos h, Nat.mod_eq_of_lt h]
    by_cases hlt : bytes.length < off.toNat
    · rw [if_pos (.inl hlt), drop_eq_nil_of_le hlt.le, take_nil]
    · rw [if_neg (by omega)]
  · rw [if_neg h, if_pos (.inr (by omega))]

/-- **The kernel reads an inode of the image**, a file, that an entry of the root directory
names. -/
theorem Finished.reads (F : Finished D (contentsOf files)) (hfi : D.freeinode = files.length + 2)
    (R : Reads D.img s) (root : Fin NINODE) (hr : 0 < (s.inode root).ref)
    (hi : (s.inode root).inum = ROOTINO) (hv : (s.inode root).valid = true)
    (hde : (ents (contentsOf files ROOTINO)).find? (fun de => decide (Named name de)) = some de)
    (hk : k < files.length) (hinum : direntInum de = k + 2) :
    ∃ s₁ ip s₂, s.dirlookup config root name = .ok (s₁, some ip) ∧
      (s₁.inode ip).inum = k + 2 ∧ s₁.ilock ip = .ok s₂ ∧
      ∀ off n : UInt32, s₂.readi config ip off.toNat n.toNat = .ok (s₂,
        if off.toNat + n.toNat < 2 ^ 32 then (files[k].contents.drop off.toNat).take n.toNat
        else []) := by
  have hin : 1 ≤ k + 2 ∧ k + 2 < D.freeinode := by omega
  obtain ⟨s₁, ip, hget, hblock, hdin, hr₁, hi₁, hv₁⟩ := R.iget (k + 2)
  have htype := (F.allocated_eq.mpr hin).2
  rw [← R.dinode] at htype
  obtain ⟨s₂, hlock, hblock₂, hcopy⟩ := ilock_eq hr₁ (by rw [hdin, hi₁]; exact htype)
    (fun hv => by rw [hdin, hi₁]; exact hv₁ hv)
  rw [hdin, hi₁, R.dinode] at hcopy
  refine ⟨s₁, ip, s₂, ?_, hi₁, hlock, fun off n => ?_⟩
  · rw [F.dirlookup hfi R root hr hi hv hde, hinum, hget]
    rfl
  have hfile : contentsOf files (k + 2) = files[k].contents := by
    rw [add_comm, contentsOf, added_file le_rfl hk]
  have S := F.stored hin
  have hsize := F.size_eq hin
  rw [if_neg (by simp only [ROOTINO]; omega)] at hsize
  rw [hfile, ← hcopy] at S hsize
  rw [← R.block, ← hblock, ← hblock₂] at S
  have hmax : files[k].contents.length ≤ MAXFILE * BSIZE :=
    S.room.trans (Nat.mul_le_mul_right _ S.le)
  have hcontent : (s₂.inode ip).copy.content s₂.block = files[k].contents := by
    rw [Dinode.content, hsize, S.bytes_eq]
  rw [readi_content (hsize ▸ S.mapped) (hsize ▸ hmax), hcontent, readi_uint]

/-- **The kernel finds and reads every file of an image that mkfs has built**: the stored
names are different from each other and from `.` and `..`, and a request whose end is
beyond `2 ^ 32` reads nothing. -/
theorem kernel_reads_files (files : List Input) (hadd : ∀ f ∈ files, Addable f)
    (hnames : (dot :: dotdot :: files.map Input.name).Nodup)
    (hmax : ∀ f ∈ files, f.contents.length ≤ MAXFILE * BSIZE) (hblocks : blocksOf files ≤ FSSIZE)
    (hinodes : files.length + 1 ≤ NINODES) :
    ∃ D, mkfs files = .ok D ∧ ∀ (s : State) (root : Fin NINODE), Reads D.img s →
      0 < (s.inode root).ref → (s.inode root).inum = ROOTINO → (s.inode root).valid = true →
      ∀ k (hk : k < files.length), ∃ s₁ ip s₂,
        s.dirlookup config root files[k].name = .ok (s₁, some ip) ∧
        (s₁.inode ip).inum = k + 2 ∧ s₁.ilock ip = .ok s₂ ∧
        ∀ off n : UInt32, s₂.readi config ip off.toNat n.toNat = .ok (s₂,
          if off.toNat + n.toNat < 2 ^ 32 then (files[k].contents.drop off.toNat).take n.toNat
          else []) := by
  have hslots : NINODES + 1 ≤ inodeSlots ∧ inodeSlots < 2 ^ 16 := by decide
  have hlen : files.length + 2 ≤ inodeSlots := by omega
  obtain ⟨D, hD, hfi, F⟩ := mkfs_builds files hlen hadd hmax hblocks
  refine ⟨D, hD, fun s root R hr hi hv k hk => ?_⟩
  exact F.reads hfi R root hr hi hv (find_entry hadd hnames hlen hk) hk
    (direntInum_dirent.trans (Nat.mod_eq_of_lt (by omega)))

/-- A file `a` of two bytes. -/
def oneFile : List Input :=
  [{ path := [97], noNul := by decide, chunks := some [[7], [8]] }]

/-- A file whose stored name is `.`. -/
def dotFile : List Input :=
  [{ path := [95, 46], noNul := by decide, chunks := some [[7], [8]] }]

/-- The kernel when it has read the root directory of an image. -/
def started (img : ℕ → Block) : State :=
  { kernelState img with
    inode := update (kernelState img).inode 0
      { inum := ROOTINO, ref := 1, valid := true, copy := (kernelState img).dinode ROOTINO } }

theorem reads_started (img : ℕ → Block) : Reads img (started img) := by
  refine ⟨rfl, rfl, fun k hr _ => ?_, 1, rfl⟩
  by_cases hk : k = 0
  · rw [hk]
    rfl
  · have : (started img).inode k = (kernelState img).inode k := update_of_ne hk _ _
    rw [this] at hr
    exact absurd hr (lt_irrefl 0)

/-- The second byte of a file is read. -/
theorem kernel_reads_files_byte : ∃ D s₁ ip s₂, mkfs oneFile = .ok D ∧
    (started D.img).dirlookup config 0 [97] = .ok (s₁, some ip) ∧ s₁.ilock ip = .ok s₂ ∧
    s₂.readi config ip 1 1 = .ok (s₂, [8]) := by
  obtain ⟨D, hD, h⟩ := kernel_reads_files oneFile (by decide) (by decide) (by decide) (by decide)
    (by decide)
  obtain ⟨s₁, ip, s₂, hlook, -, hlock, hread⟩ :=
    h (started D.img) 0 (reads_started D.img) one_pos rfl rfl 0 (by decide)
  exact ⟨D, s₁, ip, s₂, hD, hlook, hlock, hread 1 1⟩

/-- A file that is stored as `.` is not found, and a read up to beyond `2 ^ 32` reads
nothing. -/
theorem kernel_misses_dot_and_wrap :
    (∃ D s₁ ip, mkfs dotFile = .ok D ∧ (started D.img).dirlookup config 0 dot = .ok (s₁, some ip) ∧
      (s₁.inode ip).inum = ROOTINO) ∧
    ∃ D s₁ ip s₂, mkfs oneFile = .ok D ∧
      (started D.img).dirlookup config 0 [97] = .ok (s₁, some ip) ∧ s₁.ilock ip = .ok s₂ ∧
      s₂.readi config ip 1 (2 ^ 32 - 1) = .ok (s₂, []) := by
  constructor
  · obtain ⟨D, hD, hfi, F⟩ := mkfs_builds dotFile (by decide) (by decide) (by decide) (by decide)
    have R := reads_started D.img
    obtain ⟨s₁, ip, hget, -, -, -, hi, -⟩ := R.iget ROOTINO
    have hde : (ents (contentsOf dotFile ROOTINO)).find? (fun de => decide (Named dot de)) =
        some (dirent dot ROOTINO) := by decide +kernel
    refine ⟨D, s₁, ip, hD, ?_, hi⟩
    rw [F.dirlookup hfi R 0 one_pos rfl rfl hde, direntInum_dirent,
      Nat.mod_eq_of_lt (by decide), hget]
    rfl
  · obtain ⟨D, hD, hfi, F⟩ := mkfs_builds oneFile (by decide) (by decide) (by decide) (by decide)
    have hde : (ents (contentsOf oneFile ROOTINO)).find? (fun de => decide (Named [97] de)) =
        some (dirent [97] 2) := by decide +kernel
    obtain ⟨s₁, ip, s₂, hlook, -, hlock, hread⟩ := F.reads hfi (reads_started D.img) 0
      one_pos rfl rfl hde (k := 0) (by decide) (by decide)
    have hwrap := hread 1 4294967295
    rw [if_neg (by decide)] at hwrap
    exact ⟨D, s₁, ip, s₂, hD, hlook, hlock, hwrap⟩

end Xv6.Mkfs
