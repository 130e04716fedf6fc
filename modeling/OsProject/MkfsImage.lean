import OsProject.Mkfs

/-!
# The files of an image

An image that mkfs is building is a file system, the blocks that have been handed out
being those that are marked (`Disk.state`). So what `iappend` does to it is said in the
terms in which the kernel's own code is verified: each of the blocks has one owner
(`Holding`), and a block that is added to a file changes no other one (`Extends`).

`Stored` says what an inode holds, `Writing` what is true while `iappend` works on an
inode, and `Image` what is true between the calls. A file with `m` blocks takes
`taken m` blocks of the image, with the indirect block.

An inode is read from a sector as it was written (`getDinode_putDinode`).
-/

namespace Xv6.Mkfs

open Function (update update_eq_self update_of_ne update_self)

open Blocks Dinode List
open Blocks.State (dirent)

/-! ## Inodes in a sector -/

theorem word_putDinode (B : Block) (k : ℕ) (d : Dinode) {j : ℕ} (hj : j < 16)
    (hd : dinodeWord d j < 2 ^ 32) : (putDinode B k d).word (16 * k + j) = dinodeWord d j := by
  have hdiv : ∀ r, r < 4 → (4 * (16 * k + j) + r) / 64 = k := fun r hr => by omega
  have hword : ∀ r, r < 4 → (4 * (16 * k + j) + r) % 64 / 4 = j := fun r hr => by omega
  have hmod : ∀ r, r < 4 → (4 * (16 * k + j) + r) % 4 = r := fun r hr => by omega
  have h0 := hdiv 0 (by omega)
  have h0' := hword 0 (by omega)
  have h0'' := hmod 0 (by omega)
  rw [add_zero] at h0 h0' h0''
  simp only [Block.word, putDinode, h0, h0', h0'', hdiv 1 (by omega), hdiv 2 (by omega),
    hdiv 3 (by omega), hword 1 (by omega), hword 2 (by omega), hword 3 (by omega),
    hmod 1 (by omega), hmod 2 (by omega), hmod 3 (by omega), if_true, UInt8.toNat_ofNat']
  omega

variable {k l n a b i : ℕ} {d : Dinode}

theorem word_putDinode_of_ne (B : Block) (d : Dinode) (h : l / 16 ≠ k) :
    (putDinode B k d).word l = B.word l := by
  have hne : ∀ r, r < 4 → (4 * l + r) / 64 ≠ k := fun r hr => by omega
  have h0 := hne 0 (by omega)
  rw [add_zero] at h0
  simp only [Block.word, putDinode, h0, hne 1 (by omega), hne 2 (by omega), hne 3 (by omega),
    if_false]

/-- An inode whose fields fit in the bytes they have on disk. -/
structure Fits (d : Dinode) : Prop where
  type : d.type < 2 ^ 16
  nlink : -2 ^ 15 ≤ d.nlink ∧ d.nlink < 2 ^ 15
  size : d.size < 2 ^ 32
  addrs : ∀ j, d.addrs j < 2 ^ 32
  tail : ∀ j, NDIRECT < j → d.addrs j = 0

theorem Fits.setSize (h : Fits d) (hn : n < 2 ^ 32) :
    Fits { d with size := n } := ⟨h.type, h.nlink, hn, h.addrs, h.tail⟩

/-- **An inode is read as it was written.** -/
theorem getDinode_putDinode (B : Block) (k : ℕ) (h : Fits d) :
    getDinode (putDinode B k d) k = d := by
  have hword : ∀ j, j < 16 → dinodeWord d j < 2 ^ 32 → (putDinode B k d).word (16 * k + j) =
      dinodeWord d j := fun j hj hd => word_putDinode B k d hj hd
  obtain ⟨type, nlink, size, addrs⟩ := d
  unfold getDinode
  have htype := h.type
  have hnlink := h.nlink
  dsimp only at htype hnlink
  have h0 := hword 0 (by omega) (by show type % 2 ^ 16 < _; omega)
  have h1 := hword 1 (by omega) (by show (nlink % 2 ^ 16).toNat * 2 ^ 16 < _; omega)
  have h2 := hword 2 (by omega) h.size
  rw [add_zero] at h0
  rw [h0, h1, h2, mk.injEq]
  refine ⟨?_, ?_, rfl, ?_⟩
  · show type % 2 ^ 16 % 2 ^ 16 = type
    omega
  · have hdiv : (((nlink % 2 ^ 16).toNat * 2 ^ 16 : ℕ) : ℤ) / 2 ^ 16 = nlink % 2 ^ 16 := by
      omega
    simp only [dinodeWord]
    rw [hdiv, Int.bmod_def]
    split_ifs <;> omega
  · funext j
    split_ifs with hj
    · have hj16 : 3 + j < 16 := by
        simp only [NDIRECT] at hj
        omega
      have h3 : dinodeWord ⟨type, nlink, size, addrs⟩ (3 + j) = addrs j := by
        rw [add_comm]
        rfl
      rw [add_assoc, hword (3 + j) hj16 (by rw [h3]; exact h.addrs j), h3]
    · exact (h.tail j (Nat.lt_of_not_le hj)).symm

/-- The other inodes of the sector stay. -/
theorem getDinode_putDinode_of_ne (B : Block) (d : Dinode) (h : l ≠ k) :
    getDinode (putDinode B k d) l = getDinode B l := by
  have hw : ∀ j, j < 16 → (putDinode B k d).word (16 * l + j) = B.word (16 * l + j) :=
    fun j hj => word_putDinode_of_ne B d (by omega)
  unfold getDinode
  have h0 := hw 0 (by omega)
  rw [add_zero] at h0
  rw [h0, hw 1 (by omega), hw 2 (by omega), mk.injEq]
  refine ⟨rfl, rfl, rfl, ?_⟩
  funext j
  by_cases hj : j ≤ NDIRECT
  · have hj16 : 3 + j < 16 := by
      simp only [NDIRECT] at hj
      omega
    rw [if_pos hj, if_pos hj, add_assoc, hw _ hj16]
  · rw [if_neg hj, if_neg hj]

/-! ## The image as a file system -/

/-- The file system on the image, with all the inodes that there is room for. -/
def config : Config where
  size := FSSIZE
  ninodes := inodeSlots
  data := nmeta
  data_pos := by decide
  size_lt := by decide

namespace Disk

/-- Inode `i` of the image. -/
def dinode (D : Disk) (i : ℕ) : Dinode :=
  if i < inodeSlots then getDinode (D.img (i / IPB + inodestart)) (i % IPB) else .fresh 0

/-- The image with the blocks marked that have been handed out. -/
def state (D : Disk) : State where
  bitmap := fun b => decide (b < D.freeblock)
  block := D.img
  dinode := D.dinode
  inode := fun _ => { inum := 0, ref := 0, valid := false, copy := .fresh 0 }

theorem img_wsect (D : Disk) (b : ℕ) (X : Block) : (D.wsect b X).img = update D.img b X := rfl

theorem freeblock_wsect (D : Disk) (b : ℕ) (X : Block) :
    (D.wsect b X).freeblock = D.freeblock := rfl

/-- The inodes are between the super block and the bitmap. -/
theorem sector_of_inode (hi : i < inodeSlots) :
    1 < i / IPB + inodestart ∧ i / IPB + inodestart < bmapstart := by
  have hstart : inodestart = 32 := rfl
  have hend : bmapstart = 45 := rfl
  have hslots : inodeSlots = 208 := rfl
  simp only [IPB, BSIZE]
  omega

theorem bmapstart_lt : bmapstart < nmeta := by decide

theorem rsect_eq (D : Disk) (hb : b < FSSIZE) : D.rsect b = .ok (D.img b) := if_pos hb

theorem rinode_eq (D : Disk) (hi : i < inodeSlots) : D.rinode i = .ok (D.dinode i) := by
  rw [rinode, D.rsect_eq ((sector_of_inode hi).2.trans (by decide)), dinode, if_pos hi]
  rfl

/-- **`winode` writes one inode**, in one sector. -/
theorem winode_eq (D : Disk) (hi : i < inodeSlots) (hd : Fits d) :
    ∃ D' sec X, D.winode i d = .ok D' ∧ D'.freeinode = D.freeinode ∧
      D'.freeblock = D.freeblock ∧ D'.dinode = update D.dinode i d ∧
      1 < sec ∧ sec < bmapstart ∧ D'.img = update D.img sec X := by
  have hsec := sector_of_inode hi
  refine ⟨D.wsect (i / IPB + inodestart) (putDinode (D.img (i / IPB + inodestart)) (i % IPB) d),
    _, _, ?_, rfl, rfl, ?_, hsec.1, hsec.2, rfl⟩
  · rw [winode, D.rsect_eq (hsec.2.trans (by decide))]
    rfl
  · funext j
    by_cases hj : j = i
    · subst hj
      rw [update_self, dinode, if_pos hi, img_wsect, update_self, getDinode_putDinode _ _ hd]
    · rw [update_of_ne hj, dinode, dinode, img_wsect]
      by_cases hn : j < inodeSlots
      · rw [if_pos hn, if_pos hn]
        by_cases hs : j / IPB + inodestart = i / IPB + inodestart
        · rw [hs, update_self, getDinode_putDinode_of_ne]
          simp only [IPB, BSIZE] at *
          omega
        · rw [update_of_ne hs]
      · rw [if_neg hn, if_neg hn]

/-- Writing a block after the inodes changes none of them. -/
theorem dinode_wsect (D : Disk) (hb : bmapstart ≤ b) (X : Block) :
    (D.wsect b X).dinode = D.dinode := by
  funext j
  rw [dinode, dinode, img_wsect]
  by_cases hn : j < inodeSlots
  · have hsec := (sector_of_inode hn).2
    rw [if_pos hn, if_pos hn, update_of_ne (by omega)]
  · rw [if_neg hn, if_neg hn]

end Disk

/-! ## What is stored in an inode -/

/-- The number of blocks of a file with so many bytes. -/
def nblocks (len : ℕ) : ℕ := (len + BSIZE - 1) / BSIZE

/-- The number of blocks that a file with `m` blocks takes, with the indirect block. -/
def taken (m : ℕ) : ℕ := m + if NDIRECT < m then 1 else 0

/-- The next byte is in the last block, or in a new one. -/
theorem nblocks_cases (len : ℕ) : nblocks len = len / BSIZE ∨ nblocks len = len / BSIZE + 1 := by
  unfold nblocks
  simp only [BSIZE]
  omega

/-- The number of blocks when so many bytes have been added to a block. -/
theorem nblocks_add {len : ℕ} (hn : 0 < n) (h : len % BSIZE + n ≤ BSIZE) :
    nblocks (len + n) = len / BSIZE + 1 := by
  unfold nblocks
  simp only [BSIZE] at *
  omega

theorem nblocks_mono (h : a ≤ b) : nblocks a ≤ nblocks b :=
  Nat.div_le_div_right (by omega)

theorem taken_mono (h : a ≤ b) : taken a ≤ taken b := by
  unfold taken
  split_ifs <;> omega

/-- **The bytes in an inode**, which has `m` blocks. -/
structure Stored (d : Dinode) (B : ℕ → Block) (data : List UInt8) (m : ℕ) : Prop where
  blocks : ∀ bn, d.look B bn ≠ 0 ↔ bn < m
  indirect : d.addrs NDIRECT ≠ 0 ↔ NDIRECT < m
  le : m ≤ MAXFILE
  room : data.length ≤ m * BSIZE
  byte : ∀ o (h : o < data.length), d.byteAt B o = data[o]

/-- Each of the bytes is in one of the blocks. -/
theorem Stored.div_lt {B : ℕ → Block} {data : List UInt8} {m o : ℕ} (S : Stored d B data m)
    (ho : o < data.length) : o / BSIZE < m := by
  rw [Nat.div_lt_iff_lt_mul (by decide)]
  exact ho.trans_le S.room

/-- The bytes stay if the blocks do. -/
theorem Stored.congr {d' : Dinode} {B B' : ℕ → Block} {data : List UInt8} {m : ℕ}
    (S : Stored d B data m) (hlook : ∀ bn, d'.look B' bn = d.look B bn)
    (hind : d'.addrs NDIRECT = d.addrs NDIRECT)
    (hB : ∀ bn, d.look B bn ≠ 0 → B' (d.look B bn) = B (d.look B bn)) : Stored d' B' data m := by
  refine ⟨fun bn => by rw [hlook]; exact S.blocks bn, by rw [hind]; exact S.indirect, S.le,
    S.room, fun o ho => ?_⟩
  rw [← S.byte o ho, byteAt, hlook, hB _ ((S.blocks _).mpr (S.div_lt ho))]
  rfl

/-! ## Handing out blocks -/

section Allocation

variable {D D' : Disk} {i : ℕ} {din din' : Dinode}

/-- The next block is marked when it is handed out. -/
theorem update_bitmap (n : ℕ) :
    update (fun b => decide (b < n)) n true = fun b => decide (b < n + 1) := by
  funext b
  by_cases hb : b = n
  · rw [hb, update_self]
    simp
  · rw [update_of_ne hb]
    simp only [decide_eq_decide]
    omega

/-- The state once the next block has been handed out. -/
theorem state_next (D D' : Disk) (hd : D'.dinode = D.dinode) (hb : D'.freeblock = D.freeblock + 1) :
    D'.state = { D.state with
      bitmap := update D.state.bitmap D.freeblock true
      block := D'.img } := by
  unfold Disk.state
  rw [hd, hb, update_bitmap]

theorem state_wsect (D : Disk) (hb : bmapstart ≤ b) (X : Block) :
    (D.wsect b X).state = D.state.setBlock b X := by
  unfold Disk.state State.setBlock
  rw [D.dinode_wsect hb X]
  rfl

section

variable (H : Holding config D.state i din)
include H

/-- The next block is not held by any inode. -/
theorem next_free (p : Place) : held config (update D.dinode i din) D.img p ≠ D.freeblock :=
  H.owned.free (decide_eq_false (lt_irrefl _)) p

theorem next_ne : D.freeblock ≠ 0 := by
  have := H.owned.le_of_free (decide_eq_false (lt_irrefl D.freeblock))
  have hmeta : 0 < config.data := config.data_pos
  omega

/-- What is held has been handed out. -/
theorem held_lt {p : Place} (hp : held config (update D.dinode i din) D.img p = b) (h : b ≠ 0) :
    nmeta ≤ b ∧ b < D.freeblock ∧ b < FSSIZE := by
  subst hp
  have hr := H.owned.range p h
  exact ⟨hr.1, of_decide_eq_true (H.owned.marked_of_held h), hr.2⟩

theorem look_lt {bn : ℕ} (h : din.look D.img bn ≠ 0) :
    nmeta ≤ din.look D.img bn ∧ din.look D.img bn < D.freeblock ∧ din.look D.img bn < FSSIZE :=
  held_lt H (held_update H.allocated (posOf bn)) h

theorem indirect_lt (h : din.addrs NDIRECT ≠ 0) :
    nmeta ≤ din.addrs NDIRECT ∧ din.addrs NDIRECT < D.freeblock ∧ din.addrs NDIRECT < FSSIZE :=
  held_lt H (H.held_slot (le_refl NDIRECT)) h

/-- The next block goes to an empty slot of the inode. -/
theorem slot_extends (hblank : D.img D.freeblock = .zero) (hlt : D.freeblock < FSSIZE)
    (hn : n ≤ NDIRECT) (h0 : din.addrs n = 0) :
    Extends config i D.state din { D with freeblock := D.freeblock + 1 }.state
        (din.setAddr n D.freeblock) ∧
      (din.setAddr n D.freeblock).number D.img =
        update (din.number D.img) (.slot n) D.freeblock := by
  have hind : din.addrs NDIRECT ≠ D.freeblock :=
    H.held_slot (le_refl _) ▸ next_free H (i, .slot NDIRECT)
  have hzero : update D.img D.freeblock .zero = D.img := by
    rw [← hblank, update_eq_self]
  have hnum := number_setAddr (B := D.img) hn h0 hind
  rw [hzero] at hnum
  refine ⟨?_, hnum⟩
  rw [state_next D { D with freeblock := D.freeblock + 1 } rfl rfl]
  exact H.attach ⟨rfl, rfl, rfl⟩ (by rw [number_slot _ _ hn, h0]) hlt
    (decide_eq_false (lt_irrefl _)) hnum (fun _ _ _ => rfl)

/-- The next block goes to an empty word of the indirect block. -/
theorem entry_extends (hblank : D.img D.freeblock = .zero) (hlt : D.freeblock < FSSIZE) {j : ℕ}
    (hj : j < NINDIRECT) (hne : din.addrs NDIRECT ≠ 0) (h0 : (D.img (din.addrs NDIRECT)).word j = 0)
    (hdinode : D'.dinode = D.dinode) (hnext : D'.freeblock = D.freeblock + 1)
    (himg : D'.img = update D.img (din.addrs NDIRECT)
      ((D.img (din.addrs NDIRECT)).setWord j D.freeblock)) :
    Extends config i D.state din D'.state din ∧
      din.number D'.img = update (din.number D.img) (.entry j) D.freeblock := by
  have hzero : update D.img D.freeblock .zero = D.img := by
    rw [← hblank, update_eq_self]
  have hnum := number_setWord (B := D.img) hj hne (hlt.trans (by decide)) .zero
  rw [hzero, ← himg] at hnum
  refine ⟨?_, hnum⟩
  rw [state_next D D' hdinode hnext]
  refine H.attach ⟨rfl, rfl, rfl⟩ ((number_entry _ _ hj hne).trans h0) hlt
    (decide_eq_false (lt_irrefl _)) hnum (fun k hk ha => ?_)
  rw [himg]
  exact number_update_block _ (H.indirect_ne hk ha hne)

end

/-- **Block `fbn` has been added** to the inode. -/
structure Adds (i : ℕ) (D : Disk) (din : Dinode) (D' : Disk) (din' : Dinode) (fbn : ℕ) :
    Prop where
  extend : Extends config i D.state din D'.state din'
  new : din'.look D'.img fbn ≠ 0
  last : D'.freeblock = din'.look D'.img fbn + 1
  only : ∀ bn, bn ≠ fbn → din'.look D'.img bn = din.look D.img bn
  indirect : din'.addrs NDIRECT ≠ 0 ↔ NDIRECT ≤ fbn ∨ din.addrs NDIRECT ≠ 0
  same : ∀ b, b ≠ D.freeblock → b ≠ din.addrs NDIRECT → D'.img b = D.img b
  fits : Fits din'
  freeinode : D'.freeinode = D.freeinode
  freeblock : D'.freeblock =
    D.freeblock + if NDIRECT ≤ fbn ∧ din.addrs NDIRECT = 0 then 2 else 1
  room : D'.freeblock ≤ FSSIZE

theorem addrs_setAddr (d : Dinode) (n b : ℕ) : (d.setAddr n b).addrs = update d.addrs n b := rfl

theorem Fits.setAddr (h : Fits din) (hn : n ≤ NDIRECT) (hb : b < FSSIZE) :
    Fits (din.setAddr n b) := by
  refine ⟨h.type, h.nlink, h.size, fun j => ?_, fun j hj => ?_⟩
  · rw [addrs_setAddr]
    by_cases hj : j = n
    · rw [hj, update_self]
      exact hb.trans (by decide)
    · rw [update_of_ne hj]
      exact h.addrs j
  · rw [addrs_setAddr, update_of_ne (by omega)]
    exact h.tail j hj

section

variable (H : Holding config D.state i din)
include H

/-- A direct block. -/
theorem Adds.direct (hfits : Fits din) (hblank : D.img D.freeblock = .zero)
    (hlt : D.freeblock < FSSIZE) (hn : n < NDIRECT) (h0 : din.addrs n = 0) :
    Adds i D din { D with freeblock := D.freeblock + 1 } (din.setAddr n D.freeblock) n := by
  obtain ⟨he, hnum⟩ := slot_extends H hblank hlt hn.le h0
  have hpos : posOf n = .slot n := if_pos hn
  have hlook : (din.setAddr n D.freeblock).look D.img n = D.freeblock := by
    rw [look_direct _ _ hn, addrs_setAddr, update_self]
  refine ⟨he, hlook.trans_ne (next_ne H), congrArg (· + 1) hlook.symm, fun bn hbn => ?_, ?_,
    fun _ _ _ => rfl, hfits.setAddr hn.le hlt, rfl, ?_, hlt⟩
  · rw [look, hnum, update_of_ne (fun hc => hbn (posOf_inj (hc.trans hpos.symm)))]
    rfl
  · rw [addrs_setAddr, update_of_ne (by omega)]
    simp only [not_le.mpr hn, false_or]
  · rw [if_neg (by omega)]

/-- A block whose number is in the indirect block, which is there. -/
theorem Adds.entry (hfits : Fits din) (hblank : D.img D.freeblock = .zero)
    (hlt : D.freeblock < FSSIZE) (hn : ¬ n < NDIRECT) (hmax : n < MAXFILE)
    (hne : din.addrs NDIRECT ≠ 0) (h0 : (D.img (din.addrs NDIRECT)).word (n - NDIRECT) = 0) :
    Adds i D din ({ D with freeblock := D.freeblock + 1 }.wsect (din.addrs NDIRECT)
      ((D.img (din.addrs NDIRECT)).setWord (n - NDIRECT) D.freeblock)) din n := by
  have hj : n - NDIRECT < NINDIRECT := by
    simp only [MAXFILE] at hmax
    omega
  obtain ⟨he, hnum⟩ := entry_extends H hblank hlt hj hne h0
    (Disk.dinode_wsect { D with freeblock := D.freeblock + 1 }
      (Disk.bmapstart_lt.le.trans (indirect_lt H hne).1) _) rfl rfl
  have hpos : posOf n = .entry (n - NDIRECT) := if_neg hn
  have hlook := congrFun hnum (posOf n)
  rw [hpos, update_self, ← hpos] at hlook
  refine ⟨he, hlook.trans_ne (next_ne H), congrArg (· + 1) hlook.symm, fun bn hbn => ?_, ?_,
    fun b _ hb => update_of_ne hb _ _, hfits, rfl, ?_, hlt⟩
  · rw [look, hnum, update_of_ne (fun hc => hbn (posOf_inj (hc.trans hpos.symm)))]
    rfl
  · simp only [hne, ne_eq, not_false_eq_true, or_true]
  · rw [if_neg (fun hc => hne hc.2)]
    rfl

/-- The first block whose number is in the indirect block, which is allocated as well. -/
theorem Adds.first (hfits : Fits din) (hblank : ∀ b, D.freeblock ≤ b → D.img b = .zero)
    (hlt : D.freeblock + 1 < FSSIZE) (hn : ¬ n < NDIRECT) (hmax : n < MAXFILE)
    (hne : din.addrs NDIRECT = 0) :
    Adds i D din ({ D with freeblock := D.freeblock + 1 + 1 }.wsect D.freeblock
        ((D.img D.freeblock).setWord (n - NDIRECT) (D.freeblock + 1)))
      (din.setAddr NDIRECT D.freeblock) n := by
  have hlt' : D.freeblock < FSSIZE := by omega
  obtain ⟨he, hnum⟩ := slot_extends H (hblank _ le_rfl) hlt' le_rfl hne
  have hself : (din.setAddr NDIRECT D.freeblock).addrs NDIRECT = D.freeblock :=
    by rw [addrs_setAddr, update_self]
  have h₁ := Adds.entry he.holding
    (hfits.setAddr le_rfl hlt') (hblank _ (Nat.le_succ _)) hlt hn hmax
    (hself.symm ▸ next_ne H) (by rw [hself, hblank _ le_rfl]; exact Block.word_zero _)
  rw [hself] at h₁
  refine ⟨he.trans h₁.extend, h₁.new, h₁.last, fun bn hbn => ?_, ?_, fun b hb _ => ?_, h₁.fits,
    rfl, ?_, h₁.room⟩
  · rw [h₁.only bn hbn, look, hnum, update_of_ne (posOf_ne bn)]
    rfl
  · rw [hself]
    simp only [ne_eq, next_ne H, not_false_eq_true, not_lt.mp hn, true_or]
  · exact update_of_ne hb _ _
  · rw [if_pos ⟨not_lt.mp hn, hne⟩]
    rfl

end

/-- What `iappend` leaves as it is until it writes the inode. -/
structure Keeps (D D' : Disk) : Prop where
  freeinode : D'.freeinode = D.freeinode
  dinode : D'.dinode = D.dinode
  super : D'.img 1 = D.img 1

theorem Keeps.refl (D : Disk) : Keeps D D := ⟨rfl, rfl, rfl⟩

theorem Keeps.trans {D₁ : Disk} (h : Keeps D D₁) (h' : Keeps D₁ D') : Keeps D D' :=
  ⟨h'.freeinode.trans h.freeinode, h'.dinode.trans h.dinode, h'.super.trans h.super⟩

theorem Keeps.wsect (D : Disk) (hb : nmeta ≤ b) (X : Block) : Keeps D (D.wsect b X) :=
  ⟨rfl, D.dinode_wsect (Disk.bmapstart_lt.le.trans hb) X,
    update_of_ne (ne_of_lt (lt_of_lt_of_le (by decide) hb)) _ _⟩

theorem Adds.keeps {fbn : ℕ} (A : Adds i D din D' din' fbn) (H : Holding config D.state i din) :
    Keeps D D' := by
  have hnext := H.owned.le_of_free (decide_eq_false (lt_irrefl D.freeblock))
  have hmeta : 1 < config.data := by decide
  refine ⟨A.freeinode, A.extend.disk, A.same 1 (by omega) (fun hc => ?_)⟩
  have hle := (indirect_lt H (hc ▸ one_ne_zero)).1
  rw [← hc] at hle
  exact absurd hle (by decide)

/-- **While `iappend` works on inode `i`**, of which `bytes` have been written, and which
has `m` blocks. The other inodes hold `data`. -/
structure Writing (D : Disk) (i : ℕ) (din : Dinode) (bytes : List UInt8) (m : ℕ)
    (data : ℕ → List UInt8) : Prop where
  holding : Holding config D.state i din
  fits : Fits din
  stored : Stored din D.img bytes m
  others : ∀ j, j ≠ i → Allocated config D.dinode j →
    Stored (D.dinode j) D.img (data j) (nblocks (data j).length)
  blank : ∀ b, D.freeblock ≤ b → D.img b = .zero
  room : D.freeblock ≤ FSSIZE

namespace Writing

variable {bytes : List UInt8} {m : ℕ} {data : ℕ → List UInt8}

section

variable (W : Writing D i din bytes m data)
include W

/-- The inode gets one more block. -/
theorem adds (A : Adds i D din D' din' m) (hm : m < MAXFILE) :
    Writing D' i din' bytes (m + 1) data := by
  have H := W.holding
  have S := W.stored
  have hkeep : ∀ bn, din.look D.img bn ≠ 0 →
      D'.img (din.look D.img bn) = D.img (din.look D.img bn) := fun bn hbn =>
    A.same _ (ne_of_lt (look_lt H hbn).2.1) (H.look_ne_indirect hbn)
  refine ⟨A.extend.holding, A.fits, ⟨fun bn => ?_, ?_, hm, ?_, fun o ho => ?_⟩, fun j hj ha => ?_,
    fun b hb => ?_, A.room⟩
  · by_cases hbn : bn = m
    · rw [hbn]
      exact ⟨fun _ => Nat.lt_succ_self m, fun _ => A.new⟩
    · rw [A.only bn hbn, S.blocks]
      omega
  · rw [A.indirect, S.indirect]
    omega
  · exact S.room.trans (Nat.mul_le_mul_right _ (Nat.le_succ m))
  · have hbn := S.div_lt ho
    rw [← S.byte o ho, byteAt, A.only _ (ne_of_lt hbn), hkeep _ ((S.blocks _).mpr hbn)]
    rfl
  · rw [show D'.dinode = D.dinode from A.extend.disk] at ha ⊢
    have hnum := A.extend.others j hj ha
    refine (W.others j hj ha).congr (fun bn => congrFun hnum _) rfl fun bn hbn => ?_
    refine A.same _ (fun hc => ?_) fun hc => ?_
    · -- the next block is nobody's
      refine next_free H (j, posOf bn) ?_
      rw [held_update_of_ne hj, held_of_allocated ha]
      exact hc
    · have hn := number_slot din D.img (le_refl NDIRECT)
      exact H.number_ne hj ha (hn.trans_ne (hc ▸ hbn)) (posOf bn) (hc.trans hn.symm)
  · have hnext := A.freeblock
    have hlt : D.freeblock < b := by
      split at hnext <;> omega
    rw [A.same b (ne_of_gt hlt), W.blank b hlt.le]
    rintro rfl
    by_cases h0 : din.addrs NDIRECT = 0
    · omega
    · exact absurd (indirect_lt H h0).2.1 (not_lt.mpr hlt.le)

/-- A block that is there is found. -/
theorem blockFor_of_lt {fbn : ℕ} (h : fbn < m) :
    D.blockFor din fbn = .ok (D, din, din.look D.img fbn) := by
  have h0 := (W.stored.blocks fbn).mpr h
  unfold Disk.blockFor
  by_cases hd : fbn < NDIRECT
  · rw [look_direct _ _ hd] at h0 ⊢
    rw [if_pos hd, if_neg h0]
  have hj : fbn - NDIRECT < NINDIRECT := by
    have := W.stored.le
    simp only [MAXFILE] at this
    omega
  have hne : din.addrs NDIRECT ≠ 0 := W.stored.indirect.mpr (by omega)
  rw [look_indirect _ _ hd, number_entry _ _ hj hne] at h0 ⊢
  rw [if_neg hd, if_neg hne]
  dsimp only
  rw [D.rsect_eq (indirect_lt W.holding hne).2.2, ok_bind, if_neg h0]

/-- The next block of the file is allocated, with the indirect block if it is the first
that needs it; or the number is past the end of the image. -/
theorem blockFor_next (hm : m < MAXFILE) :
    (∃ D' din', D.blockFor din m = .ok (D', din', din'.look D'.img m) ∧ Adds i D din D' din' m) ∨
    (FSSIZE + taken m < D.freeblock + taken (m + 1) ∧
      ∀ r, D.blockFor din m = .ok r → FSSIZE ≤ r.2.2) := by
  have H := W.holding
  have hlook : din.look D.img m = 0 := by
    by_contra hc
    exact absurd ((W.stored.blocks m).mp hc) (lt_irrefl m)
  -- the number that is returned is the last one handed out
  have hres : ∀ {D' din' x}, D.blockFor din m = .ok (D', din', x) → D'.freeblock = x + 1 →
      D'.freeblock + taken m = D.freeblock + taken (m + 1) →
      (x < FSSIZE → Adds i D din D' din' m) →
      (∃ D' din', D.blockFor din m = .ok (D', din', din'.look D'.img m) ∧
        Adds i D din D' din' m) ∨
      (FSSIZE + taken m < D.freeblock + taken (m + 1) ∧
        ∀ r, D.blockFor din m = .ok r → FSSIZE ≤ r.2.2) := by
    intro D' din' x h hx htaken hA
    by_cases hlt : x < FSSIZE
    · have := (hA hlt).last
      exact .inl ⟨D', din', by rw [h, show x = din'.look D'.img m by omega], hA hlt⟩
    · refine .inr ⟨by omega, fun r hr => ?_⟩
      rw [h] at hr
      exact Except.ok.inj hr ▸ not_lt.mp hlt
  by_cases hd : m < NDIRECT
  · rw [look_direct _ _ hd] at hlook
    have heq : D.blockFor din m = .ok ({ D with freeblock := D.freeblock + 1 },
        din.setAddr m D.freeblock, D.freeblock) := by
      rw [Disk.blockFor, if_pos hd, if_pos hlook]
    refine hres heq rfl ?_ (fun hlt => Adds.direct H W.fits (W.blank _ le_rfl) hlt hd hlook)
    rw [taken, taken, if_neg (by omega), if_neg (by omega)]
    exact Nat.add_right_comm _ 1 m
  by_cases hind : din.addrs NDIRECT = 0
  · have hle : ¬ NDIRECT < m := fun hc => W.stored.indirect.mpr hc hind
    have heq : D.freeblock < FSSIZE → D.blockFor din m =
        .ok ({ D with freeblock := D.freeblock + 1 + 1 }.wsect D.freeblock
            ((D.img D.freeblock).setWord (m - NDIRECT) (D.freeblock + 1)),
          din.setAddr NDIRECT D.freeblock, D.freeblock + 1) := by
      intro hlt
      rw [Disk.blockFor, if_neg hd, if_pos hind]
      dsimp only
      rw [addrs_setAddr, update_self, Disk.rsect_eq _ hlt, ok_bind, if_pos]
      rw [W.blank _ le_rfl]
      exact Block.word_zero _
    have htaken : taken (m + 1) = taken m + 2 := by
      rw [taken, taken, if_neg hle, if_pos (by omega)]
    by_cases hlt : D.freeblock < FSSIZE
    · refine hres (heq hlt) rfl ?_ (fun hlt' => Adds.first H W.fits W.blank hlt' hd hm hind)
      show D.freeblock + 1 + 1 + taken m = _
      omega
    · refine .inr ⟨by omega, fun r hr => ?_⟩
      rw [Disk.blockFor, if_neg hd, if_pos hind] at hr
      dsimp only at hr
      rw [addrs_setAddr, update_self, Disk.rsect, if_neg hlt] at hr
      cases hr
  · have hle : NDIRECT < m := W.stored.indirect.mp hind
    have hj : m - NDIRECT < NINDIRECT := by
      simp only [MAXFILE] at hm
      omega
    rw [look_indirect _ _ hd, number_entry _ _ hj hind] at hlook
    have heq : D.blockFor din m =
        .ok ({ D with freeblock := D.freeblock + 1 }.wsect (din.addrs NDIRECT)
          ((D.img (din.addrs NDIRECT)).setWord (m - NDIRECT) D.freeblock), din, D.freeblock) := by
      rw [Disk.blockFor, if_neg hd, if_neg hind]
      dsimp only
      rw [D.rsect_eq (indirect_lt H hind).2.2, ok_bind, if_pos hlook]
    refine hres heq rfl ?_
      (fun hlt => Adds.entry H W.fits (W.blank _ le_rfl) hlt hd hm hind hlook)
    rw [Disk.freeblock_wsect, taken, taken, if_pos hle, if_pos (by omega)]
    dsimp only
    omega

end

/-- **The block for the next byte.** -/
theorem blockFor (W : Writing D i din bytes (nblocks bytes.length) data)
    (hmax : bytes.length / BSIZE < MAXFILE) :
    (∃ D' din' x, D.blockFor din (bytes.length / BSIZE) = .ok (D', din', x) ∧
      x = din'.look D'.img (bytes.length / BSIZE) ∧
      Writing D' i din' bytes (bytes.length / BSIZE + 1) data ∧ Keeps D D' ∧ din'.type = din.type ∧
      D'.freeblock + taken (nblocks bytes.length) =
        D.freeblock + taken (bytes.length / BSIZE + 1)) ∨
    (FSSIZE + taken (nblocks bytes.length) < D.freeblock + taken (bytes.length / BSIZE + 1) ∧
      ∀ r, D.blockFor din (bytes.length / BSIZE) = .ok r → FSSIZE ≤ r.2.2) := by
  rcases nblocks_cases bytes.length with hm | hm
  · rw [hm] at W ⊢
    rcases W.blockFor_next hmax with ⟨D', din', heq, A⟩ | h
    · have hnext := A.freeblock
      have hind := W.stored.indirect
      refine .inl ⟨D', din', _, heq, rfl, W.adds A hmax, A.keeps W.holding, A.extend.fields.1, ?_⟩
      rw [hnext, taken, taken]
      by_cases h0 : din.addrs NDIRECT = 0
      · have hle : ¬ NDIRECT < bytes.length / BSIZE := fun hc => hind.mpr hc h0
        rw [if_neg hle]
        split_ifs <;> omega
      · have hlt := hind.mp h0
        rw [if_pos hlt, if_neg (fun hc => h0 hc.2), if_pos (by omega)]
        omega
    · exact .inr h
  · rw [hm] at W ⊢
    exact .inl ⟨D, din, _, W.blockFor_of_lt (Nat.lt_succ_self _), rfl, W, .refl D, rfl, rfl⟩

/-- **The next bytes are written** to that block. -/
theorem write (W : Writing D i din bytes (bytes.length / BSIZE + 1) data) {q : List UInt8}
    (hq : bytes.length % BSIZE + q.length ≤ BSIZE) :
    Writing (D.wsect (din.look D.img (bytes.length / BSIZE))
        ((D.img (din.look D.img (bytes.length / BSIZE))).overwrite
          (bytes.length - bytes.length / BSIZE * BSIZE) q))
      i din (bytes ++ q) (bytes.length / BSIZE + 1) data := by
  have H := W.holding
  have S := W.stored
  have hdiv := Nat.div_add_mod' bytes.length BSIZE
  have hbn := (S.blocks (bytes.length / BSIZE)).mpr (Nat.lt_succ_self _)
  have hsub : bytes.length - bytes.length / BSIZE * BSIZE = bytes.length % BSIZE := by omega
  rw [hsub]
  generalize hX : (D.img (din.look D.img (bytes.length / BSIZE))).overwrite
    (bytes.length % BSIZE) q = X
  have E := H.write hbn X
  have hrange := look_lt H hbn
  have hind : din.addrs NDIRECT ≠ din.look D.img (bytes.length / BSIZE) :=
    (H.look_ne_indirect hbn).symm
  have hkeeps := Keeps.wsect D hrange.1 X
  refine ⟨state_wsect D (Disk.bmapstart_lt.le.trans hrange.1) X ▸ E.holding, W.fits,
    ⟨fun bn => ?_, S.indirect, S.le, ?_,
    fun o ho => ?_⟩, fun j hj ha => ?_, fun b hb => ?_, W.room⟩
  · rw [← S.blocks bn]
    show din.number (update D.img _ X) _ ≠ 0 ↔ _
    rw [number_update_block X hind]
    rfl
  · rw [length_append, Nat.succ_mul]
    omega
  · rw [length_append] at ho
    have hle : o / BSIZE < bytes.length / BSIZE + 1 := by
      rw [Nat.div_lt_iff_lt_mul (by decide), Nat.succ_mul]
      omega
    refine (H.byteAt_write hbn ((S.blocks _).mpr hle) X).trans ?_
    rw [← hX, Block.overwrite]
    have hodiv := Nat.div_add_mod' o BSIZE
    by_cases hob : o < bytes.length
    · rw [getElem_append_left hob, ← S.byte o hob]
      split
      · next h =>
        rw [h] at hodiv
        rw [if_neg (by omega), byteAt, h]
      · rfl
    · have h : o / BSIZE = bytes.length / BSIZE :=
        le_antisymm (Nat.lt_succ_iff.mp hle) (Nat.div_le_div_right (not_lt.mp hob))
      rw [h] at hodiv
      rw [if_pos h, if_pos (by omega), getElem_append_right (not_lt.mp hob),
        getD_eq_getElem _ _ (by omega)]
      congr 1
      omega
  · rw [hkeeps.dinode] at ha ⊢
    refine (W.others j hj ha).congr (fun bn => congrFun (E.others j hj ha) _) rfl fun bn _ => ?_
    exact update_of_ne (H.number_ne hj ha hbn _) _ _
  · rw [Disk.img_wsect, update_of_ne (ne_of_gt (lt_of_lt_of_le hrange.2.1 hb))]
    exact W.blank b hb

/-- **The loop of `iappend`** writes the bytes, if the file does not become too long and
there are blocks enough. -/
theorem iappendLoop (W : Writing D i din bytes (nblocks bytes.length) data) {p : List UInt8}
    {rounds : ℕ} (hrounds : p.length ≤ rounds) :
    (∃ D' din', Disk.iappendLoop rounds D din bytes.length p = .ok (D', din', (bytes ++ p).length) ∧
      Writing D' i din' (bytes ++ p) (nblocks (bytes ++ p).length) data ∧ Keeps D D' ∧
      din'.type = din.type ∧ D'.freeblock + taken (nblocks bytes.length) =
        D.freeblock + taken (nblocks (bytes ++ p).length)) ∨
    ((∃ e, Disk.iappendLoop rounds D din bytes.length p = .error e) ∧
      (MAXFILE * BSIZE < (bytes ++ p).length ∨ FSSIZE + taken (nblocks bytes.length) <
          D.freeblock + taken (nblocks (bytes ++ p).length))) := by
  induction rounds generalizing D din bytes p with
  | zero =>
    have hp : p = [] := eq_nil_of_length_eq_zero (Nat.le_zero.mp hrounds)
    subst hp
    rw [append_nil]
    exact .inl ⟨D, din, rfl, W, .refl D, rfl, rfl⟩
  | succ rounds ih =>
    unfold Disk.iappendLoop
    by_cases hp : p = []
    · subst hp
      rw [if_pos rfl, append_nil]
      exact .inl ⟨D, din, rfl, W, .refl D, rfl, rfl⟩
    have hpos : 0 < p.length := length_pos_of_ne_nil hp
    rw [if_neg hp]
    dsimp only
    split_ifs with hmax
    · refine .inr ⟨⟨_, rfl⟩, .inl ?_⟩
      rw [Nat.le_div_iff_mul_le (by decide)] at hmax
      rw [length_append]
      omega
    -- the bytes of this round
    obtain ⟨n, hn⟩ : ∃ n, n = min p.length ((bytes.length / BSIZE + 1) * BSIZE - bytes.length) :=
      ⟨_, rfl⟩
    rw [← hn]
    have hdiv := Nat.div_add_mod' bytes.length BSIZE
    have hmod := Nat.mod_lt bytes.length (show 0 < BSIZE by decide)
    rw [Nat.succ_mul] at hn
    have hq : (p.take n).length = n := by
      rw [length_take]
      omega
    have hlen : (bytes ++ p.take n).length = bytes.length + n := by rw [length_append, hq]
    have hblocks : nblocks (bytes ++ p.take n).length = bytes.length / BSIZE + 1 := by
      rw [hlen]
      exact nblocks_add (by omega) (by omega)
    have happ : bytes ++ p = bytes ++ p.take n ++ p.drop n := by
      rw [append_assoc, take_append_drop]
    have hmono : taken (bytes.length / BSIZE + 1) ≤ taken (nblocks (bytes ++ p).length) := by
      rw [← hblocks]
      refine taken_mono (nblocks_mono ?_)
      rw [hlen, length_append]
      omega
    rcases W.blockFor (not_le.mp hmax) with ⟨D₁, din₁, x, heq, rfl, W₁, hk, ht, hb⟩ | ⟨hb, hr⟩
    · have hx := look_lt W₁.holding ((W₁.stored.blocks _).mpr (Nat.lt_succ_self _))
      have W₂ := W₁.write (q := p.take n) (by omega)
      rw [heq, ok_bind]
      rw [Disk.rsect_eq _ hx.2.2, ok_bind, ← hlen]
      rw [← hblocks] at W₂ hb
      rcases ih W₂ (p := p.drop n) (by rw [length_drop]; omega) with
        ⟨D', din', he, W', hk', ht', hb'⟩ | ⟨he, hb'⟩
      · rw [← happ] at he W' hb'
        refine .inl ⟨D', din', he, W', (hk.trans (.wsect _ hx.1 _)).trans hk', ht'.trans ht, ?_⟩
        rw [Disk.freeblock_wsect] at hb'
        omega
      · rw [← happ] at hb'
        refine .inr ⟨he, hb'.imp_right (fun hlt => ?_)⟩
        rw [Disk.freeblock_wsect] at hlt
        omega
    · refine .inr ⟨?_, .inr (by omega)⟩
      cases heq : D.blockFor din (bytes.length / BSIZE) with
      | error e => exact ⟨e, rfl⟩
      | ok r =>
        obtain ⟨D₁, din₁, x⟩ := r
        rw [ok_bind]
        rw [Disk.rsect, if_neg (not_lt.mpr (hr _ heq))]
        exact ⟨_, rfl⟩

end Writing

/-! ## Writing an inode -/

/-- **The image between calls**: the inodes in use hold `data`. -/
structure Image (D : Disk) (data : ℕ → List UInt8) : Prop where
  owned : Owned config D.dinode D.img D.state.bitmap
  fits : ∀ j, Allocated config D.dinode j → Fits (D.dinode j)
  stored : ∀ j, Allocated config D.dinode j →
    Stored (D.dinode j) D.img (data j) (nblocks (data j).length)
  blank : ∀ b, D.freeblock ≤ b → D.img b = .zero
  room : D.freeblock ≤ FSSIZE

variable {data : ℕ → List UInt8} {bytes : List UInt8}

/-- A sector before the data blocks holds nothing of a file. -/
theorem Stored.update_meta {B : ℕ → Block} {m sec : ℕ}
    (S : Stored d B bytes m) (hrange : ∀ q, d.number B q ≠ 0 → nmeta ≤ d.number B q)
    (h0 : 0 < sec) (hsec : sec < nmeta) (X : Block) : Stored d (update B sec X) bytes m := by
  have hne : ∀ q, d.number B q ≠ sec := by
    intro q hq
    have := hrange q (by omega)
    omega
  have hnum := number_update_block (B := B) X
    (number_slot d B (le_refl NDIRECT) ▸ hne (.slot NDIRECT))
  exact S.congr (fun bn => congrFun hnum _) rfl (fun bn _ => update_of_ne (hne (posOf bn)) _ _)

/-- **The inode that has been worked on is written.** -/
theorem Writing.winode (W : Writing D i din bytes (nblocks bytes.length) data)
    (hfits : ∀ j, j ≠ i → Allocated config D.dinode j → Fits (D.dinode j)) (hd : Fits d)
    (htype : d.type = din.type) (haddrs : d.addrs = din.addrs) :
    ∃ D', D.winode i d = .ok D' ∧ D'.freeinode = D.freeinode ∧ D'.freeblock = D.freeblock ∧
      D'.dinode = update D.dinode i d ∧ D'.img 1 = D.img 1 ∧ Image D' (update data i bytes) := by
  have H := W.holding.congr htype haddrs
  obtain ⟨D', sec, X, heq, hfi, hfb, hdin, _, hsec, himg⟩ := D.winode_eq W.holding.lt hd
  have hmeta : sec < nmeta := hsec.trans (by decide)
  have hown : Owned config (update D.dinode i d) D.img
      (fun b => decide (b < D.freeblock)) := H.owned
  have hmap : ∀ b, nmeta ≤ b → D'.img b = D.img b := fun b hb => by
    rw [himg, update_of_ne (by omega)]
  have hne : ∀ p, held config (update D.dinode i d) D.img p ≠ sec := by
    intro p hp
    have := (hown.range p (by omega)).1
    have hdata : config.data = nmeta := rfl
    omega
  refine ⟨D', heq, hfi, hfb, hdin, ?_, ?_, fun j ha => ?_, fun j ha => ?_, fun b hb => ?_,
    hfb ▸ W.room⟩
  · rw [himg, update_of_ne (by omega)]
  · show Owned config D'.dinode D'.img (fun b => decide (b < D'.freeblock))
    rw [hdin, himg, hfb]
    show Ownership.Exact _ _ _ _
    rw [held_update_block X (fun j => hne _)]
    exact hown
  · rw [hdin] at ha ⊢
    by_cases hj : j = i
    · rw [hj, update_self]
      exact hd
    · rw [update_of_ne hj]
      refine hfits j hj ?_
      rwa [Allocated, update_of_ne hj] at ha
  · rw [hdin] at ha ⊢
    have hrange : ∀ q, (update D.dinode i d j).number D.img q ≠ 0 →
        nmeta ≤ (update D.dinode i d j).number D.img q := by
      intro q hq
      rw [← held_of_allocated ha] at hq ⊢
      exact (hown.range _ hq).1
    rw [himg]
    refine Stored.update_meta ?_ hrange (by omega) hmeta X
    by_cases hj : j = i
    · subst hj
      rw [update_self, update_self]
      exact W.stored.congr (fun bn => congrFun (number_congr D.img haddrs) _)
        (by rw [haddrs]) (fun _ _ => rfl)
    · rw [Allocated, update_of_ne hj] at ha
      rw [update_of_ne hj, update_of_ne hj]
      exact W.others j hj ha
  · have := hown.le_of_free (decide_eq_false (lt_irrefl D.freeblock))
    have hdata : config.data = nmeta := rfl
    rw [hmap b (by omega), W.blank b (by omega)]

end Allocation

end Xv6.Mkfs
