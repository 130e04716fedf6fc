import OsProject.Blocks

/-!
# Every block has one owner

The bitmap of the disk is exact (`Ownership.Exact`): a data block is marked if
and only if its number is in one of the places where `fs.c` keeps block numbers,
and then in one place only. The places are the direct and indirect slots of the
inodes that are in use, and the words of their indirect blocks (`Place`).

A call changes an inode in memory first, so while it runs the places are those
of the disk with the copy in memory in place of one inode (`Holding`). What
`bmap` does to them is said once (`Extends`): it may fill empty places of that
inode, and no block of another inode changes its meaning, because an indirect
block has one owner too. The loop of `writei` and its exits follow from that,
and `itrunc` empties all places of an inode at once.

A file has no holes: what is below its size has blocks. `readi` also calls
`bmap`, and on a hole it would allocate a block that no `iupdate` records. The
files of a disk without holes stay without them.
-/

namespace Xv6.Blocks

open Ownership State Dinode List
open Function (update update_self update_of_ne update_eq_self update_idem)

/-- Where an inode keeps block numbers: `addrs[k]`, or word `j` of its indirect
block. -/
inductive Pos where
  | slot (k : ℕ)
  | entry (j : ℕ)
  deriving DecidableEq

/-- A place on the disk: an inode number and a position. -/
abbrev Place := ℕ × Pos

/-- The block number at a position of an inode, 0 if there is none. -/
def Dinode.number (d : Dinode) (B : ℕ → Block) : Pos → ℕ
  | .slot k => if k ≤ NDIRECT then d.addrs k else 0
  | .entry j =>
    if j < NINDIRECT ∧ d.addrs NDIRECT ≠ 0 then (B (d.addrs NDIRECT)).word j else 0

/-- An inode in use. -/
def Allocated (C : Config) (D : ℕ → Dinode) (i : ℕ) : Prop := i < C.ninodes ∧ (D i).type ≠ 0

instance (C : Config) (D : ℕ → Dinode) (i : ℕ) : Decidable (Allocated C D i) :=
  inferInstanceAs (Decidable (_ ∧ _))

/-- **The block number in a place.** -/
def held (C : Config) (D : ℕ → Dinode) (B : ℕ → Block) (p : Place) : ℕ :=
  if Allocated C D p.1 then (D p.1).number B p.2 else 0

/-- The bitmap is exact. -/
abbrev Owned (C : Config) (D : ℕ → Dinode) (B : ℕ → Block) (bits : ℕ → Bool) : Prop :=
  Exact C.data C.size (held C D B) bits

/-- The position of block `bn` of an inode. -/
def posOf (bn : ℕ) : Pos := if bn < NDIRECT then .slot bn else .entry (bn - NDIRECT)

/-- Block `bn` of an inode, 0 if it has none. -/
def Dinode.look (d : Dinode) (B : ℕ → Block) (bn : ℕ) : ℕ := d.number B (posOf bn)

/-- The first `n` bytes of the inode have blocks. -/
def Dinode.Mapped (d : Dinode) (B : ℕ → Block) (n : ℕ) : Prop :=
  ∀ bn, bn * BSIZE < n → d.look B bn ≠ 0

variable {C : Config} {D : ℕ → Dinode} {B : ℕ → Block} {s s' s₁ : State} {i b n bn off tot j : ℕ}
  {d ip ip' ip₁ : Dinode} {k : Fin NINODE} {f : ℕ → ℕ} {q : Pos}

/-! ## Positions -/

namespace Dinode

@[simp] theorem number_slot (d : Dinode) (B : ℕ → Block) {k : ℕ} (hk : k ≤ NDIRECT) :
    d.number B (.slot k) = d.addrs k := if_pos hk

theorem number_entry (d : Dinode) (B : ℕ → Block) (hj : j < NINDIRECT)
    (h : d.addrs NDIRECT ≠ 0) : d.number B (.entry j) = (B (d.addrs NDIRECT)).word j :=
  if_pos ⟨hj, h⟩

theorem number_entry_zero (d : Dinode) (B : ℕ → Block) (j : ℕ) (h : d.addrs NDIRECT = 0) :
    d.number B (.entry j) = 0 := if_neg (fun hc => hc.2 h)

theorem look_direct (d : Dinode) (B : ℕ → Block) (h : bn < NDIRECT) :
    d.look B bn = d.addrs bn := by
  rw [look, posOf, if_pos h, number_slot d B h.le]

theorem look_indirect (d : Dinode) (B : ℕ → Block) (h : ¬ bn < NDIRECT) :
    d.look B bn = d.number B (.entry (bn - NDIRECT)) := by
  rw [look, posOf, if_neg h]

/-- The indirect block is not one of the blocks of the file. -/
theorem posOf_ne (bn : ℕ) : posOf bn ≠ .slot NDIRECT := by
  unfold posOf
  split
  · next h => exact fun he => absurd (Pos.slot.inj he) (ne_of_lt h)
  · exact nofun

/-- The positions do not depend on the other fields. -/
theorem number_congr {d' : Dinode} (B : ℕ → Block) (h : d'.addrs = d.addrs) :
    d'.number B = d.number B := by
  funext q
  cases q <;> simp only [number, h]

/-- Writing a block other than the indirect block changes no position. -/
theorem number_update_block (X : Block) (hb : d.addrs NDIRECT ≠ b) :
    d.number (update B b X) = d.number B := by
  funext q
  cases q with
  | slot => rfl
  | entry => simp only [number, update_of_ne hb]

/-- Storing a fresh block, which is zeroed, in an empty slot. -/
theorem number_setAddr (hn : n ≤ NDIRECT) (h0 : d.addrs n = 0)
    (hb : d.addrs NDIRECT ≠ b) : (d.setAddr n b).number (update B b .zero) =
      update (d.number B) (.slot n) b := by
  funext q
  cases q with
  | slot m =>
    by_cases hm : m = n
    · simp [number, setAddr, hm, hn]
    · simp [number, setAddr, hm]
  | entry =>
    by_cases hm : NDIRECT = n
    · -- the new block is the indirect block, with no entries yet
      subst hm
      simp [number, setAddr, h0]
    · simp [number, setAddr, hm, hb]

/-- Storing a fresh block in the indirect block. -/
theorem number_setWord (hj : j < NINDIRECT) (hne : d.addrs NDIRECT ≠ 0)
    (hb : b < 2 ^ 32) (X : Block) : d.number (update (update B b X) (d.addrs NDIRECT)
        ((B (d.addrs NDIRECT)).setWord j b)) = update (d.number B) (.entry j) b := by
  funext q
  cases q with
  | slot => simp [number]
  | entry l =>
    by_cases hl : l = j
    · subst hl
      rw [update_self, number_entry d _ hj hne, update_self, Block.word_setWord_self _ _ hb]
    · simp [number, hl, Block.word_setWord_of_ne _ _ hl]

/-- With a block for the byte at `off`, the rest of that block is mapped. -/
theorem Mapped.extend {off m : ℕ} (hm : d.Mapped B off) (h0 : d.look B (off / BSIZE) ≠ 0)
    (hblock : off % BSIZE + m ≤ BSIZE) : d.Mapped B (off + m) := by
  intro bn hlt
  have hdiv := Nat.div_add_mod' off BSIZE
  rcases lt_trichotomy bn (off / BSIZE) with hbn | rfl | hbn
  · refine hm bn ?_
    have := mul_lt_mul_of_pos_right hbn (show 0 < BSIZE by decide)
    omega
  · exact h0
  · have := Nat.mul_le_mul_right BSIZE (Nat.succ_le_of_lt hbn)
    rw [Nat.succ_mul] at this
    omega

end Dinode

/-! ## Places -/

theorem held_of_allocated (hi : Allocated C D i) (B : ℕ → Block) (q : Pos) :
    held C D B (i, q) = (D i).number B q := if_pos hi

/-- What is held, with the copy of one inode in place of it. -/
theorem held_update (h : Allocated C (update D i ip) i) (q : Pos) :
    held C (update D i ip) B (i, q) = ip.number B q := by
  rw [held_of_allocated h, update_self]

/-- Another inode is in use as before. -/
theorem allocated_update_of_ne (hj : j ≠ i) :
    Allocated C (update D i ip) j ↔ Allocated C D j := by
  rw [Allocated, Allocated, update_of_ne hj]

theorem held_update_of_ne (hj : j ≠ i) (q : Pos) :
    held C (update D i ip) B (j, q) = held C D B (j, q) := by
  simp only [held, allocated_update_of_ne hj, update_of_ne hj]

/-- A block that is no indirect block can be written without changing a
place. -/
theorem held_update_block (X : Block) (hb : ∀ i, held C D B (i, .slot NDIRECT) ≠ b) :
    held C D (update B b X) = held C D B := by
  funext ⟨i, q⟩
  by_cases ha : Allocated C D i
  · have hne : (D i).addrs NDIRECT ≠ b := by
      have := hb i
      rwa [held_of_allocated ha, number_slot _ _ (le_refl _)] at this
    rw [held_of_allocated ha, held_of_allocated ha, number_update_block X hne]
  · rw [held, held, if_neg ha, if_neg ha]

/-! ## One inode in memory -/

/-- **While a call works on inode `i`**, with the copy `ip` in memory: the
bitmap is exact for the disk with the copy in place of the inode. -/
structure Holding (C : Config) (s : State) (i : ℕ) (ip : Dinode) : Prop where
  owned : Owned C (update s.dinode i ip) s.block s.bitmap
  lt : i < C.ninodes
  type : ip.type ≠ 0

/-- **What `bmap` may do** to the state and the copy of inode `i`. -/
structure Extends (C : Config) (i : ℕ) (s : State) (ip : Dinode) (s' : State) (ip' : Dinode) :
    Prop where
  holding : Holding C s' i ip'
  disk : s'.dinode = s.dinode
  table : s'.inode = s.inode
  fields : ip'.type = ip.type ∧ ip'.size = ip.size ∧ ip'.nlink = ip.nlink
  /-- A block the inode has is not replaced. -/
  keeps : ∀ bn, ip.look s.block bn ≠ 0 → ip'.look s'.block bn = ip.look s.block bn
  /-- The other inodes keep theirs. -/
  others : ∀ j, j ≠ i → Allocated C s.dinode j →
    (s.dinode j).number s'.block = (s.dinode j).number s.block

namespace Extends

theorem refl (H : Holding C s i ip) : Extends C i s ip s ip :=
  ⟨H, rfl, rfl, ⟨rfl, rfl, rfl⟩, fun _ _ => rfl, fun _ _ _ => rfl⟩

theorem trans (h : Extends C i s ip s₁ ip₁) (h' : Extends C i s₁ ip₁ s' ip') :
    Extends C i s ip s' ip' := by
  refine ⟨h'.holding, h'.disk.trans h.disk, h'.table.trans h.table,
    ⟨h'.fields.1.trans h.fields.1, h'.fields.2.1.trans h.fields.2.1,
      h'.fields.2.2.trans h.fields.2.2⟩, fun bn hbn => ?_, fun j hj ha => ?_⟩
  · have hk := h.keeps bn hbn
    rw [h'.keeps bn (by rw [hk]; exact hbn), hk]
  · have ho := h'.others j hj (h.disk ▸ ha)
    rw [h.disk] at ho
    rw [ho, h.others j hj ha]

/-- Bytes the inode has blocks for stay so. -/
theorem mapped (h : Extends C i s ip s' ip') (hm : ip.Mapped s.block n) :
    ip'.Mapped s'.block n := by
  intro bn hbn
  rw [h.keeps bn (hm bn hbn)]
  exact hm bn hbn

end Extends

namespace Holding

theorem allocated (H : Holding C s i ip) : Allocated C (update s.dinode i ip) i :=
  ⟨H.lt, by rw [update_self]; exact H.type⟩

/-- The indirect block of the inode is held by its slot. -/
theorem held_slot (H : Holding C s i ip) (hn : n ≤ NDIRECT) :
    held C (update s.dinode i ip) s.block (i, .slot n) = ip.addrs n := by
  rw [held_update H.allocated, number_slot _ _ hn]

variable {j : ℕ} {B' : ℕ → Block}

/-- So is that of another inode. -/
theorem indirect_of_ne (ip : Dinode) (hj : j ≠ i) (ha : Allocated C s.dinode j) :
    held C (update s.dinode i ip) s.block (j, .slot NDIRECT) = (s.dinode j).addrs NDIRECT := by
  rw [held_update_of_ne hj, held_of_allocated ha, number_slot _ _ (le_refl _)]

variable (H : Holding C s i ip)
include H

/-- The places, when only the positions of inode `i` have changed. -/
theorem held_eq_of_numbers (ht : ip'.type = ip.type) (hother : ∀ j, j ≠ i → Allocated C s.dinode j →
      (s.dinode j).number B' = (s.dinode j).number s.block) (p : Place) :
    held C (update s.dinode i ip') B' p = if p.1 = i then ip'.number B' p.2
      else held C (update s.dinode i ip) s.block p := by
  obtain ⟨j, -⟩ := p
  by_cases hj : j = i
  · subst hj
    rw [if_pos rfl, held_update ⟨H.lt, by rw [update_self, ht]; exact H.type⟩]
  · rw [if_neg hj, held_update_of_ne hj, held_update_of_ne hj]
    by_cases ha : Allocated C s.dinode j
    · rw [held_of_allocated ha, held_of_allocated ha, hother j hj ha]
    · rw [held, held, if_neg ha, if_neg ha]

/-- Another inode does not have a block of this one. -/
theorem number_ne (hj : j ≠ i) (ha : Allocated C s.dinode j)
    (hq : ip.number s.block q ≠ 0) (r : Pos) :
    (s.dinode j).number s.block r ≠ ip.number s.block q := by
  intro hc
  have hi := held_update (B := s.block) H.allocated q
  have hjr : held C (update s.dinode i ip) s.block (j, r) =
      (s.dinode j).number s.block r := by
    rw [held_update_of_ne hj, held_of_allocated ha]
  have := H.owned.inj (i, q) (j, r) (hi ▸ hq) (hi.trans (hc.symm.trans hjr.symm))
  exact hj (Prod.mk.inj this).1.symm

/-- Two inodes do not have the same indirect block. -/
theorem indirect_ne (hj : j ≠ i) (ha : Allocated C s.dinode j) (hne : ip.addrs NDIRECT ≠ 0) :
    (s.dinode j).addrs NDIRECT ≠ ip.addrs NDIRECT := by
  have h := fun d : Dinode => number_slot d s.block (le_refl NDIRECT)
  rw [← h ip, ← h (s.dinode j)]
  exact H.number_ne hj ha ((h ip).symm ▸ hne) _

/-- **A fresh block in an empty position of the inode.** -/
theorem attach
    (hf : ip'.type = ip.type ∧ ip'.size = ip.size ∧ ip'.nlink = ip.nlink)
    (h0 : ip.number s.block q = 0) (hlt : b < C.size) (hb : s.bitmap b = false)
    (hnum : ip'.number B' = update (ip.number s.block) q b)
    (hother : ∀ j, j ≠ i → Allocated C s.dinode j →
      (s.dinode j).number B' = (s.dinode j).number s.block) : Extends C i s ip
      { s with bitmap := update s.bitmap b true, block := B' } ip' := by
  have hheld : held C (update s.dinode i ip') B' =
      update (held C (update s.dinode i ip) s.block) (i, q) b := by
    funext ⟨j, r⟩
    rw [H.held_eq_of_numbers hf.1 hother, hnum]
    by_cases hj : j = i
    · subst hj
      rw [if_pos rfl]
      by_cases hr : r = q
      · rw [hr, update_self, update_self]
      · rw [update_of_ne hr, update_of_ne (by simpa using hr),
          held_update H.allocated]
    · rw [if_neg hj, update_of_ne (fun he => hj (Prod.mk.inj he).1)]
  refine ⟨⟨?_, H.lt, hf.1 ▸ H.type⟩, rfl, rfl, hf, ?_, hother⟩
  · show Exact _ _ _ _
    rw [hheld]
    exact H.owned.attach ((held_update H.allocated q).trans h0) hb hlt
  · intro bn hbn
    have hne : posOf bn ≠ q := by
      rintro rfl
      exact hbn h0
    rw [look, hnum, update_of_ne hne]
    rfl

/-- **A write to a block of the file** changes no place: it is nobody's indirect
block. -/
theorem write (hbn : ip.look s.block bn ≠ 0) (X : Block) :
    Extends C i s ip (s.setBlock (ip.look s.block bn) X) ip := by
  have hp : held C (update s.dinode i ip) s.block (i, posOf bn) = ip.look s.block bn :=
    held_update H.allocated _
  have hne : ∀ j, held C (update s.dinode i ip) s.block (j, .slot NDIRECT) ≠
      ip.look s.block bn := by
    intro j hj
    have he := H.owned.inj (i, posOf bn) (j, .slot NDIRECT) (hp ▸ hbn) (hp.trans hj.symm)
    exact posOf_ne bn (Prod.mk.inj he).2
  have hind : ip.addrs NDIRECT ≠ ip.look s.block bn := H.held_slot (le_refl _) ▸ hne i
  refine ⟨⟨?_, H.lt, H.type⟩, rfl, rfl, ⟨rfl, rfl, rfl⟩, fun bn' _ => ?_, fun j hj ha => ?_⟩
  · show Exact _ _ (held C (update s.dinode i ip) (update s.block (ip.look s.block bn) X)) s.bitmap
    rw [held_update_block X hne]
    exact H.owned
  · show ip.number (update s.block (ip.look s.block bn) X) _ = _
    rw [number_update_block X hind]
    rfl
  · exact number_update_block X (indirect_of_ne ip hj ha ▸ hne j)

end Holding

/-! ## `bmap` -/

theorem sub_lt_NINDIRECT (h : bn < MAXFILE) (hd : ¬ bn < NDIRECT) : bn - NDIRECT < NINDIRECT := by
  simp only [MAXFILE, NDIRECT, NINDIRECT, BSIZE] at *
  omega

theorem div_lt_MAXFILE (h : off < MAXFILE * BSIZE) : off / BSIZE < MAXFILE :=
  (Nat.div_lt_iff_lt_mul (by decide)).mpr h

/-- What `balloc` returns is a block that is not marked, or 0. -/
theorem balloc_cases (h : ∀ b, b < C.data → s.bitmap b = true) :
    s.balloc C = (s, 0) ∨ ∃ b, b ≠ 0 ∧ b < C.size ∧ s.bitmap b = false ∧
      s.balloc C = ({ s with
        bitmap := update s.bitmap b true
        block := update s.block b .zero }, b) := by
  unfold balloc
  cases hf : (range C.size).find? (fun b => !s.bitmap b) with
  | none => exact .inl rfl
  | some b =>
    have hfree : s.bitmap b = false := by simpa using find?_some hf
    have hlt : b < C.size := mem_range.mp (mem_of_find?_eq_some hf)
    refine .inr ⟨b, ?_, hlt, hfree, rfl⟩
    rintro rfl
    rw [h 0 C.data_pos] at hfree
    cases hfree

/-- A slot of the inode afterwards holds what is returned. -/
theorem Holding.slotBlock (H : Holding C s i ip) (hn : n ≤ NDIRECT) :
    Extends C i s ip (s.slotBlock C ip n).1 (s.slotBlock C ip n).2.1 ∧
      (s.slotBlock C ip n).2.1.addrs n = (s.slotBlock C ip n).2.2 := by
  unfold State.slotBlock
  by_cases h0 : ip.addrs n = 0
  swap
  · rw [if_neg h0]
    exact ⟨Extends.refl H, rfl⟩
  rw [if_pos h0]
  rcases balloc_cases H.owned.reserved with hb | ⟨b, hne, hlt, hfree, hb⟩
  · rw [hb]
    exact ⟨Extends.refl H, h0⟩
  · simp only [hb, if_neg hne]
    have hno := H.owned.free hfree
    have hind : ip.addrs NDIRECT ≠ b := H.held_slot (le_refl _) ▸ hno (i, .slot NDIRECT)
    refine ⟨?_, update_self ..⟩
    refine H.attach ⟨rfl, rfl, rfl⟩ ?_ hlt hfree (number_setAddr hn h0 hind) ?_
    · rw [number_slot _ _ hn, h0]
    · exact fun j hj ha =>
        number_update_block _ (Holding.indirect_of_ne ip hj ha ▸ hno (j, .slot NDIRECT))

/-- **`bmap` returns the block**, and 0 if there is none and none to allocate. -/
theorem Holding.bmap (H : Holding C s i ip) (hbn : bn < MAXFILE) :
    ∃ s' ip' addr, s.bmap C ip bn = .ok (s', ip', addr) ∧ Extends C i s ip s' ip' ∧
      ip'.look s'.block bn = addr := by
  unfold State.bmap
  by_cases hd : bn < NDIRECT
  · obtain ⟨he, ha⟩ := H.slotBlock hd.le
    rw [if_pos hd]
    generalize s.slotBlock C ip bn = r at he ha
    exact ⟨r.1, r.2.1, r.2.2, rfl, he, by rw [look_direct _ _ hd, ha]⟩
  have hj := sub_lt_NINDIRECT hbn hd
  rw [if_neg hd, if_pos hj]
  obtain ⟨he, ha⟩ := H.slotBlock (le_refl NDIRECT)
  generalize s.slotBlock C ip NDIRECT = r at he ha
  obtain ⟨s₁, ip₁, ind⟩ := r
  simp only at he ha ⊢
  have H₁ := he.holding
  by_cases hind : ind = 0
  · rw [if_pos hind]
    refine ⟨_, _, _, rfl, he, ?_⟩
    rw [look_indirect _ _ hd, number_entry_zero _ _ _ (ha.trans hind)]
  have hne : ip₁.addrs NDIRECT ≠ 0 := ha ▸ hind
  have hentry := number_entry ip₁ s₁.block hj hne
  rw [if_neg hind]
  subst ha
  by_cases hw : (s₁.block (ip₁.addrs NDIRECT)).word (bn - NDIRECT) = 0
  swap
  · rw [if_neg hw]
    exact ⟨_, _, _, rfl, he, by rw [look_indirect _ _ hd, hentry]⟩
  rw [if_pos hw]
  rcases balloc_cases H₁.owned.reserved with hb | ⟨b, hb0, hlt, hfree, hb⟩
  · rw [hb]
    exact ⟨_, _, _, rfl, he, by rw [look_indirect _ _ hd, hentry, hw]⟩
  simp only [hb, if_neg hb0]
  have hno := H₁.owned.free hfree
  have hib : ip₁.addrs NDIRECT ≠ b := H₁.held_slot (le_refl _) ▸ hno (i, .slot NDIRECT)
  have hother : ∀ j, j ≠ i → Allocated C s₁.dinode j →
      (s₁.dinode j).addrs NDIRECT ≠ b ∧
        (s₁.dinode j).addrs NDIRECT ≠ ip₁.addrs NDIRECT := by
    intro j hj ha
    have hjn := Holding.indirect_of_ne ip₁ hj ha
    exact ⟨hjn ▸ hno (j, .slot NDIRECT), H₁.indirect_ne hj ha hne⟩
  have hnum := number_setWord (B := s₁.block) hj hne (hlt.trans C.size_lt) .zero
  refine ⟨_, _, _, rfl, he.trans ?_, ?_⟩
  · refine H₁.attach ⟨rfl, rfl, rfl⟩ (hentry.trans hw) hlt hfree ?_ ?_
    · rw [update_of_ne hib]
      exact hnum
    · intro j hj ha
      rw [number_update_block _ (hother j hj ha).2, number_update_block _ (hother j hj ha).1]
  · show ip₁.look (update (update s₁.block b .zero) _ _) bn = b
    rw [look_indirect _ _ hd, update_of_ne hib, hnum, update_self]

/-- A block that is there is returned, and nothing changes. -/
theorem bmap_of_look (hbn : bn < MAXFILE) (h : ip.look s.block bn ≠ 0) :
    s.bmap C ip bn = .ok (s, ip, ip.look s.block bn) := by
  unfold bmap
  by_cases hd : bn < NDIRECT
  · rw [look_direct _ _ hd] at h ⊢
    rw [if_pos hd, slotBlock, if_neg h]
  have hj := sub_lt_NINDIRECT hbn hd
  rw [look_indirect _ _ hd] at h ⊢
  have hne : ip.addrs NDIRECT ≠ 0 := fun h0 => h (number_entry_zero _ _ _ h0)
  rw [number_entry _ _ hj hne] at h ⊢
  simp only [if_neg hd, if_pos hj, slotBlock, if_neg hne, if_neg h]

/-! ## Reading and writing -/

/-- Byte `o` of an inode. -/
def Dinode.byteAt (d : Dinode) (B : ℕ → Block) (o : ℕ) : UInt8 :=
  B (d.look B (o / BSIZE)) (o % BSIZE)

/-- The contents of an inode. -/
def Dinode.content (d : Dinode) (B : ℕ → Block) : List UInt8 :=
  (List.range d.size).map (d.byteAt B)

@[simp] theorem Dinode.length_content (d : Dinode) (B : ℕ → Block) :
    (d.content B).length = d.size := by simp [content]

/-- The bytes that one round of `readi` reads. -/
theorem byteAt_block {m : ℕ} (d : Dinode) (B : ℕ → Block) (hm : off % BSIZE + m ≤ BSIZE) :
    (List.range m).map (fun j => B (d.look B (off / BSIZE)) (off % BSIZE + j)) =
      (List.range m).map (fun j => d.byteAt B (off + j)) := by
  refine map_congr_left fun j hj => ?_
  have hj := mem_range.mp hj
  have hdiv := Nat.div_add_mod off BSIZE
  have hq : (off + j) / BSIZE = off / BSIZE := by
    simp only [BSIZE] at *
    omega
  have hr : (off + j) % BSIZE = off % BSIZE + j := by
    have := Nat.div_add_mod (off + j) BSIZE
    rw [hq] at this
    omega
  rw [byteAt, hq, hr]

/-- **The loop of `readi`** reads the bytes from `off` on. -/
theorem readLoop_bytes {rounds size : ℕ} (hm : ip.Mapped s.block size)
    (hsize : size ≤ MAXFILE * BSIZE) (hoff : off + (n - tot) ≤ size) (hrounds : n - tot ≤ rounds)
    (bs : List UInt8) : readLoop C n rounds s ip off tot bs =
      .ok (s, ip, bs ++ (List.range (n - tot)).map (fun j => ip.byteAt s.block (off + j))) := by
  induction rounds generalizing off tot bs with
  | zero =>
    rw [readLoop, Nat.le_zero.mp hrounds]
    simp
  | succ rounds ih =>
    rw [readLoop]
    by_cases ht : tot < n
    swap
    · rw [if_neg ht, Nat.sub_eq_zero_of_le (Nat.le_of_not_lt ht)]
      simp
    rw [if_pos ht]
    have hlt : off / BSIZE * BSIZE < size := by
      have := Nat.div_mul_le_self off BSIZE
      omega
    have hbn : off / BSIZE < MAXFILE := div_lt_MAXFILE (by omega)
    have hl := hm _ hlt
    have hmod : off % BSIZE < BSIZE := Nat.mod_lt _ (by decide)
    rw [bmap_of_look hbn hl, ok_bind]
    simp only [if_neg hl]
    generalize hmin : min (n - tot) (BSIZE - off % BSIZE) = m
    have hm1 : m ≤ n - tot := hmin ▸ min_le_left _ _
    have hm2 : m ≤ BSIZE - off % BSIZE := hmin ▸ min_le_right _ _
    have hpos : 0 < m := by
      rw [← hmin]
      exact lt_min (by omega) (by omega)
    rw [ih (by omega) (by omega), byteAt_block ip s.block (by omega), append_assoc]
    have hsplit : n - tot = m + (n - (tot + m)) := by omega
    rw [hsplit, range_add, map_append, map_map]
    have htail : (range (n - (tot + m))).map (fun j => ip.byteAt s.block (off + m + j)) =
        (range (n - (tot + m))).map
          ((fun j => ip.byteAt s.block (off + j)) ∘ fun x => m + x) :=
      map_congr_left (fun j _ => by rw [Function.comp_apply, add_assoc])
    rw [htail]

/-- **`readi` reads the contents.** -/
theorem readi_content (hm : (s.inode k).copy.Mapped s.block (s.inode k).copy.size)
    (hsize : (s.inode k).copy.size ≤ MAXFILE * BSIZE) (off n : ℕ) :
    s.readi C k off n = .ok (s, Xv6.readi ((s.inode k).copy.content s.block) off n) := by
  unfold State.readi Xv6.readi
  rw [length_content]
  generalize hip : (s.inode k).copy = ip at hm hsize
  dsimp only
  by_cases h : ip.size < off ∨ (off + n) % 2 ^ 32 < off
  · rw [if_pos h, if_pos h]
  rw [if_neg h, if_neg h]
  have hcopy : s.setCopy k ip = s := by
    rw [← hip]
    simp [setCopy, setInode]
  generalize hlen : (if ip.size < off + n then ip.size - off else n) = len
  have hle : off + (len - 0) ≤ ip.size := by
    rw [← hlen]
    split <;> omega
  rw [readLoop_bytes hm hsize hle (Nat.sub_le _ _), ok_bind]
  rw [hcopy, nil_append, Nat.sub_zero]
  congr 2
  refine ext_getElem ?_ fun j hj _ => ?_
  · rw [length_map, length_range, length_take, length_drop, length_content, ← hlen]
    split <;> omega
  · rw [getElem_map, getElem_range, getElem_take, getElem_drop]
    simp [content]

/-- **The loop of `writei`**: wherever it stops, the bytes up to the offset it
has reached have blocks. -/
theorem Holding.writeLoop (H : Holding C s i ip) (src : State.Source) (rounds : ℕ)
    (hm : ip.Mapped s.block off) (hoff : off + (n - tot) ≤ MAXFILE * BSIZE) :
    ∃ s' ip' off' tot', writeLoop C src n rounds s ip off tot = .ok (s', ip', off', tot') ∧
      Extends C i s ip s' ip' ∧ ip'.Mapped s'.block off' ∧ off' ≤ MAXFILE * BSIZE := by
  induction rounds generalizing s ip off tot with
  | zero => exact ⟨s, ip, off, tot, rfl, Extends.refl H, hm, by omega⟩
  | succ rounds ih =>
    rw [writeLoop]
    by_cases ht : tot < n
    swap
    · exact ⟨s, ip, off, tot, if_neg ht, Extends.refl H, hm, by omega⟩
    rw [if_pos ht]
    have hbn : off / BSIZE < MAXFILE := div_lt_MAXFILE (by omega)
    obtain ⟨s₁, ip₁, addr, hb, he, hl⟩ := H.bmap hbn
    rw [hb, ok_bind]
    dsimp only
    by_cases h0 : addr = 0
    · exact ⟨s₁, ip₁, off, tot, if_pos h0, he, he.mapped hm, by omega⟩
    rw [if_neg h0]
    subst hl
    generalize hmin : min (n - tot) (BSIZE - off % BSIZE) = m
    generalize (s₁.block (ip₁.look s₁.block (off / BSIZE))).overwrite (off % BSIZE)
      ((src tot m).1.take m) = X
    -- the block that is written is one of the file's
    have hwrite := he.holding.write h0 X
    have hkeep := hwrite.keeps _ h0
    have hw := he.trans hwrite
    generalize s₁.setBlock (ip₁.look s₁.block (off / BSIZE)) X = s₂ at hkeep hw
    by_cases hs : (src tot m).2 = true
    swap
    · exact ⟨s₂, ip₁, off, tot, if_neg hs, hw, hw.mapped hm, by omega⟩
    rw [if_pos hs]
    have hblock : off % BSIZE + m ≤ BSIZE := by
      have h3 : off % BSIZE < BSIZE := Nat.mod_lt _ (by decide)
      omega
    have hm' := (hw.mapped hm).extend (by rw [hkeep]; exact h0) hblock
    have hoff' : off + m + (n - (tot + m)) ≤ MAXFILE * BSIZE := by omega
    obtain ⟨s', ip', off', tot', hloop, he', hm'', hle'⟩ := ih hw.holding hm' hoff'
    exact ⟨s', ip', off', tot', hloop, hw.trans he', hm'', hle'⟩

/-! ## The invariant -/

/-- **A disk without holes**, as it is when a call starts: the table has an inode
once, its copies are the inodes on disk, the bitmap is exact, and files have
blocks up to their size, which is in range. -/
structure Sound (C : Config) (s : State) : Prop where
  unique : ∀ j k, 0 < (s.inode j).ref → 0 < (s.inode k).ref →
    (s.inode j).inum = (s.inode k).inum → j = k
  coherent : ∀ k, 0 < (s.inode k).ref → (s.inode k).valid = true →
    (s.inode k).copy = s.dinode (s.inode k).inum ∧ Allocated C s.dinode (s.inode k).inum
  owned : Owned C s.dinode s.block s.bitmap
  mapped : ∀ i, Allocated C s.dinode i → (s.dinode i).Mapped s.block (s.dinode i).size ∧
    (s.dinode i).size ≤ MAXFILE * BSIZE

namespace Sound

/-- An inode whose lock is held. -/
theorem holding (S : Sound C s) (hr : 0 < (s.inode k).ref) (hv : (s.inode k).valid = true) :
    Holding C s (s.inode k).inum (s.inode k).copy := by
  obtain ⟨hc, ha⟩ := S.coherent k hr hv
  refine ⟨?_, ha.1, hc ▸ ha.2⟩
  rw [hc, update_eq_self]
  exact S.owned

/-- The copy of an inode in memory is its contents on disk. -/
theorem mapped_copy (S : Sound C s) (hr : 0 < (s.inode k).ref) (hv : (s.inode k).valid = true) :
    (s.inode k).copy.Mapped s.block (s.inode k).copy.size ∧
      (s.inode k).copy.size ≤ MAXFILE * BSIZE := by
  obtain ⟨hc, ha⟩ := S.coherent k hr hv
  rw [hc]
  exact S.mapped _ ha

/-- **An inode on disk is replaced** by another one, while the table has no copy
of it. -/
theorem replace (S : Sound C s) (htable : s'.inode = s.inode)
    (hno : ∀ k, 0 < (s.inode k).ref → (s.inode k).valid = true → (s.inode k).inum ≠ i)
    (hdisk : s'.dinode = update s.dinode i d) (hother : ∀ j, j ≠ i → Allocated C s.dinode j →
      (s.dinode j).number s'.block = (s.dinode j).number s.block)
    (howned : Owned C s'.dinode s'.block s'.bitmap)
    (hm : d.Mapped s'.block d.size) (hsize : d.size ≤ MAXFILE * BSIZE) : Sound C s' := by
  refine ⟨by rw [htable]; exact S.unique, fun k hr hv => ?_, howned, fun j hj => ?_⟩
  · rw [htable] at hr hv ⊢
    have hne := hno k hr hv
    rw [hdisk, update_of_ne hne, allocated_update_of_ne hne]
    exact S.coherent k hr hv
  · rw [hdisk] at hj ⊢
    by_cases hji : j = i
    · subst hji
      rw [update_self]
      exact ⟨hm, hsize⟩
    · rw [allocated_update_of_ne hji] at hj
      obtain ⟨hmap, hsz⟩ := S.mapped j hj
      rw [update_of_ne hji]
      refine ⟨fun bn hbn => ?_, hsz⟩
      show (s.dinode j).number s'.block _ ≠ 0
      rw [hother j hji hj]
      exact hmap bn hbn

section

variable (S : Sound C s) {e : Inode}
include S

/-- An entry of the table is written. -/
theorem setInode (hu : 0 < e.ref → ∀ j, j ≠ k → 0 < (s.inode j).ref → (s.inode j).inum ≠ e.inum)
    (hc : 0 < e.ref → e.valid = true → e.copy = s.dinode e.inum ∧ Allocated C s.dinode e.inum) :
    Sound C (s.setInode k e) := by
  refine ⟨fun j l hj hl he => ?_, fun j hj hv => ?_, S.owned, S.mapped⟩
  · by_cases hjk : j = k <;> by_cases hlk : l = k
    · rw [hjk, hlk]
    · subst hjk
      simp only [setInode, update_self, update_of_ne hlk] at hj hl he
      exact absurd he.symm (hu hj l hlk hl)
    · subst hlk
      simp only [setInode, update_self, update_of_ne hjk] at hj hl he
      exact absurd he (hu hl j hjk hj)
    · simp only [State.setInode, update_of_ne hjk, update_of_ne hlk] at hj hl he
      exact S.unique j l hj hl he
  · by_cases hjk : j = k
    · subst hjk
      simp only [setInode, update_self] at hj hv ⊢
      exact hc hj hv
    · simp only [State.setInode, update_of_ne hjk] at hj hv ⊢
      exact S.coherent j hj hv

/-- Another number of references to the inode, or its copy read or forgotten. -/
theorem setInode_same (hr : 0 < (s.inode k).ref) (hi : e.inum = (s.inode k).inum)
    (hc : e.valid = true → e.copy = s.dinode e.inum ∧ Allocated C s.dinode e.inum) :
    Sound C (s.setInode k e) :=
  S.setInode (fun _ j hj hr' he => hj (S.unique j k hr' hr (he.trans hi))) (fun _ hv => hc hv)

/-- **The end of a call on an inode**: its copy, as it has become, is written to
disk. -/
theorem iupdate (hr : 0 < (s.inode k).ref) (hv : (s.inode k).valid = true)
    (hdisk : s'.dinode = s.dinode) (htable : s'.inode = s.inode)
    (hother : ∀ j, j ≠ (s.inode k).inum → Allocated C s.dinode j →
      (s.dinode j).number s'.block = (s.dinode j).number s.block)
    (H : Holding C s' (s.inode k).inum ip) (hm : ip.Mapped s'.block ip.size)
    (hsize : ip.size ≤ MAXFILE * BSIZE) : Sound C ((s'.setCopy k ip).iupdate k) := by
  -- the copy is forgotten, the inode replaced on disk, and read again
  have S₁ : Sound C (s.setInode k { s.inode k with valid := false }) :=
    S.setInode_same hr rfl nofun
  have S₂ : Sound C { s' with
      inode := (s.setInode k { s.inode k with valid := false }).inode
      dinode := update s.dinode (s.inode k).inum ip } := by
    refine S₁.replace rfl (fun j hj hjv => ?_) rfl hother (hdisk ▸ H.owned) hm hsize
    by_cases hjk : j = k
    · subst hjk
      simp at hjv
    · simp only [State.setInode, update_of_ne hjk] at hj ⊢
      exact fun he => hjk (S.unique j k hj hr he)
  have S₃ := S₂.setInode_same (k := k) (e := { s.inode k with copy := ip })
    (by simpa [setInode] using hr) (by simp)
    (fun _ => ⟨by simp, H.lt, by simpa using H.type⟩)
  simpa [State.iupdate, State.setCopy, State.setInode, htable, hdisk] using S₃

end

end Sound

/-- The places do not depend on the other fields. -/
theorem Holding.congr (H : Holding C s i ip) (ht : ip'.type = ip.type)
    (ha : ip'.addrs = ip.addrs) : Holding C s i ip' := by
  have hnum := number_congr s.block ha
  refine ⟨?_, H.lt, ht ▸ H.type⟩
  have hheld : held C (update s.dinode i ip') s.block =
      held C (update s.dinode i ip) s.block := by
    funext ⟨j, q⟩
    rw [H.held_eq_of_numbers ht (fun _ _ _ => rfl), hnum]
    split
    · next hj =>
      obtain rfl : j = i := hj
      rw [held_update H.allocated]
    · rfl
  show Exact _ _ _ _
  rw [hheld]
  exact H.owned

/-- **`writei` keeps the disk sound**, however far it gets. -/
theorem Sound.writei (S : Sound C s) (hr : 0 < (s.inode k).ref)
    (hv : (s.inode k).valid = true) (src : State.Source) (off n : ℕ) :
    ∃ s' r, s.writei C k src off n = .ok (s', r) ∧ Sound C s' := by
  obtain ⟨hm, _⟩ := S.mapped_copy hr hv
  unfold State.writei
  dsimp only
  by_cases hoff : (s.inode k).copy.size < off ∨ (off + n) % 2 ^ 32 < off
  · exact ⟨s, -1, if_pos hoff, S⟩
  rw [if_neg hoff]
  by_cases hmax : MAXFILE * BSIZE < off + n
  · exact ⟨s, -1, if_pos hmax, S⟩
  rw [if_neg hmax]
  have hpre : (s.inode k).copy.Mapped s.block off := fun bn hbn => hm bn (by omega)
  obtain ⟨_, _, _, _, hloop, he, hm', hle⟩ :=
    (S.holding hr hv).writeLoop src n hpre
      (show off + (n - 0) ≤ MAXFILE * BSIZE by omega)
  rw [hloop, ok_bind]
  refine ⟨_, _, rfl, ?_⟩
  have hm₂ := he.mapped hm
  have hsz := he.fields.2.1
  dsimp only
  split_ifs with hgrow
  · exact S.iupdate hr hv he.disk he.table he.others (he.holding.congr rfl rfl) hm' hle
  · refine S.iupdate hr hv he.disk he.table he.others he.holding ?_ (by omega)
    rw [hsz]
    exact hm₂

/-! ## Freeing -/

/-- The state without the marks of these blocks. -/
def State.unmark (s : State) (bs : List ℕ) : State :=
  { s with bitmap := fun b => s.bitmap b && !decide (b ≠ 0 ∧ b ∈ bs) }

theorem State.unmark_bitmap (s : State) (bs : List ℕ) (b : ℕ) :
    (s.unmark bs).bitmap b = true ↔ s.bitmap b = true ∧ ¬ (b ≠ 0 ∧ b ∈ bs) := by
  simp only [unmark, Bool.and_eq_true, Bool.not_eq_true', decide_eq_false_iff_not]

/-- **Freeing a list of blocks**, each of them marked and none twice. -/
theorem bfreeEach_eq {bs : List ℕ} (hnd : (bs.filter (· ≠ 0)).Nodup)
    (hm : ∀ b ∈ bs, b ≠ 0 → s.bitmap b = true) : s.bfreeEach bs = .ok (s.unmark bs) := by
  induction bs generalizing s with
  | nil => simp [bfreeEach, unmark]
  | cons b bs ih =>
    rw [bfreeEach]
    by_cases hb : b = 0
    · subst hb
      rw [if_pos rfl, ok_bind]
      show s.bfreeEach bs = _
      rw [ih (by simpa using hnd) (fun c hc => hm c (by simp [hc])), unmark, unmark]
      congr
      funext c
      by_cases hc : c = 0 <;> simp [hc]
    · simp only [ne_eq, hb, not_false_eq_true, decide_true, filter_cons_of_pos,
        nodup_cons, mem_filter, and_true] at hnd
      rw [if_neg hb, bfree, if_pos (hm b (by simp) hb), ok_bind]
      show ({ s with bitmap := update s.bitmap b false } : State).bfreeEach bs = _
      rw [ih hnd.2, unmark, unmark]
      · congr
        funext c
        by_cases hc : c = b
        · subst hc
          simp [hb]
        · simp [hc]
      · intro c hc hc0
        have hne : c ≠ b := fun he => hnd.1 (he ▸ hc)
        simp only [update_of_ne hne]
        exact hm c (by simp [hc]) hc0

/-- The blocks that a run of positions holds are different. -/
theorem nodup_of_inj (h : ∀ a b, a < n → b < n → f a ≠ 0 → f a = f b → a = b) :
    (((List.range n).map f).filter (· ≠ 0)).Nodup := by
  rw [filter_map]
  refine List.Nodup.map_on ?_ (nodup_range.filter _)
  intro a ha b hb he
  simp only [mem_filter, mem_range, Function.comp_apply, decide_eq_true_eq] at ha hb
  exact h a b ha.1 hb.1 ha.2 he

/-- Two positions of the inode do not hold the same block. -/
theorem Holding.number_inj (H : Holding C s i ip) {r : Pos} (hq : ip.number s.block q ≠ 0)
    (he : ip.number s.block q = ip.number s.block r) : q = r := by
  rw [← held_update H.allocated, ← held_update H.allocated] at he
  rw [← held_update H.allocated] at hq
  exact (Prod.mk.inj (H.owned.inj _ _ hq he)).2

theorem Holding.number_marked (H : Holding C s i ip) (hq : ip.number s.block q ≠ 0) :
    s.bitmap (ip.number s.block q) = true := by
  rw [← held_update H.allocated] at hq ⊢
  exact H.owned.marked_of_held hq

/-- The inode with nothing in it. -/
def Dinode.cleared (d : Dinode) : Dinode := { d with size := 0, addrs := fun _ => 0 }

/-- The inode when it has been freed. -/
def Dinode.unused (d : Dinode) : Dinode := { d.cleared with type := 0 }

/-- The state when entry `k` was the last reference to its inode and the inode
has been freed. -/
def State.freed (s : State) (k : Fin NINODE) (bits : ℕ → Bool) : State where
  bitmap := bits
  block := s.block
  dinode := update s.dinode (s.inode k).inum (s.inode k).copy.unused
  inode := update s.inode k
    { s.inode k with ref := 0, valid := false, copy := (s.inode k).copy.unused }

theorem Dinode.number_cleared (d : Dinode) (B : ℕ → Block) (q : Pos) :
    d.cleared.number B q = 0 := by
  cases q <;> simp [number, cleared]

/-- The blocks that are not at a position of the inode. -/
theorem Dinode.forall_number_ne_iff (d : Dinode) (B : ℕ → Block) (hb : b ≠ 0) :
    (∀ q, d.number B q ≠ b) ↔ b ∉ (List.range NDIRECT).map d.addrs ∧
      d.addrs NDIRECT ≠ b ∧ (d.addrs NDIRECT ≠ 0 →
        b ∉ (List.range NINDIRECT).map (B (d.addrs NDIRECT)).word) := by
  constructor
  · intro h
    refine ⟨fun hmem => ?_, ?_, fun h0 hmem => ?_⟩
    · obtain ⟨n, hn, rfl⟩ := mem_map.mp hmem
      exact h (.slot n) (number_slot d B (le_of_lt (mem_range.mp hn)))
    · rw [← number_slot d B (le_refl _)]
      exact h _
    · obtain ⟨j, hj, rfl⟩ := mem_map.mp hmem
      exact h (.entry j) (number_entry d B (mem_range.mp hj) h0)
  · rintro ⟨hd, hi, he⟩ q hq
    cases q with
    | slot n =>
      rcases lt_trichotomy n NDIRECT with hn | rfl | hn
      · rw [number_slot d B hn.le] at hq
        exact hd (mem_map.mpr ⟨n, mem_range.mpr hn, hq⟩)
      · rw [number_slot d B (le_refl _)] at hq
        exact hi hq
      · rw [number, if_neg (by omega)] at hq
        exact hb hq.symm
    | entry j =>
      by_cases hj : j < NINDIRECT ∧ d.addrs NDIRECT ≠ 0
      · rw [number_entry d B hj.1 hj.2] at hq
        exact he hj.2 (mem_map.mpr ⟨j, mem_range.mpr hj.1, hq⟩)
      · rw [number, if_neg hj] at hq
        exact hb hq.symm

/-- A run of positions of the inode whose blocks are all marked can be freed. -/
theorem Holding.bfreeEach (H : Holding C s i ip) {pos : ℕ → Pos}
    (hf : ∀ a, a < n → f a = ip.number s.block (pos a)) (hpos : ∀ a b, pos a = pos b → a = b)
    (hm : ∀ a, a < n → f a ≠ 0 → s'.bitmap (f a) = true) :
    s'.bfreeEach ((List.range n).map f) = .ok (s'.unmark ((List.range n).map f)) := by
  refine bfreeEach_eq (nodup_of_inj (fun a b ha hb h0 he => ?_)) fun b hb h0 => ?_
  · rw [hf a ha] at h0 he
    rw [hf b hb] at he
    exact hpos a b (H.number_inj h0 he)
  · obtain ⟨a, ha, rfl⟩ := mem_map.mp hb
    exact hm a (mem_range.mp ha) h0

/-- **What `itrunc` frees**: it does not panic, and afterwards the marks are
those of the blocks that the inode did not have. -/
theorem Holding.itrunc (H : Holding C s i (s.inode k).copy) :
    ∃ bits, s.itrunc k = .ok
        (({ s with bitmap := bits }.setCopy k (s.inode k).copy.cleared).iupdate k) ∧
      ∀ b, bits b = true ↔ s.bitmap b = true ∧
        ∀ q, (s.inode k).copy.number s.block q ≠ 0 → (s.inode k).copy.number s.block q ≠ b := by
  generalize hip : (s.inode k).copy = ip at H
  have hslot : ∀ n, n < NDIRECT → ip.addrs n = ip.number s.block (.slot n) :=
    fun n hn => (number_slot _ _ hn.le).symm
  have hind : ip.addrs NDIRECT = ip.number s.block (.slot NDIRECT) :=
    (number_slot _ _ (le_refl _)).symm
  have hdirect : s.bfreeEach ((range NDIRECT).map ip.addrs) =
      .ok (s.unmark ((range NDIRECT).map ip.addrs)) :=
    H.bfreeEach hslot (fun a b h => Pos.slot.inj h)
      (fun a ha h0 => by rw [hslot a ha] at h0 ⊢; exact H.number_marked h0)
  -- a block at another position is still marked then
  have hstill : ∀ q, ip.number s.block q ≠ 0 → (∀ n, n < NDIRECT → q ≠ .slot n) →
      (s.unmark ((range NDIRECT).map ip.addrs)).bitmap (ip.number s.block q) = true := by
    intro q hq hne
    rw [unmark_bitmap]
    refine ⟨H.number_marked hq, fun ⟨_, hmem⟩ => ?_⟩
    obtain ⟨n, hn, he⟩ := mem_map.mp hmem
    rw [hslot n (mem_range.mp hn)] at he
    exact hne n (mem_range.mp hn) (H.number_inj hq he.symm)
  -- so the marks that are left are those of the blocks that are at no position
  have hmarks : ∀ b, s.bitmap b = true ∧ (∀ q, ip.number s.block q ≠ 0 →
      ip.number s.block q ≠ b) ↔ s.bitmap b = true ∧ (b ≠ 0 → ∀ q, ip.number s.block q ≠ b) := by
    intro b
    refine and_congr_right fun _ => ⟨fun h hb q hq => ?_, fun h q hq he => ?_⟩
    · exact h q (hq ▸ hb) hq
    · exact h (he ▸ hq) q he
  unfold State.itrunc
  simp only [hip, hdirect, ok_bind, hmarks]
  split_ifs with h0
  · refine ⟨(s.unmark ((range NDIRECT).map ip.addrs)).bitmap, rfl, fun b => ?_⟩
    rw [unmark_bitmap]
    refine and_congr_right fun _ => ?_
    by_cases hb : b = 0
    · simp [hb]
    · have := ip.forall_number_ne_iff s.block hb
      rw [this]
      simp [h0, hb, Ne.symm hb]
  · have hentry : ∀ j, j < NINDIRECT → (s.block (ip.addrs NDIRECT)).word j =
        ip.number s.block (.entry j) := fun j hj => (number_entry _ _ hj h0).symm
    have hind₀ : ip.number s.block (.slot NDIRECT) ≠ 0 := hind ▸ h0
    have hrest : (s.unmark ((range NDIRECT).map ip.addrs)).bfreeEach
        ((range NINDIRECT).map (s.block (ip.addrs NDIRECT)).word) =
          .ok ((s.unmark ((range NDIRECT).map ip.addrs)).unmark
            ((range NINDIRECT).map (s.block (ip.addrs NDIRECT)).word)) := by
      refine H.bfreeEach hentry (fun a b h => Pos.entry.inj h) fun j hj hj0 => ?_
      rw [hentry j hj] at hj0 ⊢
      exact hstill _ hj0 nofun
    have hlast : ((s.unmark ((range NDIRECT).map ip.addrs)).unmark
        ((range NINDIRECT).map (s.block (ip.addrs NDIRECT)).word)).bitmap
          (ip.addrs NDIRECT) = true := by
      rw [unmark_bitmap]
      constructor
      · rw [hind]
        exact hstill _ hind₀ fun n hn he => absurd (Pos.slot.inj he) (by omega)
      · rintro ⟨-, hmem⟩
        obtain ⟨j, hj, he⟩ := mem_map.mp hmem
        rw [hentry j (mem_range.mp hj), hind] at he
        exact absurd (H.number_inj hind₀ he.symm) nofun
    have hblock : (s.unmark ((range NDIRECT).map ip.addrs)).block = s.block := rfl
    rw [hblock, hrest, ok_bind, bfree, if_pos hlast, ok_bind]
    refine ⟨update ((s.unmark ((range NDIRECT).map ip.addrs)).unmark
      ((range NINDIRECT).map (s.block (ip.addrs NDIRECT)).word)).bitmap
        (ip.addrs NDIRECT) false, rfl, fun b => ?_⟩
    by_cases hb : b = 0
    · rw [hb, update_of_ne (Ne.symm h0), unmark_bitmap, unmark_bitmap]
      simp
    · rw [ip.forall_number_ne_iff s.block hb]
      by_cases hbi : b = ip.addrs NDIRECT
      · simp [hbi, h0]
      · rw [update_of_ne hbi, unmark_bitmap, unmark_bitmap]
        simp only [hb, Ne.symm hbi, h0, ne_eq, not_false_eq_true, true_and, forall_const, and_assoc]

/-- After `itrunc` the places of the inode are empty. -/
theorem Holding.cleared (H : Holding C s i ip) {bits : ℕ → Bool}
    (hbits : ∀ b, bits b = true ↔ s.bitmap b = true ∧
      ∀ q, ip.number s.block q ≠ 0 → ip.number s.block q ≠ b) :
    Holding C { s with bitmap := bits } i ip.cleared := by
  refine ⟨?_, H.lt, H.type⟩
  have htype : ip.cleared.type = ip.type := rfl
  have hheld := H.held_eq_of_numbers htype (fun _ _ _ => rfl)
  refine H.owned.detach (fun p => p.1 = i) ?_ ?_ ?_
  · intro p hp
    rw [hheld, if_pos hp, number_cleared]
  · intro p hp
    rw [hheld, if_neg hp]
  · intro b
    rw [hbits]
    refine and_congr_right fun _ => ⟨fun h p hp => ?_, fun h q => ?_⟩
    · obtain ⟨j, q⟩ := p
      obtain rfl : j = i := hp
      rw [held_update H.allocated]
      exact h q
    · have := h (i, q) rfl
      rwa [held_update H.allocated] at this

/-- **`itrunc` keeps the disk sound.** -/
theorem Sound.itrunc (S : Sound C s) (hr : 0 < (s.inode k).ref)
    (hv : (s.inode k).valid = true) :
    ∃ bits, s.itrunc k = .ok
        (({ s with bitmap := bits }.setCopy k (s.inode k).copy.cleared).iupdate k) ∧
      Sound C (({ s with bitmap := bits }.setCopy k (s.inode k).copy.cleared).iupdate k) ∧
      ∀ q, (s.inode k).copy.number s.block q ≠ 0 →
        bits ((s.inode k).copy.number s.block q) = false := by
  have H := S.holding hr hv
  obtain ⟨bits, he, hbits⟩ := H.itrunc
  refine ⟨bits, he, ?_, fun q hq => ?_⟩
  · refine S.iupdate hr hv rfl rfl (fun _ _ _ => rfl) (H.cleared hbits) ?_ (Nat.zero_le _)
    exact fun bn hbn => absurd hbn (Nat.not_lt_zero _)
  · rw [Bool.eq_false_iff]
    intro hc
    exact ((hbits _).mp hc).2 q hq rfl

/-! ## The table and the inodes -/

namespace Sound

section

variable (S : Sound C s)
include S

/-- **An inode that has no blocks is replaced by another one.** -/
theorem setDinode (hno : ∀ k, 0 < (s.inode k).ref → (s.inode k).valid = true → (s.inode k).inum ≠ i)
    (hz : ∀ q, held C s.dinode s.block (i, q) = 0) (hd : ∀ q, d.number s.block q = 0)
    (hsize : d.size = 0) : Sound C { s with dinode := update s.dinode i d } := by
  have hheld : held C (update s.dinode i d) s.block = held C s.dinode s.block := by
    funext ⟨j, q⟩
    by_cases hj : j = i
    · subst hj
      rw [hz, held, update_self, hd, ite_self]
    · exact held_update_of_ne hj q
  refine S.replace rfl hno rfl (fun _ _ _ => rfl) ?_ ?_ (by simp [hsize])
  · show Exact _ _ _ _
    rw [hheld]
    exact S.owned
  · rw [hsize]
    exact fun bn hbn => absurd hbn (Nat.not_lt_zero _)

/-- **`iget` keeps the disk sound.** -/
theorem iget (inum : ℕ) :
    Ensures (· = .bfree) (fun r => Sound C r.1 ∧ 0 < (r.1.inode r.2).ref) (s.iget inum) := by
  unfold State.iget
  cases hf : (finRange NINODE).find? (fun k =>
      decide (0 < (s.inode k).ref ∧ (s.inode k).inum = inum)) with
  | some k =>
    have hk := find?_some hf
    simp only [decide_eq_true_eq] at hk
    exact ⟨S.setInode_same hk.1 rfl (S.coherent k hk.1), by simp⟩
  | none =>
    cases he : (finRange NINODE).find? (fun k => decide ((s.inode k).ref = 0)) with
    | none => exact nofun
    | some =>
      have hnone : ∀ j, 0 < (s.inode j).ref → (s.inode j).inum ≠ inum := fun j hj hi =>
        absurd (find?_eq_none.mp hf j (mem_finRange j)) (by simp [hj, hi])
      exact ⟨S.setInode (fun _ j _ hj => hnone j hj) nofun, by simp⟩

theorem ilock (hi : (s.inode k).inum < C.ninodes) : Ensures (· = .bfree) (Sound C) (s.ilock k) := by
  unfold State.ilock
  by_cases hr : (s.inode k).ref < 1
  · rw [if_pos hr]
    exact nofun
  rw [if_neg hr]
  by_cases hv : (s.inode k).valid = true
  · rw [if_pos hv]
    exact S
  rw [if_neg hv]
  by_cases ht : (s.dinode (s.inode k).inum).type = 0
  · rw [if_pos ht]
    exact nofun
  rw [if_neg ht]
  exact S.setInode_same (by omega) rfl fun _ => ⟨rfl, hi, ht⟩

/-- **`iput` keeps the disk sound**, and an inode that it frees gives back all
its blocks. -/
theorem iput (hr : 0 < (s.inode k).ref) : ∃ s', s.iput k = .ok s' ∧ Sound C s' ∧
      ∀ i q, Allocated C s.dinode i → ¬ Allocated C s'.dinode i →
        held C s.dinode s.block (i, q) ≠ 0 →
        s'.bitmap (held C s.dinode s.block (i, q)) = false := by
  unfold State.iput
  by_cases hfree : (s.inode k).ref = 1 ∧ (s.inode k).valid = true ∧ (s.inode k).copy.nlink = 0
  swap
  · rw [if_neg hfree, ok_bind]
    refine ⟨_, rfl, S.setInode_same hr rfl (S.coherent k hr), ?_⟩
    exact fun i q ha hna => absurd ha hna
  obtain ⟨h1, hv, -⟩ := id hfree
  obtain ⟨hc, ha⟩ := S.coherent k hr hv
  obtain ⟨bits, htrunc, S₁, hbits⟩ := S.itrunc hr hv
  rw [if_pos hfree, htrunc, ok_bind]
  refine ⟨s.freed k bits, ?_, ?_, ?_⟩
  · simp only [State.setCopy, State.setInode, State.iupdate, update_self, update_idem, ok_bind, h1]
    rfl
  · -- the freed inode has no blocks, and its entry of the table no references
    have S₂ := (S₁.setInode (k := k) (e := { s.inode k with
      ref := 0, valid := false, copy := (s.inode k).copy.unused }) nofun nofun).setDinode
        (i := (s.inode k).inum) (d := (s.inode k).copy.unused) ?_ ?_ ?_ rfl
    · simp only [State.setCopy, State.setInode, State.iupdate, update_self, update_idem] at S₂
      exact S₂
    · intro j hj _
      by_cases hjk : j = k
      · subst hjk
        simp at hj
      · simp only [State.setInode, State.iupdate, State.setCopy, update_of_ne hjk] at hj ⊢
        exact fun he => hjk (S.unique j k hj hr he)
    · intro q
      unfold held
      split
      · simp only [State.setCopy, State.setInode, State.iupdate, update_self, number_cleared]
      · rfl
    · exact fun q => by cases q <;> simp [number, unused, cleared]
  · intro i q hi hni hq
    have hik : i = (s.inode k).inum := by
      by_contra hne
      have hd : (s.freed k bits).dinode i = s.dinode i := update_of_ne hne _ _
      exact hni ⟨hi.1, by rw [hd]; exact hi.2⟩
    subst hik
    rw [held_of_allocated hi, ← hc] at hq ⊢
    exact hbits q hq

/-- **`ialloc` keeps the disk sound.** -/
theorem ialloc (type : ℕ) : Ensures (· = .bfree) (fun r => Sound C r.1) (s.ialloc C type) := by
  unfold State.ialloc
  cases hf : (range C.ninodes).find? (fun i => decide (0 < i ∧ (s.dinode i).type = 0)) with
  | none => exact S
  | some i =>
    have hi := find?_some hf
    simp only [decide_eq_true_eq] at hi
    have hna : ¬ Allocated C s.dinode i := fun ha => ha.2 hi.2
    have S₁ := S.setDinode (i := i) (d := .fresh type) ?_ ?_ ?_ rfl
    · refine (S₁.iget i).bind fun r hr => ?_
      exact hr.1
    · rintro k hr hv rfl
      exact hna (S.coherent k hr hv).2
    · exact fun q => if_neg hna
    · intro q
      cases q <;> simp [number, fresh]

section

variable (hr : 0 < (s.inode k).ref)
include hr

variable (hv : (s.inode k).valid = true)
include hv

/-- Scanning a directory for a name changes nothing. -/
theorem dirScan (name : List UInt8) (n off : ℕ) :
    Ensures (· = .bfree) (fun r => r.1 = s) (State.dirScan C k name n s off) := by
  obtain ⟨hm, hsize⟩ := S.mapped_copy hr hv
  induction n generalizing off with
  | zero => exact rfl
  | succ n ih =>
    rw [State.dirScan, readi_content hm hsize, ok_bind]
    dsimp only
    generalize Xv6.readi _ off 16 = de
    by_cases hlen : de.length ≠ 16
    · rw [if_pos hlen]
      exact nofun
    rw [if_neg hlen]
    split
    · exact ih _
    · split
      · exact rfl
      · exact ih _

theorem emptyScan (n off : ℕ) :
    Ensures (· = .bfree) (fun r => r.1 = s) (emptyScan C k n s off) := by
  obtain ⟨hm, hsize⟩ := S.mapped_copy hr hv
  induction n generalizing off with
  | zero => exact rfl
  | succ n ih =>
    rw [State.emptyScan, readi_content hm hsize, ok_bind]
    dsimp only
    generalize Xv6.readi _ off 16 = de
    by_cases hlen : de.length ≠ 16
    · rw [if_pos hlen]
      exact nofun
    rw [if_neg hlen]
    split
    · exact rfl
    · exact ih _

/-- **`dirlink` keeps the disk sound.** -/
theorem dirlink (name : List UInt8) (inum : ℕ) :
    Ensures (· = .bfree) (fun r => Sound C r.1) (s.dirlink C k name inum) := by
  have hlookup : Ensures (· = .bfree) (fun r => r.2 = none ∧ r.1 = s ∨
      ∃ j, r.2 = some j ∧ Sound C r.1 ∧ 0 < (r.1.inode j).ref) (s.dirlookup C k name) := by
    unfold State.dirlookup
    split_ifs with ht
    · exact nofun
    refine (S.dirScan hr hv name _ 0).bind ?_
    rintro ⟨s₁, q⟩ rfl
    cases q with
    | none => exact .inl ⟨rfl, rfl⟩
    | some inum =>
      refine (S.iget inum).bind fun r hr => ?_
      exact .inr ⟨r.2, rfl, hr⟩
  refine hlookup.bind ?_
  rintro ⟨s₁, q⟩ (⟨hq, hs⟩ | ⟨j, hq, S₁, hj⟩)
  · obtain rfl : q = none := hq
    obtain rfl : s₁ = s := hs
    refine (S.emptyScan hr hv _ 0).bind ?_
    rintro ⟨s₂, off⟩ hs
    obtain rfl : s₂ = s₁ := hs
    show Ensures _ _ (s₂.writei C k _ off 16 >>= _)
    obtain ⟨_, r, hw, S₃⟩ := S.writei hr hv (.kernel (dirent name inum)) off 16
    rw [hw]
    exact S₃
  · obtain rfl : q = some j := hq
    obtain ⟨s₂, hp, S₂, -⟩ := S₁.iput hj
    show Ensures _ _ (s₁.iput j >>= _)
    rw [hp]
    exact S₂

/-- Writing another link count. -/
theorem setNlink (nlink : ℤ) :
    Sound C ((s.setCopy k { (s.inode k).copy with nlink := nlink }).iupdate k) := by
  obtain ⟨hm, hsize⟩ := S.mapped_copy hr hv
  exact S.iupdate hr hv rfl rfl (fun _ _ _ => rfl) ((S.holding hr hv).congr rfl rfl) hm hsize

end

/-! ## Whole runs -/

/-- **Every call keeps the disk sound**, and does not free a block that is
free. -/
theorem exec {c : Call} (hc : c.Ready C s) : Ensures (· = .bfree) (Sound C) (c.exec C s) := by
  have hfst : ∀ {α : Type} {x : Except Fault (State × α)},
      Ensures (· = .bfree) (fun r => Sound C r.1) x →
        Ensures (· = .bfree) (Sound C) (x.map Prod.fst) := by
    intro α x hx
    cases x with
    | error | ok => exact hx
  cases c with
  | iget inum => exact hfst ((S.iget inum).mono (fun r hr => hr.1))
  | idup k => exact S.setInode_same hc rfl (S.coherent k hc)
  | ilock => exact S.ilock hc
  | iput =>
    obtain ⟨s', he, S', -⟩ := S.iput hc
    rw [Call.exec, he]
    exact S'
  | ialloc type => exact hfst (S.ialloc type)
  | itrunc =>
    obtain ⟨_, he, S', -⟩ := S.itrunc hc.1 hc.2
    rw [Call.exec, he]
    exact S'
  | writei k src off n =>
    obtain ⟨s', r, he, S'⟩ := S.writei hc.1 hc.2 src off n
    rw [Call.exec, he]
    exact S'
  | dirlink k name inum => exact hfst (S.dirlink hc.1 hc.2 name inum)
  | setNlink k nlink => exact S.setNlink hc.1 hc.2 nlink

end

theorem of_runs {s₀ : State} (S : Sound C s₀)
    (h : Lts.Runs (step C) (fun _ _ => True) s₀ s) : Sound C s := by
  refine h.invariant S ?_
  intro s c s' S _ hs
  unfold step at hs
  split_ifs at hs with hc
  cases he : c.exec C s with
  | error => simp [he, Except.toOption] at hs
  | ok =>
    rw [he] at hs
    cases hs
    exact (S.exec hc).of_ok he

end Sound

/-- **Block ownership.** In every state of a run from a disk without holes, a
data block is marked in the bitmap if and only if its number is in a place, a
slot of an inode in use or an entry of the indirect block of one, and then in one
place only. So a block that `balloc` returns is nobody's, no call panics because
it frees a free block, and an inode that `iput` frees gives back all its
blocks. -/
theorem block_ownership {s₀ : State} (h₀ : Sound C s₀)
    (h : Lts.Runs (step C) (fun _ _ => True) s₀ s) : (∀ b, C.data ≤ b → b < C.size →
      (s.bitmap b = true ↔ ∃ p, held C s.dinode s.block p = b) ∧
      (s.bitmap b = true → ∃! p, held C s.dinode s.block p = b)) ∧
    (∀ s' b, s.balloc C = (s', b) → b ≠ 0 → ∀ p, held C s.dinode s.block p ≠ b) ∧
    (∀ c : Call, c.Ready C s → c.exec C s ≠ .error .bfree) ∧
    ∀ k s', 0 < (s.inode k).ref → s.iput k = .ok s' →
      ∀ i q, Allocated C s.dinode i → ¬ Allocated C s'.dinode i →
        held C s.dinode s.block (i, q) ≠ 0 →
        s'.bitmap (held C s.dinode s.block (i, q)) = false := by
  have S := h₀.of_runs h
  refine ⟨fun b hlo hhi => ⟨S.owned.marked_iff b hlo hhi, S.owned.existsUnique hlo hhi⟩,
    fun s' b hb hne => ?_, fun c hc he => (S.exec hc).of_error he rfl, fun k s' hr he => ?_⟩
  · rcases balloc_cases S.owned.reserved with hb' | ⟨b', -, -, hfree, hb'⟩
    · rw [hb'] at hb
      exact absurd (Prod.mk.inj hb).2.symm hne
    · rw [hb'] at hb
      cases hb
      exact S.owned.free hfree
  · obtain ⟨_, he₁, -, hback⟩ := S.iput hr
    cases he₁.symm.trans he
    exact hback

/-- A disk with no inode in use, and no inode in memory. -/
def blank (C : Config) : State where
  bitmap := fun b => decide (b < C.data)
  block := fun _ => .zero
  dinode := fun _ => .fresh 0
  inode := fun _ => { inum := 0, ref := 0, valid := false, copy := .fresh 0 }

theorem Sound.blank (C : Config) : Sound C (blank C) := by
  have hna : ∀ i, ¬ Allocated C (Blocks.blank C).dinode i := fun i h => h.2 rfl
  have hheld : ∀ p, held C (Blocks.blank C).dinode (Blocks.blank C).block p = 0 :=
    fun p => if_neg (hna p.1)
  refine ⟨fun _ _ h => absurd h (lt_irrefl 0), fun _ h => absurd h (lt_irrefl 0), ?_,
    fun i h => absurd h (hna i)⟩
  refine ⟨fun p _ h => absurd (hheld p) h, fun p h => absurd (hheld p) h, fun b hlo hhi => ?_,
    fun b hb => decide_eq_true hb, C.data_pos⟩
  constructor
  · intro hb
    exact absurd (of_decide_eq_true hb) hlo.not_gt
  · rintro ⟨p, hp⟩
    rw [hheld] at hp
    have := C.data_pos
    omega

/-- The theorem at work on a small disk: a file is allocated and written, its
first block is full, and the write is cut short for lack of a second one; when
the last reference goes, the block is free again. -/
theorem block_ownership_small :
    let C : Config := ⟨5, 3, 4, by decide, by decide⟩
    ∃ s, Lts.Runs (step C) (fun _ _ => True) (blank C) s ∧
      (s.inode 0).inum = 1 ∧ (s.dinode 1).size = 1024 ∧ (s.dinode 1).addrs 0 = 4 ∧
      ∃ s', s.iput 0 = .ok s' ∧ s'.bitmap 4 = false := by
  intro C
  obtain ⟨s, hrun, hi, hsize, haddr, htype, href, s', hput, hfree⟩ :
      ∃ s ∈ Lts.run (step C) (blank C)
      [.ialloc 2, .ilock 0, .writei 0 (.kernel (replicate 1030 7)) 0 1030],
      (s.inode 0).inum = 1 ∧ (s.dinode 1).size = 1024 ∧ (s.dinode 1).addrs 0 = 4 ∧
      (s.dinode 1).type = 2 ∧ 0 < (s.inode 0).ref ∧
      ∃ s' ∈ (s.iput 0).toOption, (s'.dinode 1).type = 0 := by decide +kernel
  replace hrun := Lts.runs_of_run hrun
  replace hput := eq_ok_of_toOption hput
  refine ⟨s, hrun, hi, hsize, haddr, s', hput, ?_⟩
  have hown := (block_ownership (Sound.blank C) hrun).2.2.2 0 s' href hput 1 (.slot 0)
    ⟨by decide, by rw [htype]; decide⟩ (fun ha => ha.2 hfree)
  have hheld : held C s.dinode s.block (1, .slot 0) = 4 := by
    rw [held_of_allocated ⟨by decide, by rw [htype]; decide⟩, number_slot _ _ (by decide),
      haddr]
  rw [hheld] at hown
  exact hown nofun

end Xv6.Blocks
