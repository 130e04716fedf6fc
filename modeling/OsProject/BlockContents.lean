import OsProject.BlockOwners

/-!
# The contents of files

The blocks of an inode, one after the other, cut off at its size, are its
contents (`Dinode.content`), and on a file without holes `readi` reads them
(`readi_content`). A file that has no blocks for the last part of its size can be
read, and searched as a directory, up to there. A write to one block of a file
changes the bytes of that block, in this file only.
-/

namespace Xv6.Blocks

open Function List

variable {C : Config} {s : State} {i off m n : ℕ} {ip : Dinode} {k : Fin NINODE}

/-! ## A file with a hole at its end -/

/-- `readi` in the part of a file that has blocks. -/
theorem readi_mapped (hm : (s.inode k).copy.Mapped s.block m) (hle : m ≤ (s.inode k).copy.size)
    (hsize : m ≤ MAXFILE * BSIZE) (hoff : off + n ≤ m) : s.readi C k off n =
      .ok (s, (List.range n).map (fun j => (s.inode k).copy.byteAt s.block (off + j))) := by
  unfold State.readi
  generalize hip : (s.inode k).copy = ip at hm hle
  dsimp only
  have hlt : off + n < 2 ^ 32 := lt_of_le_of_lt (hoff.trans hsize) (by decide)
  have hcopy : s.setCopy k ip = s := by
    rw [← hip]
    simp [State.setCopy, State.setInode]
  rw [if_neg (by rw [Nat.mod_eq_of_lt hlt]; omega), if_neg (by omega),
    readLoop_bytes hm hsize (by rwa [Nat.sub_zero]) (Nat.sub_le _ _), ok_bind]
  rw [hcopy, nil_append, Nat.sub_zero]

/-- **`dirlookup` finds what is in the part of the directory that has blocks**, whatever
comes after it. -/
theorem dirScan_mapped (hm : (s.inode k).copy.Mapped s.block m) (hle : m ≤ (s.inode k).copy.size)
    (hsize : m ≤ MAXFILE * BSIZE) {name : List UInt8} {n' inum : ℕ} (hn : n ≤ n')
    (h : Xv6.dirScan ((List.range m).map ((s.inode k).copy.byteAt s.block)) name off n =
      .ok (some inum)) : State.dirScan C k name n' s off = .ok (s, some inum) := by
  induction n generalizing n' off with
  | zero => cases h
  | succ n ih =>
    obtain ⟨n', rfl⟩ : ∃ a, n' = a + 1 := ⟨n' - 1, by omega⟩
    rw [Xv6.dirScan] at h
    have hde : Xv6.readi ((range m).map ((s.inode k).copy.byteAt s.block)) off 16 =
        (range 16).map (fun j => (s.inode k).copy.byteAt s.block (off + j)) ∧
        off + 16 ≤ m := by
      -- the entry could be read, so it is there
      have hlen : (Xv6.readi ((range m).map ((s.inode k).copy.byteAt s.block)) off 16).length =
          16 := by
        by_contra hc
        rw [if_pos hc] at h
        cases h
      unfold Xv6.readi at hlen ⊢
      split_ifs at hlen with hoff
      rw [length_take, length_drop, length_map, length_range] at hlen
      have hoff16 : off + 16 ≤ m := by omega
      rw [if_neg hoff]
      refine ⟨ext_getElem ?_ (fun j _ _ => ?_), hoff16⟩
      · simp
        omega
      · simp
    rw [hde.1] at h
    rw [State.dirScan, readi_mapped hm hle hsize hde.2, ok_bind]
    dsimp only at h ⊢
    generalize (range 16).map (fun j => (s.inode k).copy.byteAt s.block (off + j)) = de at h
    split
    · next hlen =>
      rw [if_pos hlen] at h
      cases h
    · next hlen =>
      rw [if_neg hlen] at h
      split
      · next h0 =>
        rw [if_pos h0] at h
        exact ih (by omega) h
      · next h0 =>
        rw [if_neg h0] at h
        split
        · next hname =>
          rw [if_pos hname] at h
          rw [Option.some.inj (Except.ok.inj h)]
        · next hname =>
          rw [if_neg hname] at h
          exact ih (by omega) h

/-! ## Writing a block -/

theorem posOf_inj {a b : ℕ} (h : posOf a = posOf b) : a = b := by
  unfold posOf at h
  split at h <;> split at h
  · exact Pos.slot.inj h
  · cases h
  · cases h
  · have := Pos.entry.inj h
    omega

namespace Holding

variable (H : Holding C s i ip)
include H

variable {a b j bn o : ℕ}

/-- A block of the file is not its indirect block. -/
theorem look_ne_indirect (ha : ip.look s.block a ≠ 0) : ip.look s.block a ≠ ip.addrs NDIRECT := by
  intro hc
  exact Dinode.posOf_ne a (H.number_inj ha
    (hc.trans (Dinode.number_slot ip s.block (le_refl NDIRECT)).symm))

/-- **The bytes of the file after a write to one of its blocks.** -/
theorem byteAt_write (hbn : ip.look s.block bn ≠ 0) (ho : ip.look s.block (o / BSIZE) ≠ 0)
    (X : Block) : ip.byteAt (update s.block (ip.look s.block bn) X) o =
      if o / BSIZE = bn then X (o % BSIZE) else ip.byteAt s.block o := by
  have hkeep : ip.look (update s.block (ip.look s.block bn) X) (o / BSIZE) =
      ip.look s.block (o / BSIZE) := (H.write hbn X).keeps _ ho
  rw [Dinode.byteAt, hkeep]
  split_ifs with h
  · rw [h, update_self]
  · have hne : ip.look s.block (o / BSIZE) ≠ ip.look s.block bn :=
      fun hc => h (posOf_inj (H.number_inj ho hc))
    rw [update_of_ne hne]
    rfl

end Holding

end Xv6.Blocks
