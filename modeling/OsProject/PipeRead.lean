import OsProject.Pipe
import OsProject.UserCopy

/-!
# Where the bytes of a pipe go

`Pipe` follows the calls on a pipe and leaves open what happens to a byte that has been taken
out of it: `copyout` can write it to the memory of the process, or cannot. Here `piperead` is
given the memory. It holds the lock from the last test of the first loop on, so what it does
then is a function of the pipe and the memory.

`nread` is advanced before the byte is copied out, and is not set back if it cannot be. So the
loop consumes the bytes that it stores, and, if it stops at an address that the process cannot
write, one byte more (`pipereadLoop_eq`).
-/

namespace Xv6.Pipes

open List

/-! ## The code -/

/-- The second loop of `piperead`, with `n` rounds left. -/
def pipereadLoop (pagetable : ℕ) (addr : UInt64) :
    ℕ → ℕ → Phys → Pipe → Except Fault (Phys × Pipe × ℕ)
  | 0, i, m, pi => .ok (m, pi, i)
  | n + 1, i, m, pi =>
    if pi.nread = pi.nwrite then .ok (m, pi, i)
    else do
      let ch := pi.data (pi.nread.toNat % PIPESIZE)
      let pi := { pi with nread := pi.nread + 1 }
      let (m, ok) ← m.copyout pagetable (addr + UInt64.ofNat i).toNat [ch]
      if ok then pipereadLoop pagetable addr n (i + 1) m pi else .ok (m, pi, i)

/-- `piperead`, from when the process last gets the lock: it returns, or goes to sleep. -/
def piperead (m : Phys) (pagetable : ℕ) (pi : Pipe) (addr : UInt64) (n : ℤ) (killed : Bool) :
    Except Fault (Phys × Pipe × ℤ) :=
  if pi.nread = pi.nwrite ∧ pi.writeopen = true then
    if killed then .ok (m, pi, -1) else .error .blocked
  else do
    let (m, pi, i) ← pipereadLoop pagetable addr n.toNat 0 m pi
    .ok (m, pi, i)

/-! ## What it does -/

/-- The number of bytes in the pipe. -/
def Pipe.count (pi : Pipe) : ℕ := (pi.nwrite - pi.nread).toNat

/-- The next `k` bytes of the pipe. -/
def Pipe.bytes (pi : Pipe) (k : ℕ) : List UInt8 :=
  (List.range k).map (fun j => pi.data ((pi.nread + UInt32.ofNat j).toNat % PIPESIZE))

/-- The pipe after `k` bytes have been consumed. -/
def Pipe.advance (pi : Pipe) (k : ℕ) : Pipe := { pi with nread := pi.nread + UInt32.ofNat k }

variable {pi : Pipe} {t : UserTable} {addr : UInt64} {i k n : ℕ} {m : Phys}

theorem Pipe.count_eq_zero_iff : pi.count = 0 ↔ pi.nread = pi.nwrite := by
  rw [Pipe.count]
  constructor
  · intro h
    have hz : pi.nwrite - pi.nread = 0 := UInt32.toNat_inj.mp h
    rw [← UInt32.sub_add_cancel pi.nwrite pi.nread, hz, UInt32.zero_add]
  · intro h
    rw [h, UInt32.sub_self]
    rfl

/-- Consuming a byte. -/
theorem Pipe.count_advance (h : pi.nread ≠ pi.nwrite) : pi.count = (pi.advance 1).count + 1 := by
  have hne : pi.nread.toNat ≠ pi.nwrite.toNat := fun he => h (UInt32.toNat_inj.mp he)
  have hr := pi.nread.toNat_lt
  have hw := pi.nwrite.toNat_lt
  simp only [Pipe.count, Pipe.advance, UInt32.toNat_sub, UInt32.toNat_add, UInt32.toNat_ofNat']
  omega

theorem Pipe.advance_advance (pi : Pipe) (j k : ℕ) :
    (pi.advance j).advance k = pi.advance (j + k) := by
  simp only [Pipe.advance, UInt32.ofNat_add, UInt32.add_assoc]

theorem Pipe.advance_zero (pi : Pipe) : pi.advance 0 = pi := by
  simp [Pipe.advance]

theorem Pipe.bytes_succ (pi : Pipe) (k : ℕ) :
    pi.bytes (k + 1) = pi.data (pi.nread.toNat % PIPESIZE) :: (pi.advance 1).bytes k := by
  simp only [Pipe.bytes, range_succ_eq_map, map_cons, map_map]
  refine congrArg₂ cons (by simp) (map_congr_left (fun j _ => ?_))
  simp only [Function.comp_apply, Pipe.advance, UInt32.add_assoc, Nat.succ_eq_one_add,
    UInt32.ofNat_add]

/-- **What the loop stores and consumes.** It stores the bytes up to the first that cannot be
written, and has then also consumed that one. -/
theorem pipereadLoop_eq (addr : UInt64) (i n : ℕ) (pi : Pipe) (hm : t.mem.Agrees t.root m)
    (hi : addr.toNat + i < 2 ^ 64) :
    ∃ k, k = Paged.extent PGSIZE (t.mem.writeOk t.root) (addr.toNat + i) (min n pi.count) ∧
      pipereadLoop t.root addr n i m pi =
        .ok (m.storeAt (fun j => t.loc (addr.toNat + i + j)) (pi.bytes k),
          pi.advance (if k = min n pi.count then k else k + 1), i + k) := by
  induction n generalizing i m pi with
  | zero =>
    refine ⟨0, ?_, ?_⟩
    · rw [zero_min]
      rfl
    · rw [pipereadLoop, if_pos (zero_min _).symm, Pipe.advance_zero]
      rfl
  | succ n ih =>
    rw [pipereadLoop]
    split
    · next hempty =>
      have h0 := Pipe.count_eq_zero_iff.mpr hempty
      refine ⟨0, by rw [h0]; rfl, ?_⟩
      rw [if_pos (by rw [h0]; rfl), Pipe.advance_zero]
      rfl
    · next hne =>
      have haddr : (addr + UInt64.ofNat i).toNat = addr.toNat + i := by
        rw [UInt64.toNat_add, UInt64.toNat_ofNat']
        omega
      dsimp only
      rw [haddr, Phys.copyout, Phys.copyoutLoop_eq t.apart hm le_rfl, ok_bind]
      simp only [length_singleton, Paged.extent]
      have hmin : min (n + 1) pi.count = min n (pi.advance 1).count + 1 := by
        rw [Pipe.count_advance hne, Nat.add_min_add_right]
      rw [hmin, Paged.extent]
      by_cases hok : t.mem.writeOk t.root ((addr.toNat + i) / PGSIZE) = true
      · have hlt : addr.toNat + (i + 1) < 2 ^ 64 := by
          have hpage : (addr.toNat + i) / 4096 < 2 ^ 26 := (UserTable.writeOk_iff.mp hok).1
          omega
        simp only [if_pos hok, zero_add]
        obtain ⟨k, hk, hrun⟩ := ih (i + 1) (pi.advance 1)
          (hm.storeAt t.apart (addr.toNat + i) [pi.data (pi.nread.toNat % PIPESIZE)]
            (fun j hj => by rw [Nat.lt_one_iff.mp hj]; exact hok)) hlt
        refine ⟨k + 1, by rw [hk, add_assoc], ?_⟩
        refine hrun.trans ?_
        rw [Pipe.advance_advance, Pipe.bytes_succ]
        refine congrArg Except.ok (Prod.ext ?_ (Prod.ext ?_ ?_))
        · have happ := Phys.storeAt_append (m := m) (fun j => t.loc (addr.toNat + i + j))
            [pi.data (pi.nread.toNat % PIPESIZE)] ((pi.advance 1).bytes k)
          simp only [length_singleton, add_assoc] at happ ⊢
          exact happ.symm
        · show pi.advance (1 + _) = pi.advance _
          congr 1
          split_ifs <;> omega
        · exact add_right_comm i 1 k
      · simp only [if_neg hok]
        refine ⟨0, rfl, ?_⟩
        rw [if_neg (Nat.succ_ne_zero _).symm]
        rfl

/-! ## What it returns -/

/-- A call of `piperead` that returns the number of the bytes it has consumed, which are the
bytes it has stored. -/
def Faithful (t : UserTable) (pi : Pipe) (addr : UInt64) (n : ℤ) (killed : Bool) : Prop :=
  ∀ m pi' r, piperead t.mem t.root pi addr n killed = .ok (m, pi', r) → 0 ≤ r →
    pi'.nread = pi.nread + UInt32.ofNat r.toNat ∧ t.Stored addr.toNat (pi.bytes r.toNat) m

theorem Pipe.nread_advance_succ_ne (pi : Pipe) (k : ℕ) :
    (pi.advance (k + 1)).nread ≠ pi.nread + UInt32.ofNat k := by
  intro h
  have hnat := congrArg UInt32.toNat h
  simp only [Pipe.advance, UInt32.toNat_add, UInt32.toNat_ofNat'] at hnat
  omega

/-- **When `piperead` consumes what it returns**: if the process can write the addresses of all
the bytes that are there and that it has asked for. -/
theorem piperead_faithful_iff (t : UserTable) (pi : Pipe) (addr : UInt64) (n : ℤ) (killed : Bool) :
    Faithful t pi addr n killed ↔ ∀ i < min n.toNat pi.count, t.Writable (addr.toNat + i) := by
  unfold Faithful piperead
  by_cases hempty : pi.nread = pi.nwrite ∧ pi.writeopen = true
  · -- nothing is there, and it sleeps or returns -1
    rw [if_pos hempty]
    refine iff_of_true (fun m pi' r hrun hr => ?_) fun i hi => ?_
    · split_ifs at hrun
      cases hrun
      exact absurd hr (by decide)
    · rw [Pipe.count_eq_zero_iff.mpr hempty.1, min_zero] at hi
      exact absurd hi (Nat.not_lt_zero i)
  · obtain ⟨k, hk, hrun⟩ := pipereadLoop_eq addr 0 n.toNat pi (fun _ _ => rfl) addr.toNat_lt
    have hfull : (∀ i < min n.toNat pi.count, t.Writable (addr.toNat + i)) ↔
        k = min n.toNat pi.count := by
      rw [hk, Paged.extent_eq_iff, add_zero]
      constructor
      · intro h b hab hb
        obtain ⟨i, rfl⟩ := Nat.exists_eq_add_of_le hab
        exact UserTable.writeOk_iff.mpr (h i (lt_of_add_lt_add_left hb))
      · intro h i hi
        exact UserTable.writeOk_iff.mp (h _ (Nat.le_add_right _ i) (Nat.add_lt_add_left hi _))
    rw [if_neg hempty, hrun, ok_bind, hfull]
    simp only [zero_add, add_zero]
    constructor
    · intro h
      by_contra hne
      have hread := (h _ _ _ rfl (Int.natCast_nonneg k)).1
      rw [if_neg hne, Int.toNat_natCast] at hread
      exact pi.nread_advance_succ_ne k hread
    · rintro hall m pi' r hrun hr
      cases hrun
      rw [if_pos hall, Int.toNat_natCast]
      exact ⟨rfl, t.stored_storeAt addr.toNat (pi.bytes k)⟩

/-- A memory of zeros. -/
private def zeros : Phys := ⟨fun _ _ => 0, [], 0, 0⟩

private theorem not_mayRead_zeros (v : ℕ) : ¬ Phys.MayRead (zeros.pte 0 v) := by
  have hnode : zeros.node 0 (Phys.vpath v) = none := by
    rw [Phys.vpath, Phys.node, Radix.descend_cons, Phys.entry, zeros, Page.word_zero]
    rfl
  rw [Phys.pte, hnode, Option.elim_none]
  exact fun h => absurd h.1 (by decide)

/-- A process for which nothing is mapped. -/
private def unmapped : UserTable where
  mem := zeros
  root := 0
  notTable v _ h := absurd h (not_mayRead_zeros v)
  notNull v _ h := absurd h (not_mayRead_zeros v)

/-- **A byte that cannot be copied out is lost.** There is one byte in the pipe, and the
destination is not mapped: `piperead` returns 0, and the pipe is empty. -/
theorem piperead_loses_byte : ¬ Faithful unmapped ⟨fun _ => 65, 0, 1, true, true⟩ 0 1 false := by
  intro h
  have hread := (h _ _ 0 rfl (by decide)).1
  exact absurd hread (by decide)

end Xv6.Pipes
