import OsProject.Machine
import OsProject.SpawnForkExec

/-!
# Growing and shrinking a process

`sbrk` takes a signed 32-bit number and adds it to an unsigned 64-bit size.
Growing can run out of memory, and then nothing has changed, not even an entry of
the page table. Shrinking cannot fail. But a process that asks to be made smaller by
more than its size passes a number to `uvmdealloc` that has wrapped around to one
above every size, and `uvmdealloc` takes it for a request to grow: it does nothing
and reports the old size. So `sbrk` then answers as if it had succeeded, and the
size is what it was (`sysSbrk_exact_iff`).
-/

namespace Xv6

open Phys

/-- Two page tables for the same address space that have the same entries for its
pages have the same entries. -/
theorem Phys.Space.kept {m m' : Phys} {pt : ℕ} {A : AddrSpace} {T : ℕ → ℕ} (h : Space m pt A T)
    (h' : Space m' pt A T) (hk : Kept m m' pt {u | (A u).isSome}) : Kept m m' pt Set.univ := by
  intro u _ hu
  cases hA : A u with
  | some => exact hk u (by simp [hA]) hu
  | none =>
    rcases lt_or_ge u UVPN with hlt | hge
    · rw [h.absent u hlt hA, h'.absent u hlt hA]
    · rw [h.top u hge hu, h'.top u hge hu]

namespace System

variable {s : System} {p : Slot} {pt tf sz : ℕ} {A : AddrSpace}

/-- The size that `growproc` computes. -/
theorem newsz_eq (hsz : sz ≤ PHYSTOP) (n : BitVec 32) :
    (0 ≤ sz + n.toInt → ((((sz + n.toInt) % 2 ^ 64).toNat : ℕ) : ℤ) = sz + n.toInt) ∧
      (sz + n.toInt < 0 → sz ≤ ((sz + n.toInt) % 2 ^ 64).toNat) := by
  have hlo := BitVec.le_toInt n
  have hhi := BitVec.toInt_lt (x := n)
  have hsz' : sz ≤ 0x88000000 := hsz
  constructor
  · intro h
    omega
  · intro h
    omega

/-- **What `growproc` does.** The size moves by `n`, if that is possible; or it
stays, and the call reports a failure only if there was no memory. -/
theorem Lives.growproc (hl : s.Lives p pt tf A) (hp : s.mem.Pool {x | x ∈ s.mem.freelist})
    (n : BitVec 32) :
    ∃ m A' sz r,
      s.growproc p n = .ok ({ s.setProc p { s.proc p with sz := sz } with mem := m }, r) ∧
      m.Owns pt A' (procTop s.mem.trampoline tf) ({x | x ∈ s.mem.freelist} ∪ s.mem.owned pt A) ∧
      A'.Spans (npages sz) ∧
      Within s.mem m ({x | x ∈ s.mem.freelist} ∪ s.mem.owned pt A) ∧
      ((r = 0 ∧ (0 ≤ (s.proc p).sz + n.toInt → (sz : ℤ) = (s.proc p).sz + n.toInt) ∧
          ((s.proc p).sz + n.toInt < 0 → sz = (s.proc p).sz)) ∨
        (r = -1 ∧ 0 ≤ (s.proc p).sz + n.toInt ∧ sz = (s.proc p).sz ∧ A' = A ∧
          Kept s.mem m pt Set.univ)) := by
  have ho := hl.owns hp
  have hself : ∀ m, ({ s.setProc p { s.proc p with sz := (s.proc p).sz } with mem := m } : System) =
      { s with mem := m } := by
    intro m
    show ({ s with proc := Function.update s.proc p (s.proc p), mem := m } : System) = _
    rw [Function.update_eq_self]
  obtain ⟨hnew, hwrap⟩ := newsz_eq (ho.sz_le hl.spans) n
  unfold System.growproc
  rw [hl.pagetable]
  simp only [deref, ok_bind]
  generalize hN : (((s.proc p).sz + n.toInt) % 2 ^ 64).toNat = newsz at hnew hwrap
  by_cases hpos : 0 < n.toInt
  · have hle : (s.proc p).sz ≤ newsz := by
      have := hnew (by omega)
      omega
    obtain ⟨m, ok, hm, hw, hk, hyes, hno⟩ := ho.uvmalloc (s.proc p).sz newsz PTE_W hl.spans hle
      (by decide)
    rw [if_pos hpos, hm, ok_bind]
    cases ok with
    | true =>
      have hne : newsz ≠ 0 := by
        have := hnew (by omega)
        omega
      refine ⟨m, _, newsz, 0, ?_, hyes rfl, hl.spans.grow (npages_le hle), hw, .inl
        ⟨rfl, hnew, fun hc => by omega⟩⟩
      simp only [if_true, if_neg hne]
    | false =>
      refine ⟨m, A, (s.proc p).sz, -1, ?_, hno rfl, hl.spans, hw, .inr
        ⟨rfl, by omega, rfl, rfl, ?_⟩⟩
      · simp only [Bool.false_eq_true, if_false, if_true]
        rw [hself]
      · exact hl.space.kept (hno rfl).toSpace (hk.mono (fun u hu => (hl.spans u).mp hu))
  · rw [if_neg hpos]
    by_cases hneg : n.toInt < 0
    · obtain ⟨m, hm, ho', hw, -⟩ := ho.uvmdealloc (s.proc p).sz newsz hl.spans
      rw [if_pos hneg, hm, ok_bind]
      refine ⟨m, _, _, 0, rfl, ho', ?_, hw, .inl ⟨rfl, fun hc => ?_, fun hc => ?_⟩⟩
      · split
        · next hle =>
          rw [Nat.sub_eq_zero_of_le (npages_le hle), AddrSpace.unmap_zero]
          exact hl.spans
        · next hle => exact hl.spans.unmap (npages_le (le_of_lt (not_le.mp hle)))
      · have := hnew hc
        rw [if_neg (by omega)]
        exact this
      · exact if_pos (hwrap hc)
    · rw [if_neg hneg]
      refine ⟨s.mem, A, (s.proc p).sz, 0, ?_, ho, hl.spans, Within.refl, .inl
        ⟨rfl, fun _ => by omega, fun _ => rfl⟩⟩
      rw [hself]

/-- **`sbrk` is exact unless it is asked to shrink by more than there is.** For
every process and every number `n`, it returns the old size and leaves the old size
plus `n`, or returns -1 and leaves the size, every entry of the page table and the
memory of the process as they were: exactly if the old size plus `n` is not
negative. -/
theorem sysSbrk_exact_iff (hl : s.Lives p pt tf A) (hp : s.mem.Pool {x | x ∈ s.mem.freelist})
    (n : BitVec 32) : (∃ s' r, s.sysSbrk p n = .ok (s', r) ∧
      ((r = (s.proc p).sz ∧ ((s'.proc p).sz : ℤ) = (s.proc p).sz + n.toInt) ∨
        (r = -1 ∧ (s'.proc p).sz = (s.proc p).sz ∧ (s'.proc p).pagetable = (s.proc p).pagetable ∧
          (∀ v < NVPN, s'.mem.pte pt v = s.mem.pte pt v) ∧ s'.userMemory p = s.userMemory p))) ↔
      0 ≤ (s.proc p).sz + n.toInt := by
  obtain ⟨m, _, sz, r, hrun, ho, -, -, hcase⟩ := hl.growproc hp n
  have hsbrk : s.sysSbrk p n = .ok ({ s.setProc p { s.proc p with sz := sz } with mem := m },
      if r < 0 then -1 else (s.proc p).sz) := by
    unfold System.sysSbrk
    rw [hrun]
    rfl
  have hproc : ({ s.setProc p { s.proc p with sz := sz } with mem := m } : System).proc p =
      { s.proc p with sz := sz } := Function.update_self ..
  constructor
  · rintro ⟨_, _, hs', hclaim⟩
    rw [hsbrk] at hs'
    cases hs'
    by_contra hneg
    rcases hcase with ⟨rfl, -, hsame⟩ | ⟨-, hnn, -⟩
    · rcases hclaim with ⟨-, hsz⟩ | ⟨hr, -⟩
      · rw [hproc] at hsz
        have hsz' : (sz : ℤ) = (s.proc p).sz + n.toInt := hsz
        rw [hsame (not_le.mp hneg)] at hsz'
        omega
      · rw [if_neg (lt_irrefl 0)] at hr
        omega
    · exact hneg hnn
  · intro hnn
    refine ⟨_, _, hsbrk, ?_⟩
    rw [hproc]
    rcases hcase with ⟨rfl, hsz, -⟩ | ⟨rfl, -, hsz, rfl, hk⟩
    · exact .inl ⟨if_neg (lt_irrefl 0), hsz hnn⟩
    · refine .inr ⟨rfl, hsz, rfl, fun v hv => hk v trivial hv, ?_⟩
      unfold userMemory
      rw [hproc]
      rw [hl.pagetable, Option.elim_some, Option.elim_some, ho.toSpace.userPages,
        hl.space.userPages]

/-- A process with one page, when no page is free. -/
def fullMachine : System := userMachine [] (freePages 3) (fun _ => 7) (fun _ => 0)

/-- The process asks for a second page: once there is one, and once there is none. -/
theorem sysSbrk_exact_one_page :
    (∃ s', elfMachine.sysSbrk 0 4096 = .ok (s', 4096) ∧ (s'.proc 0).sz = 8192) ∧
    ∃ s', fullMachine.sysSbrk 0 4096 = .ok (s', -1) ∧ (s'.proc 0).sz = 4096 ∧
      s'.userMemory 0 = fullMachine.userMemory 0 := by
  obtain ⟨hok, -, hl⟩ := elfMachine_ok
  obtain ⟨hok', -, hl'⟩ := userMachine_ok [] (freePages 3) (fun _ => 7) (fun _ => 0)
    (by decide +kernel) (by decide +kernel) (by decide +kernel) (by decide +kernel)
  obtain ⟨s₁, hrun, -⟩ := exists_of_returns (x := elfMachine.sysSbrk 0 4096) (r := 4096)
    (c := fun _ => true) (by decide +kernel)
  obtain ⟨s₂, hrun', -⟩ := exists_of_returns (x := fullMachine.sysSbrk 0 4096) (r := -1)
    (c := fun _ => true) (by decide +kernel)
  obtain ⟨_, _, hs₁, hcase⟩ := (sysSbrk_exact_iff hl hok.pool 4096).mpr (by decide)
  obtain ⟨_, _, hs₂, hcase'⟩ := (sysSbrk_exact_iff hl' hok'.pool 4096).mpr (by decide)
  cases hrun.symm.trans hs₁
  cases hrun'.symm.trans hs₂
  constructor
  · rcases hcase with ⟨-, hsz⟩ | ⟨hr, -⟩
    · exact ⟨s₁, hrun, by exact_mod_cast hsz.trans (by decide : _ = (8192 : ℤ))⟩
    · cases hr
  · rcases hcase' with ⟨hr, -⟩ | ⟨-, hsz, -, -, hmem⟩
    · cases hr
    · exact ⟨s₂, hrun', hsz, hmem⟩

/-- **A process of size 0 asks for one byte less**: it is told that this succeeded,
and its size is still 0. -/
theorem sysSbrk_below_zero : ∃ s', (fileMachine [] []).sysSbrk 0 (-1) = .ok (s', 0) ∧
    ((fileMachine [] []).proc 0).sz = 0 ∧ (s'.proc 0).sz = 0 := by
  obtain ⟨s', hrun, hsz⟩ := exists_of_returns (x := (fileMachine [] []).sysSbrk 0 (-1))
    (r := 0) (c := fun s' => decide ((s'.proc 0).sz = 0)) (by decide +kernel)
  exact ⟨s', hrun, rfl, of_decide_eq_true hsz⟩

end System

end Xv6
