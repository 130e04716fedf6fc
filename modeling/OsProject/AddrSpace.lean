import Mathlib.Logic.Function.Basic
import Mathlib.Data.Nat.Basic
import Mathlib.Algebra.Group.Int.Defs
import Mathlib.Algebra.GroupWithZero.Nat

/-!
# User address spaces

What a process sees of its memory: for each virtual page below `MAXVA`
either nothing or a page of bytes with the flag bits of its page-table
entry. The pages at `TRAPFRAME` and `TRAMPOLINE` are mapped without `PTE_U`
and hold no user data, so they are not part of it.

This is the view in which `fork` copies memory and in which `wait` stores an
exit status. How the page table in physical memory represents it is the
business of the modules on `vm.c`.
-/

namespace Xv6

open Function

/-- A projection that a new value agrees on does not see the update. -/
theorem update_keeps {α β γ : Type*} [DecidableEq α] (f : β → γ) {T : α → β} {j : α} {P : β}
    (h : f P = f (T j)) (i : α) : f (update T j P i) = f (T i) := by
  by_cases hi : i = j
  · rw [hi, update_self, h]
  · rw [update_of_ne hi]

/-- Bytes per page (`riscv.h`). -/
abbrev PGSIZE : ℕ := 4096

theorem PGSIZE_pos : 0 < PGSIZE := by decide

/-- One beyond the highest user virtual address (`riscv.h`). -/
abbrev MAXVA : ℕ := 2 ^ 38

/-- Valid. -/
abbrev PTE_V : ℕ := 1

/-- Readable. -/
abbrev PTE_R : ℕ := 2

/-- Writable. -/
abbrev PTE_W : ℕ := 4

/-- Executable. -/
abbrev PTE_X : ℕ := 8

/-- Accessible in user mode. -/
abbrev PTE_U : ℕ := 16

/-- Whether the entry or flag word `f` has the single-bit flag `b`. -/
def hasFlag (f b : ℕ) : Bool := f / b % 2 == 1

/-- A mapped user page: the flag bits of its entry and its bytes. -/
structure UPage where
  flags : ℕ
  bytes : Fin PGSIZE → UInt8

/-- A user address space, by virtual page number. -/
abbrev AddrSpace := ℕ → Option UPage

namespace AddrSpace

/-- The address space of a fresh page table. -/
def empty : AddrSpace := fun _ => none

/-- What `uvmcopy` leaves in the child: the pages that start below `sz`, with
their bytes and flags. -/
def upTo (m : AddrSpace) (sz : ℕ) : AddrSpace :=
  fun vpn => if vpn * PGSIZE < sz then m vpn else none

/-- Whether `copyout` may write the page: mapped, for user mode, writable. -/
def writable (m : AddrSpace) (vpn : ℕ) : Bool :=
  match m vpn with
  | some pg => hasFlag pg.flags PTE_V && hasFlag pg.flags PTE_U && hasFlag pg.flags PTE_W
  | none => false

/-- Store one byte at a virtual address. -/
def store (m : AddrSpace) (va : ℕ) (b : UInt8) : AddrSpace :=
  update m (va / PGSIZE) ((m (va / PGSIZE)).map (fun pg =>
    { pg with bytes := update pg.bytes ⟨va % PGSIZE, Nat.mod_lt _ PGSIZE_pos⟩ b }))

/-- `copyout`: store the bytes from `va` on and report success, or stop at the
first byte whose page may not be written. The bytes before it stay written. -/
def copyout (m : AddrSpace) (va : ℕ) : List UInt8 → AddrSpace × Bool
  | [] => (m, true)
  | b :: bs =>
    if va < MAXVA ∧ m.writable (va / PGSIZE) then (m.store va b).copyout (va + 1) bs
    else (m, false)

/-- The byte at a virtual address, if its page is mapped. -/
def byte (m : AddrSpace) (va : ℕ) : Option UInt8 :=
  (m (va / PGSIZE)).map (fun pg => pg.bytes ⟨va % PGSIZE, Nat.mod_lt _ PGSIZE_pos⟩)

/-- The `n` bytes from a virtual address on. -/
def load (m : AddrSpace) (va n : ℕ) : List (Option UInt8) :=
  (List.range n).map (fun i => m.byte (va + i))

variable {m : AddrSpace} {va va' : ℕ}

theorem byte_store_self (b : UInt8) (h : m.writable (va / PGSIZE)) :
    (m.store va b).byte va = some b := by
  unfold writable at h
  cases hm : m (va / PGSIZE) with
  | none => simp [hm] at h
  | some => simp [byte, store, hm]

theorem byte_store_of_ne (b : UInt8) (h : va' ≠ va) : (m.store va b).byte va' = m.byte va' := by
  unfold byte store
  by_cases hp : va' / PGSIZE = va / PGSIZE
  · have hr : va' % PGSIZE ≠ va % PGSIZE := by
      intro hr
      exact h (by rw [← Nat.div_add_mod va' PGSIZE, hp, hr, Nat.div_add_mod])
    rw [hp, update_self, Option.map_map]
    congr 1
    funext pg
    exact update_of_ne (by simpa using hr) _ _
  · rw [update_of_ne hp]

/-- `copyout` writes nothing below its start. -/
theorem byte_copyout_of_lt (bs : List UInt8) (h : va' < va) :
    (m.copyout va bs).1.byte va' = m.byte va' := by
  induction bs generalizing m va with
  | nil => rfl
  | cons b bs ih =>
    rw [copyout]
    split
    · rw [ih (Nat.lt_succ_of_lt h), byte_store_of_ne b (ne_of_lt h)]
    · rfl

/-- **A `copyout` that succeeds has stored its bytes.** -/
theorem load_copyout {bs : List UInt8} (h : (m.copyout va bs).2 = true) :
    (m.copyout va bs).1.load va bs.length = bs.map some := by
  induction bs generalizing m va with
  | nil => rfl
  | cons b bs ih =>
    rw [copyout] at h ⊢
    split_ifs at h with hw
    rw [if_pos hw]
    have hrest := ih h
    simp only [load, List.length_cons, List.range_succ_eq_map, List.map_cons, List.map_map,
      Nat.add_zero] at hrest ⊢
    rw [byte_copyout_of_lt bs (Nat.lt_succ_self va), byte_store_self b hw.2, ← hrest]
    refine congrArg _ (List.map_congr_left (fun i _ => ?_))
    show AddrSpace.byte _ (va + (i + 1)) = _
    rw [Nat.add_right_comm, Nat.add_assoc]

end AddrSpace

/-- The four bytes of an `int`, least significant first. -/
def intBytes (x : ℤ) : List UInt8 :=
  let w := (x % 2 ^ 32).toNat
  [UInt8.ofNat w, UInt8.ofNat (w / 2 ^ 8), UInt8.ofNat (w / 2 ^ 16), UInt8.ofNat (w / 2 ^ 24)]

/-- The fields of `struct trapframe`, in the order of `proc.h`. -/
inductive Reg where
  | kernelSatp | kernelSp | kernelTrap | epc | kernelHartid
  | ra | sp | gp | tp | t0 | t1 | t2 | s0 | s1
  | a0 | a1 | a2 | a3 | a4 | a5 | a6 | a7
  | s2 | s3 | s4 | s5 | s6 | s7 | s8 | s9 | s10 | s11
  | t3 | t4 | t5 | t6
  deriving DecidableEq

/-- The saved user registers. -/
abbrev Trapframe := Reg → ℕ

/-- A page fresh from `kalloc` is filled with the byte 5. -/
def Trapframe.junk : Trapframe := fun _ => 0x0505050505050505

end Xv6
