import OsProject.AddrSpace
import Mathlib.Data.Nat.Bitwise
import Mathlib.Data.Nat.Digits.Defs
import Mathlib.Tactic.Ring

/-!
# Physical memory

The pages of physical memory and the allocator of `kalloc.c`, with the macros
of `riscv.h` for page-table entries.

A page is its bytes, and a page is named by the physical address it starts at.
The same page can be read as a table of 512 words, least significant byte
first: that a page holds user data or page-table entries is nothing the memory
knows, it is an invariant of the code. The allocator keeps a list of free
pages. Its links are stored in the free pages themselves; here they are the
list.

A function that may call `panic` returns in `Except Fault`. An error code of
the source, such as the -1 or the null pointer for lack of memory, is an
ordinary result.
-/

namespace Xv6

open Function (update update_of_ne update_self)

/-- The bytes of a page. -/
abbrev Page := Fin PGSIZE → UInt8

/-- First address of RAM (`memlayout.h`). -/
abbrev KERNBASE : ℕ := 0x80000000

/-- End of RAM (`memlayout.h`). -/
abbrev PHYSTOP : ℕ := KERNBASE + 128 * 1024 * 1024

/-- What ends a system call other than a return: the calls of `panic` in the
modelled functions, undefined behaviour, and `sleep` when there is nobody else to
call `wakeup`. -/
inductive Fault where
  | kfree | walk | mapNotAligned | mapSizeNotAligned | mapSize | mapRemap
  | unmapNotAligned | unmapWalk | unmapNotMapped | unmapNotLeaf | freewalkLeaf
  | copyNoPte | copyNotPresent | clear | loadseg | uvmfirst
  | iget | ilock | ilockNoType | dirlookupNotDir | dirlookupRead | logCommitting | filedup
  | bfree | bmap | dirlinkRead | isdirempty | unlinkNlink | unlinkWritei | fileclose
  | initExiting
  /-- `freewalk` below the third level. -/
  | depth
  /-- More rounds of `namex` than characters in the path. -/
  | rounds
  | nullPointer
  /-- A write beyond the end of the array `ustack` of `exec` and `spawn`. -/
  | ustack
  /-- A write beyond the end of the array `full_path` of `sys_forex`. -/
  | fullPath
  | blocked
  deriving DecidableEq

section Bind

variable {α β : Type} {x : Except Fault α} {k : α → Except Fault β} {b : β} {ε : Type*}

/-- Binding a result. -/
theorem ok_bind (a : α) (k : α → Except ε β) :
    ((.ok a : Except ε α) >>= k) = k a := rfl

/-- What has failed, failed in one of its parts. -/
theorem error_or_of_bind_eq_error {e : Fault} (h : (x >>= k) = .error e) :
    x = .error e ∨ ∃ a, x = .ok a ∧ k a = .error e := by
  cases x with
  | error => exact .inl (by cases h; rfl)
  | ok a => exact .inr ⟨a, rfl, h⟩

/-- What has returned was made of what has returned. -/
theorem exists_of_bind_eq_ok {x : Except ε α} {k : α → Except ε β} (h : (x >>= k) = .ok b) :
    ∃ a, x = .ok a ∧ k a = .ok b := by
  cases x with
  | error => cases h
  | ok a => exact ⟨a, rfl, h⟩

/-- What has a result returned it. -/
theorem eq_ok_of_toOption {x : Except ε α} {a : α} (h : x.toOption = some a) : x = .ok a := by
  cases x with
  | error => cases h
  | ok => exact congrArg Except.ok (Option.some.inj h)

/-- **A specification of a function that may fail**: it does not fail with a
fault in `bad`, and a result satisfies `Q`. -/
def Ensures (bad : Fault → Prop) (Q : α → Prop) : Except Fault α → Prop
  | .ok a => Q a
  | .error e => ¬ bad e

namespace Ensures

variable {bad : Fault → Prop} {Q Q' : α → Prop} {R : β → Prop}

theorem mono (h : Ensures bad Q x) (hQ : ∀ a, Q a → Q' a) : Ensures bad Q' x := by
  cases x with
  | error => exact h
  | ok a => exact hQ a h

/-- The rule for sequences. -/
theorem bind (h : Ensures bad Q x) (hk : ∀ a, Q a → Ensures bad R (k a)) :
    Ensures bad R (x >>= k) := by
  cases x with
  | error => exact h
  | ok a => exact hk a h

theorem of_ok (h : Ensures bad Q x) {a : α} (hx : x = .ok a) : Q a := by
  subst hx
  exact h

/-- What returns does not fail. -/
theorem of_exists (h : ∃ a, x = .ok a ∧ Q a) : Ensures bad Q x := by
  obtain ⟨_, rfl, ha⟩ := h
  exact ha

theorem of_error (h : Ensures bad Q x) {e : Fault} (hx : x = .error e) : ¬ bad e := by
  subst hx
  exact h

end Ensures

end Bind

/-! ## Words and page-table entries -/

namespace Page

/-- The position of byte `k` of word `i`. -/
def offset (i : Fin 512) (k : Fin 8) : Fin PGSIZE :=
  ⟨8 * i + k, by show _ < 4096; omega⟩

/-- The 64-bit word `i` of a page, least significant byte first. -/
def word (P : Page) (i : Fin 512) : ℕ :=
  Nat.ofDigits 256 (List.ofFn (fun k : Fin 8 => (P (offset i k)).toNat))

/-- Write the 64-bit word `i`. -/
def setWord (P : Page) (i : Fin 512) (w : ℕ) : Page :=
  fun o => if o.val / 8 = i then UInt8.ofNat (w / 256 ^ (o.val % 8)) else P o

/-- Write bytes from an offset on. What would lie beyond the page is not
written. -/
def write (P : Page) (off : ℕ) (bs : List UInt8) : Page :=
  fun o => if off ≤ o.val ∧ o.val < off + bs.length then bs.getD (o.val - off) 0 else P o

theorem word_setWord_self (P : Page) (i : Fin 512) {w : ℕ} (hw : w < 2 ^ 64) :
    (P.setWord i w).word i = w := by
  have hb : ∀ k : Fin 8, (P.setWord i w (offset i k)).toNat = w / 256 ^ k.val % 256 := by
    intro k
    have hk : (offset i k).val / 8 = i ∧ (offset i k).val % 8 = k := by
      simp only [offset]
      omega
    simp only [setWord, hk.1, hk.2, if_true, UInt8.toNat_ofNat']
  simp only [word, hb, List.ofFn_succ, List.ofFn_zero, Nat.ofDigits_cons, Nat.ofDigits_nil]
  norm_num
  omega

theorem word_setWord_of_ne (P : Page) {i j : Fin 512} (h : j ≠ i) (w : ℕ) :
    (P.setWord i w).word j = P.word j := by
  have hb : ∀ k : Fin 8, P.setWord i w (offset j k) = P (offset j k) := by
    intro k
    have hk : ¬ (offset j k).val / 8 = i := by
      intro he
      simp only [offset] at he
      exact h (Fin.ext (by omega))
    simp only [setWord, hk, if_false]
  simp only [word, hb]

theorem word_lt (P : Page) (i : Fin 512) : P.word i < 2 ^ 64 := by
  have h := Nat.ofDigits_lt_base_pow_length (b := 256) (by decide)
    (l := List.ofFn (fun k : Fin 8 => (P (offset i k)).toNat)) (fun x hx => by
      obtain ⟨k, rfl⟩ := List.mem_ofFn.mp hx
      exact UInt8.toNat_lt _)
  rw [List.length_ofFn] at h
  exact h.trans_le (by decide)

@[simp] theorem word_zero (i : Fin 512) : word (fun _ => 0) i = 0 := by
  simp [word, List.ofFn_succ, Nat.ofDigits_cons]

end Page

/-- `PA2PTE`: the entry for a page, without flags. -/
def PA2PTE (pa : ℕ) : ℕ := pa / 2 ^ 12 * 2 ^ 10

/-- `PTE2PA`: the page an entry points to. -/
def PTE2PA (pte : ℕ) : ℕ := pte / 2 ^ 10 * 2 ^ 12 % 2 ^ 64

/-- `PTE_FLAGS`: the flag bits of an entry. -/
def PTE_FLAGS (pte : ℕ) : ℕ := pte % 2 ^ 10

/-- `PX`: the nine bits of a virtual address that index the table at a
level. -/
def PX (level va : ℕ) : Fin 512 := ⟨va / 2 ^ (12 + 9 * level) % 512, Nat.mod_lt _ (by decide)⟩

/-- `PGROUNDUP`, on 64-bit numbers. -/
def PGROUNDUP (sz : ℕ) : ℕ := (sz + PGSIZE - 1) % 2 ^ 64 / PGSIZE * PGSIZE

/-- `PGROUNDDOWN`. -/
def PGROUNDDOWN (a : ℕ) : ℕ := a / PGSIZE * PGSIZE

/-- Where a page can be: a multiple of the page size, and small enough for an
entry to hold. -/
def IsPage (pa : ℕ) : Prop := pa % PGSIZE = 0 ∧ pa < 2 ^ 56

variable {pa f : ℕ}

/-- The entry `PA2PTE(pa) | f`, as a sum. -/
theorem PA2PTE_or (hf : f < 2 ^ 10) : PA2PTE pa ||| f = PA2PTE pa + f := by
  unfold PA2PTE
  rw [mul_comm, Nat.two_pow_add_eq_or_of_lt hf]

theorem PTE_FLAGS_PA2PTE_or (hf : f < 2 ^ 10) : PTE_FLAGS (PA2PTE pa ||| f) = f := by
  rw [PA2PTE_or hf, PTE_FLAGS, PA2PTE, Nat.mul_add_mod_self_right, Nat.mod_eq_of_lt hf]

theorem PTE2PA_PA2PTE_or (hpa : IsPage pa) (hf : f < 2 ^ 10) : PTE2PA (PA2PTE pa ||| f) = pa := by
  obtain ⟨hal, _⟩ := hpa
  rw [PA2PTE_or hf]
  unfold PTE2PA PA2PTE
  have hal' : pa % 4096 = 0 := hal
  omega

theorem PA2PTE_or_lt (hpa : IsPage pa) (hf : f < 2 ^ 10) : PA2PTE pa ||| f < 2 ^ 64 := by
  have hlt := hpa.2
  rw [PA2PTE_or hf]
  unfold PA2PTE
  omega

/-- A flag of a flag word. -/
theorem hasFlag_two_pow (f i : ℕ) : hasFlag f (2 ^ i) = f.testBit i := by
  rw [hasFlag, Nat.testBit_eq_decide_div_mod_eq]
  rfl

/-- A flag of an entry is a flag of its flag word. -/
theorem hasFlag_PTE_FLAGS (pte : ℕ) {i : ℕ} (hi : i < 10) :
    hasFlag (PTE_FLAGS pte) (2 ^ i) = hasFlag pte (2 ^ i) := by
  rw [hasFlag_two_pow, hasFlag_two_pow, PTE_FLAGS, Nat.testBit_mod_two_pow]
  simp [hi]

/-! ## Pages and the allocator -/

/-- Physical memory. `kend` and `trampoline` are the symbols `end`, the first
address after the kernel, and `trampoline`, the page of kernel text that is
mapped into every address space. -/
structure Phys where
  page : ℕ → Page
  /-- `kmem.freelist`. -/
  freelist : List ℕ
  kend : ℕ
  trampoline : ℕ

namespace Phys

/-- Write a whole page. -/
@[simps -fullyApplied]
def setPage (m : Phys) (a : ℕ) (P : Page) : Phys :=
  { m with page := update m.page a P }

/-- `memset(a, v, PGSIZE)`. -/
@[simps! -fullyApplied]
def memset (m : Phys) (a : ℕ) (v : UInt8) : Phys := m.setPage a (fun _ => v)

/-- Entry `i` of the table at `a`. -/
def entry (m : Phys) (a : ℕ) (i : Fin 512) : ℕ := (m.page a).word i

/-- Write entry `i` of the table at `a`. -/
@[simps! -fullyApplied]
def setEntry (m : Phys) (a : ℕ) (i : Fin 512) (w : ℕ) : Phys :=
  m.setPage a ((m.page a).setWord i w)

/-- Write bytes into the page at `a`. -/
@[simps! -fullyApplied]
def write (m : Phys) (a : ℕ) (off : ℕ) (bs : List UInt8) : Phys :=
  m.setPage a ((m.page a).write off bs)

/-- `kalloc`: take a page from the free list and fill it with junk. -/
def kalloc (m : Phys) : Phys × Option ℕ :=
  match m.freelist with
  | [] => (m, none)
  | r :: rest => ({ m with freelist := rest }.memset r 5, some r)

/-- `kfree`: fill the page with junk and put it on the free list. -/
def kfree (m : Phys) (pa : ℕ) : Except Fault Phys :=
  if pa % PGSIZE ≠ 0 ∨ pa < m.kend ∨ PHYSTOP ≤ pa then .error .kfree
  else .ok { m.memset pa 1 with freelist := pa :: m.freelist }

variable {m : Phys} {a : ℕ}

/-- The tables of a memory in which one page was written. -/
theorem entry_setPage (P : Page) : (m.setPage a P).entry = update m.entry a P.word := by
  funext b
  by_cases hb : b = a
  · subst hb
    funext i
    simp [entry]
  · funext i
    simp [entry, hb]

theorem entry_setEntry (i : Fin 512) {w : ℕ} (hw : w < 2 ^ 64) :
    (m.setEntry a i w).entry = update m.entry a (update (m.entry a) i w) := by
  rw [setEntry, entry_setPage]
  refine congrArg _ (funext (fun j => ?_))
  by_cases hj : j = i
  · rw [hj, Page.word_setWord_self _ _ hw, update_self]
  · rw [Page.word_setWord_of_ne _ hj, update_of_ne hj]
    rfl

end Phys

end Xv6
