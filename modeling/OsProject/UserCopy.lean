import OsProject.Paged
import OsProject.SpaceOps

/-!
# Reading and writing the memory of a process

The kernel reaches the memory of a process through three functions of `vm.c`,
`copyout`, `copyin` and `copyinstr`. Their arguments come from the process, so
nothing may be assumed of them: any address, any length, any page table.

What a page table must be for them is little. They do not care how it was built,
whether pages are shared or which pages there are; but a page that the process
can reach must not be one of the tables, or `copyout` could rewrite the
translations it is following, and must not be the page at address 0, which
`walkaddr` uses to say that there is none. That is `UserTable`. The page table of
every process is one (`Phys.Space.userTable`).

The loops go page by page. `Paged` says what they come to without pages: a copy
gets as far as the first byte whose page is not accessible, and it has transferred
exactly the bytes before it (`copy_exact`).
-/

namespace Xv6

open Paged Function List

/-- Memory of the kernel from a pointer on. -/
abbrev Buffer := ℕ → UInt8

namespace Page

/-- The `n` bytes from an offset on. -/
def read (P : Page) (off n : ℕ) : List UInt8 :=
  (List.range n).map (fun i => P ⟨(off + i) % PGSIZE, Nat.mod_lt _ (by decide)⟩)

end Page

namespace Phys

/-! ## The code -/

/-- `memmove` to a buffer. -/
def memmove (dst : Buffer) (d : ℕ) (bs : List UInt8) : Buffer :=
  fun i => if d ≤ i ∧ i < d + bs.length then bs.getD (i - d) 0 else dst i

/-- The loop of `copyin`. Every round copies at least one byte. `d` is how far
`dst` has moved. -/
def copyinLoop (m : Phys) (pagetable : ℕ) :
    ℕ → Buffer → ℕ → ℕ → ℕ → Except Fault (Buffer × Bool)
  | 0, dst, _, _, _ => .ok (dst, true)
  | rounds + 1, dst, d, srcva, len =>
    if len = 0 then .ok (dst, true)
    else do
      let va0 := PGROUNDDOWN srcva
      let pa0 ← m.walkaddr pagetable va0
      if pa0.getD 0 = 0 then .ok (dst, false)
      else
        let n := min (PGSIZE - (srcva - va0)) len
        copyinLoop m pagetable rounds
          (memmove dst d ((m.page (pa0.getD 0)).read (srcva - va0) n)) (d + n)
          ((va0 + PGSIZE) % 2 ^ 64) (len - n)

/-- `copyin`. -/
def copyin (m : Phys) (pagetable : ℕ) (dst : Buffer) (srcva len : ℕ) :
    Except Fault (Buffer × Bool) :=
  copyinLoop m pagetable len dst 0 srcva len

/-- The inner loop of `copyinstr`, over the bytes that are left of a page: the
buffer, how far `dst` has moved, what is left of `max`, and `got_null`. -/
def copystr : List UInt8 → Buffer → ℕ → ℕ → Buffer × ℕ × ℕ × Bool
  | [], dst, d, max => (dst, d, max, false)
  | b :: bs, dst, d, max =>
    if b = 0 then (update dst d 0, d, max, true)
    else copystr bs (update dst d b) (d + 1) (max - 1)

/-- The loop of `copyinstr`, while `got_null` is 0. -/
def copyinstrLoop (m : Phys) (pagetable : ℕ) :
    ℕ → Buffer → ℕ → ℕ → ℕ → Except Fault (Buffer × Bool)
  | 0, dst, _, _, _ => .ok (dst, false)
  | rounds + 1, dst, d, srcva, max =>
    if max = 0 then .ok (dst, false)
    else do
      let va0 := PGROUNDDOWN srcva
      let pa0 ← m.walkaddr pagetable va0
      if pa0.getD 0 = 0 then .ok (dst, false)
      else
        let n := min (PGSIZE - (srcva - va0)) max
        match copystr ((m.page (pa0.getD 0)).read (srcva - va0) n) dst d max with
        | (dst, _, _, true) => .ok (dst, true)
        | (dst, d, max, false) =>
          copyinstrLoop m pagetable rounds dst d ((va0 + PGSIZE) % 2 ^ 64) max

/-- `copyinstr`. -/
def copyinstr (m : Phys) (pagetable : ℕ) (dst : Buffer) (srcva max : ℕ) :
    Except Fault (Buffer × Bool) :=
  copyinstrLoop m pagetable max dst 0 srcva max

/-- The test of `walkaddr` on an entry. -/
def MayRead (pte : ℕ) : Prop := hasFlag pte PTE_V = true ∧ hasFlag pte PTE_U = true

instance (pte : ℕ) : Decidable (MayRead pte) := inferInstanceAs (Decidable (_ ∧ _))

/-- The test of `copyout` on an entry. -/
def MayWrite (pte : ℕ) : Prop :=
  hasFlag pte PTE_V = true ∧ hasFlag pte PTE_U = true ∧ hasFlag pte PTE_W = true

instance (pte : ℕ) : Decidable (MayWrite pte) := inferInstanceAs (Decidable (_ ∧ _ ∧ _))

theorem MayWrite.mayRead {pte : ℕ} (h : MayWrite pte) : MayRead pte := ⟨h.1, h.2.1⟩

/-- Where the byte at address `a` of the page table at `pt` is in physical memory. -/
def loc (m : Phys) (pt a : ℕ) : ℕ × Fin PGSIZE :=
  (m.frame pt (a / PGSIZE), ⟨a % PGSIZE, Nat.mod_lt _ PGSIZE_pos⟩)

/-- The pages that can be written. -/
def writeOk (m : Phys) (pt v : ℕ) : Bool := decide (v < MAXVPN ∧ MayWrite (m.pte pt v))

end Phys

open Phys

/-- **A page table as the process can use it**: the pages it can reach are not
tables, and none of them is the page at address 0. -/
structure UserTable where
  mem : Phys
  root : ℕ
  notTable : ∀ v < MAXVPN, MayRead (mem.pte root v) → mem.frame root v ∉ mem.tables root
  notNull : ∀ v < MAXVPN, MayRead (mem.pte root v) → mem.frame root v ≠ 0

namespace UserTable

variable (t : UserTable)

/-- The page of address `a` lies below `MAXVA` and is mapped for user mode. -/
def Readable (a : ℕ) : Prop :=
  a / PGSIZE < MAXVPN ∧ MayRead (t.mem.pte t.root (a / PGSIZE))

/-- The page of address `a` lies below `MAXVA` and is mapped for user mode and for
writing. -/
def Writable (a : ℕ) : Prop :=
  a / PGSIZE < MAXVPN ∧ MayWrite (t.mem.pte t.root (a / PGSIZE))

instance (a : ℕ) : Decidable (t.Readable a) := inferInstanceAs (Decidable (_ ∧ _))

instance (a : ℕ) : Decidable (t.Writable a) := inferInstanceAs (Decidable (_ ∧ _))

/-- Where the byte at address `a` is in physical memory. -/
def loc (a : ℕ) : ℕ × Fin PGSIZE := t.mem.loc t.root a

/-- The byte at address `a`. -/
def byte (a : ℕ) : UInt8 := t.mem.page (t.loc a).1 (t.loc a).2

/-- The memory `m` is the memory of the page table after the bytes `bs` have been
stored from address `va` on. Where two addresses share a place, the later byte is
there; nothing else has changed. -/
structure Stored (va : ℕ) (bs : List UInt8) (m : Phys) : Prop where
  hit : ∀ i (hi : i < bs.length),
    (∀ j, i < j → j < bs.length → t.loc (va + j) ≠ t.loc (va + i)) →
      m.page (t.loc (va + i)).1 (t.loc (va + i)).2 = bs[i]
  miss : ∀ x o, (∀ i < bs.length, t.loc (va + i) ≠ (x, o)) → m.page x o = t.mem.page x o
  freelist : m.freelist = t.mem.freelist
  kend : m.kend = t.mem.kend
  trampoline : m.trampoline = t.mem.trampoline

end UserTable

/-- The pages from `TRAPFRAME` on are not for user mode. -/
theorem Phys.hasFlag_procTop_user (tr tf v : ℕ) : hasFlag (procTop tr tf v) PTE_U = false := by
  have hflag : ∀ (pa perm : ℕ), perm ||| PTE_V < 2 ^ 10 →
      hasFlag (PA2PTE pa ||| perm ||| PTE_V) PTE_U = hasFlag (perm ||| PTE_V) PTE_U := by
    intro pa perm hp
    rw [Nat.or_assoc]
    exact hasFlag_PA2PTE_or pa (i := 4) hp (by decide)
  unfold procTop
  by_cases h1 : v = UVPN
  · rw [h1, update_self, hflag _ _ (by decide)]
    rfl
  · rw [update_of_ne h1]
    by_cases h2 : v = MAXVPN - 1
    · rw [h2, update_self, hflag _ _ (by decide)]
      rfl
    · rw [update_of_ne h2]
      rfl

/-- A page that the process can reach is a page of its address space. -/
theorem Phys.Space.isSome_of_mayRead {m : Phys} {pt tr tf v : ℕ} {A : AddrSpace}
    (h : Space m pt A (procTop tr tf)) (hv : v < MAXVPN) (hr : MayRead (m.pte pt v)) :
    (A v).isSome := by
  rcases lt_or_ge v UVPN with hu | hu
  · by_contra hA
    rw [h.absent v hu (Option.not_isSome_iff_eq_none.mp hA)] at hr
    exact absurd hr (by decide)
  · have hU := hr.2
    rw [h.top v hu (hv.trans (by decide)), hasFlag_procTop_user] at hU
    cases hU

/-- **The page table of a process.** -/
def Phys.Space.userTable {m : Phys} {pt tr tf : ℕ} {A : AddrSpace}
    (h : Space m pt A (procTop tr tf)) (h0 : ∀ v, (A v).isSome → m.frame pt v ≠ 0) : UserTable where
  mem := m
  root := pt
  notTable v hv hr := h.sep v (h.isSome_of_mayRead hv hr)
  notNull v hv hr := h0 v (h.isSome_of_mayRead hv hr)

/-! ## One page -/

namespace Phys

variable {m m₀ : Phys} {pt a v n va len rounds : ℕ} {src : List UInt8}

/-- **`walkaddr` finds the pages for user mode and no other.** -/
theorem walkaddr_eq (hva : va / PGSIZE < MAXVPN) :
    m.walkaddr pt va = .ok (if MayRead (m.pte pt (va / PGSIZE)) then
      some (m.frame pt (va / PGSIZE)) else none) := by
  have hlt : va < MAXVA := by
    have hva' : va / 4096 < 2 ^ 26 := hva
    show va < 2 ^ 38
    omega
  rw [Phys.walkaddr, if_neg hlt.not_ge, walk_find hlt, ok_bind]
  cases hg : m.node pt (vpath (va / PGSIZE)) with
  | none =>
    rw [pte_of_node_none hg, if_neg (by decide)]
    rfl
  | some g =>
    rw [frame, pte_of_node hg]
    show (if hasFlag (m.entry g (idx (va / PGSIZE))) PTE_V = false then Except.ok none
      else if hasFlag (m.entry g (idx (va / PGSIZE))) PTE_U = false then Except.ok none
      else Except.ok (some (PTE2PA (m.entry g (idx (va / PGSIZE)))))) = _
    generalize m.entry g (idx (va / PGSIZE)) = w
    by_cases hr : MayRead w
    · rw [if_pos hr, if_neg (by rw [hr.1]; decide), if_neg (by rw [hr.2]; decide)]
    · rw [if_neg hr]
      by_cases hV : hasFlag w PTE_V = false
      · rw [if_pos hV]
      · have hU : hasFlag w PTE_U = false := by
          by_contra hU
          exact hr ⟨Bool.not_eq_false _ ▸ hV, Bool.not_eq_false _ ▸ hU⟩
        rw [if_neg hV, if_pos hU]

theorem walkaddr_high (hva : MAXVPN ≤ va / PGSIZE) : m.walkaddr pt va = .ok none := by
  have hge : MAXVA ≤ va := by
    have hva' : 2 ^ 26 ≤ va / 4096 := hva
    show 2 ^ 38 ≤ va
    omega
  rw [Phys.walkaddr, if_pos hge]

theorem pgrounddown_div (a : ℕ) : PGROUNDDOWN a / PGSIZE = a / PGSIZE :=
  Nat.mul_div_cancel _ (by decide)

theorem sub_pgrounddown (a : ℕ) : a - PGROUNDDOWN a = a % PGSIZE := by
  show a - a / 4096 * 4096 = a % 4096
  omega

/-- The address of the next page does not wrap around. -/
theorem next_page_lt (hv : v < MAXVPN) : v * PGSIZE + PGSIZE < 2 ^ 64 := by
  have hv' : v < 2 ^ 26 := hv
  show v * 4096 + 4096 < 2 ^ 64
  omega

/-- A round of `copyout`. A missing entry is an entry without flags. -/
theorem copyoutLoop_succ (hsrc : src ≠ []) (hva : va / PGSIZE < MAXVPN) :
    copyoutLoop pt (rounds + 1) m va src = if MayWrite (m.pte pt (va / PGSIZE)) then
        copyoutLoop pt rounds (m.write (m.frame pt (va / PGSIZE)) (va % PGSIZE)
            (src.take (min (PGSIZE - va % PGSIZE) src.length)))
          ((va / PGSIZE + 1) * PGSIZE) (src.drop (min (PGSIZE - va % PGSIZE) src.length))
      else .ok (m, false) := by
  have hva0 : ¬ MAXVA ≤ PGROUNDDOWN va := not_le.mpr (mul_lt_MAXVA hva)
  rw [copyoutLoop, if_neg hsrc]
  simp only [if_neg hva0, sub_pgrounddown]
  unfold PGROUNDDOWN
  rw [walk_page hva, ok_bind]
  cases hg : m.node pt (vpath (va / PGSIZE)) with
  | none =>
    rw [pte_of_node_none hg, if_neg (by decide)]
    rfl
  | some g =>
    rw [frame, pte_of_node hg]
    show (if _ ∨ _ ∨ _ then _ else _) = _
    by_cases hmw : MayWrite (m.entry g (idx (va / PGSIZE)))
    · rw [if_pos hmw, if_neg (by rw [hmw.1, hmw.2.1, hmw.2.2]; decide), Nat.succ_mul,
        Nat.mod_eq_of_lt (next_page_lt hva)]
    · rw [if_neg hmw, if_pos]
      by_contra hc
      simp only [not_or, Bool.not_eq_false] at hc
      exact hmw hc

/-- After a chunk either nothing is left, or the next page begins. -/
theorem chunk_next (hlen : len ≠ 0) (hn : n = min (PGSIZE - a % PGSIZE) len) :
    0 < n ∧ n ≤ len ∧ a % PGSIZE + n ≤ PGSIZE ∧
      (len - n = 0 ∨ (a / PGSIZE + 1) * PGSIZE = a + n) := by
  show 0 < n ∧ n ≤ len ∧ a % 4096 + n ≤ 4096 ∧ (len - n = 0 ∨ (a / 4096 + 1) * 4096 = a + n)
  have hn' : n = min (4096 - a % 4096) len := hn
  omega

/-- The address of a byte of a chunk. -/
theorem chunk_addr {i : ℕ} (hin : a % PGSIZE + n ≤ PGSIZE) (hi : i < n) :
    (a + i) / PGSIZE = a / PGSIZE ∧ (a + i) % PGSIZE = (a % PGSIZE + i) % PGSIZE := by
  have hin' : a % 4096 + n ≤ 4096 := hin
  show (a + i) / 4096 = a / 4096 ∧ (a + i) % 4096 = (a % 4096 + i) % 4096
  omega

/-- The memory after the bytes have been stored one by one. -/
def storeAt (m : Phys) (loc : ℕ → ℕ × Fin PGSIZE) (bs : List UInt8) : Phys :=
  { m with page := curry (store (uncurry m.page) loc bs) }

theorem storeAt_nil (loc : ℕ → ℕ × Fin PGSIZE) : m.storeAt loc [] = m := rfl

theorem storeAt_append (loc : ℕ → ℕ × Fin PGSIZE) (bs cs : List UInt8) :
    m.storeAt loc (bs ++ cs) = (m.storeAt loc bs).storeAt (fun i => loc (bs.length + i)) cs := by
  unfold storeAt
  rw [store_append]
  rfl

/-- **Writing a chunk is storing its bytes.** -/
theorem write_eq_storeAt {off : ℕ} {bs : List UInt8} (hin : off + bs.length ≤ PGSIZE) :
    m.write a off bs =
      m.storeAt (fun i => (a, ⟨(off + i) % PGSIZE, Nat.mod_lt _ (by decide)⟩)) bs := by
  have hpage : ∀ x o, (m.write a off bs).page x o =
      (m.storeAt (fun i => (a, ⟨(off + i) % PGSIZE, Nat.mod_lt _ (by decide)⟩)) bs).page x o := by
    intro x o
    show _ = store (uncurry m.page) _ bs (x, o)
    have hin' : off + bs.length ≤ 4096 := hin
    rw [write_page]
    by_cases hx : x = a
    · subst hx
      rw [update_self, Page.write]
      by_cases hr : off ≤ o.val ∧ o.val < off + bs.length
      · have hi : o.val - off < bs.length := by omega
        have hloc : ((x, o) : ℕ × Fin PGSIZE) =
            (x, ⟨(off + (o.val - off)) % PGSIZE, Nat.mod_lt _ (by decide)⟩) := by
          refine Prod.ext rfl (Fin.ext ?_)
          show o.val = (off + (o.val - off)) % 4096
          omega
        rw [if_pos hr, hloc, store_hit (fun i =>
          ((x, ⟨(off + i) % PGSIZE, Nat.mod_lt _ (by decide)⟩) : ℕ × Fin PGSIZE)) hi]
        · rw [getD_eq_getElem _ _ hi]
        · intro j hij hj he
          have hv : (off + j) % 4096 = (off + (o.val - off)) % 4096 :=
            congrArg (fun z : ℕ × Fin PGSIZE => z.2.val) he
          omega
      · rw [if_neg hr, store_miss]
        · rfl
        · intro i hi he
          have hv : (off + i) % 4096 = o.val := congrArg (fun z : ℕ × Fin PGSIZE => z.2.val) he
          omega
    · rw [update_of_ne hx, store_miss]
      · rfl
      · intro i hi he
        exact hx (congrArg Prod.fst he).symm
  show ({ m with page := (m.write a off bs).page } : Phys) = { m with page := _ }
  congr 1
  funext x o
  exact hpage x o

/-! ## `copyout` -/

/-- The pages that can be written are no tables. -/
def Apart (m : Phys) (pt : ℕ) : Prop :=
  ∀ v < MAXVPN, MayWrite (m.pte pt v) → m.frame pt v ∉ m.tables pt

/-- The tables are those of `m₀`. -/
def Agrees (m₀ : Phys) (pt : ℕ) (m : Phys) : Prop := ∀ x ∈ m₀.tables pt, m.page x = m₀.page x

/-- Storing where the process may write does not touch the tables. -/
theorem Agrees.storeAt (h : Agrees m₀ pt m) (hs : Apart m₀ pt) (va : ℕ) (bs : List UInt8)
    (hok : ∀ i < bs.length, m₀.writeOk pt ((va + i) / PGSIZE) = true) :
    Agrees m₀ pt (m.storeAt (fun i => m₀.loc pt (va + i)) bs) := by
  intro x hx
  rw [← h x hx]
  funext o
  refine store_miss (fun i => m₀.loc pt (va + i)) fun i hi he => ?_
  obtain ⟨hv, hw⟩ := of_decide_eq_true (hok i hi)
  obtain rfl : m₀.frame pt ((va + i) / PGSIZE) = x := congrArg Prod.fst he
  exact hs _ hv hw hx

/-- **`copyout` stores up to the first byte that is not accessible.** -/
theorem copyoutLoop_eq (hs : Apart m₀ pt) (hm : Agrees m₀ pt m) (hlen : src.length ≤ rounds) :
    copyoutLoop pt rounds m va src = .ok (m.storeAt (fun i => m₀.loc pt (va + i))
          (src.take (extent PGSIZE (m₀.writeOk pt) va src.length)),
        decide (extent PGSIZE (m₀.writeOk pt) va src.length = src.length)) := by
  induction rounds generalizing m va src with
  | zero =>
    obtain rfl : src = [] := length_eq_zero_iff.mp (Nat.le_zero.mp hlen)
    rfl
  | succ rounds ih =>
    by_cases h0 : src = []
    · subst h0
      rw [copyoutLoop, if_pos rfl]
      rfl
    have hlen0 : src.length ≠ 0 := fun h => h0 (length_eq_zero_iff.mp h)
    by_cases hok : m₀.writeOk pt (va / PGSIZE) = true
    · obtain ⟨hv, hw⟩ := of_decide_eq_true hok
      obtain ⟨n, hn⟩ : ∃ n, n = min (PGSIZE - va % PGSIZE) src.length := ⟨_, rfl⟩
      obtain ⟨hpos, hle, hin, hnext⟩ := chunk_next hlen0 hn
      have htake : (src.take n).length = n := by
        rw [length_take]
        exact min_eq_left hle
      -- the chunk goes where its addresses are
      have hchunk : m.write (m₀.frame pt (va / PGSIZE)) (va % PGSIZE) (src.take n) =
          m.storeAt (fun i => m₀.loc pt (va + i)) (src.take n) := by
        rw [write_eq_storeAt (by rw [htake]; exact hin)]
        unfold storeAt
        rw [store_congr (fun i hi => ?_)]
        obtain ⟨hdiv, hmod⟩ := chunk_addr hin (htake ▸ hi)
        simp only [loc, hdiv, hmod]
      have hagrees := hm.storeAt hs va (src.take n) (fun i hi => by
        rw [(chunk_addr hin (htake ▸ hi)).1]
        exact hok)
      rw [copyoutLoop_succ h0 hv, frame, pte_congr hm, ← frame, if_pos hw, ← hn, hchunk,
        ih hagrees (by rw [length_drop]; omega), length_drop, extent_eq_of_or hnext,
        extent_chunk hok hle hin, take_add, storeAt_append, htake]
      refine congrArg Except.ok (Prod.ext ?_ (decide_eq_decide.mpr (by omega)))
      rcases hnext with hz | hz
      · rw [hz, extent, take_zero, storeAt_nil, storeAt_nil]
      · rw [hz]
        simp only [add_assoc]
    · rw [extent_of_not_ok (Bool.eq_false_iff.mpr hok), decide_eq_false hlen0.symm]
      by_cases hv : va / PGSIZE < MAXVPN
      · rw [copyoutLoop_succ h0 hv, pte_congr hm, if_neg (fun hw => hok (decide_eq_true ⟨hv, hw⟩))]
        rfl
      · have hge : MAXVA ≤ PGROUNDDOWN va := by
          have hv' : 2 ^ 26 ≤ va / 4096 := not_lt.mp hv
          show 2 ^ 38 ≤ va / 4096 * 4096
          omega
        rw [copyoutLoop, if_neg h0]
        simp only [if_pos hge]
        rfl

end Phys

namespace UserTable

variable (t : UserTable)

/-- The pages that can be read. -/
def readOk (v : ℕ) : Bool := decide (v < MAXVPN ∧ MayRead (t.mem.pte t.root v))

variable {t} {rounds d va len n max a : ℕ} {dst : Buffer} {m : Phys}

theorem readOk_iff : t.readOk (a / PGSIZE) = true ↔ t.Readable a := decide_eq_true_iff

theorem writeOk_iff : t.mem.writeOk t.root (a / PGSIZE) = true ↔ t.Writable a :=
  decide_eq_true_iff

/-- What `copyin` and `copyinstr` find at an address. -/
theorem walkaddr_pgrounddown (t : UserTable) (a : ℕ) :
    ∃ r, t.mem.walkaddr t.root (PGROUNDDOWN a) = .ok r ∧
      (t.Readable a → r = some (t.mem.frame t.root (a / PGSIZE)) ∧
        t.mem.frame t.root (a / PGSIZE) ≠ 0) ∧ (¬ t.Readable a → r = none) := by
  by_cases hv : a / PGSIZE < MAXVPN
  · refine ⟨_, walkaddr_eq (by rw [pgrounddown_div]; exact hv), fun h => ?_, fun h => ?_⟩
    · rw [pgrounddown_div, if_pos h.2]
      exact ⟨rfl, t.notNull _ hv h.2⟩
    · rw [pgrounddown_div, if_neg (fun hc => h ⟨hv, hc⟩)]
  · refine ⟨none, walkaddr_high (by rw [pgrounddown_div]; exact not_lt.mp hv), fun h => ?_,
      fun _ => rfl⟩
    exact absurd h.1 hv

theorem length_read (P : Page) (off n : ℕ) : (P.read off n).length = n := by
  rw [Page.read, length_map, length_range]

/-- The bytes of a chunk. -/
theorem getD_read {i : ℕ} (hin : va % PGSIZE + n ≤ PGSIZE) (hi : i < n) :
    ((t.mem.page (t.mem.frame t.root (va / PGSIZE))).read (va % PGSIZE) n).getD i 0 =
      t.byte (va + i) := by
  obtain ⟨hdiv, hmod⟩ := chunk_addr hin hi
  rw [getD_eq_getElem _ _ (by rw [length_read]; exact hi)]
  simp only [Page.read, getElem_map, getElem_range, byte, loc, Phys.loc, hdiv, hmod]

/-! ## `copyin` -/

/-- A round of `copyin`. -/
theorem copyinLoop_succ (hlen : len ≠ 0) (hn : n = min (PGSIZE - va % PGSIZE) len) :
    copyinLoop t.mem t.root (rounds + 1) dst d va len = if t.Readable va then
        copyinLoop t.mem t.root rounds (fill dst d (fun i => t.byte (va + i)) n) (d + n)
          ((va / PGSIZE + 1) * PGSIZE) (len - n) else .ok (dst, false) := by
  obtain ⟨r, hr, hyes, hno⟩ := t.walkaddr_pgrounddown va
  rw [copyinLoop, if_neg hlen]
  show (t.mem.walkaddr t.root (PGROUNDDOWN va) >>= _) = _
  rw [hr, ok_bind]
  by_cases h : t.Readable va
  · obtain ⟨rfl, hne⟩ := hyes h
    obtain ⟨-, -, hin, -⟩ := chunk_next hlen hn
    simp only [Option.getD_some, if_neg hne, if_pos h, sub_pgrounddown, ← hn]
    have hfill : memmove dst d
        ((t.mem.page (t.mem.frame t.root (va / PGSIZE))).read (va % PGSIZE) n) =
        fill dst d (fun i => t.byte (va + i)) n := by
      funext i
      rw [memmove, length_read]
      unfold fill
      split
      · exact getD_read hin (by omega)
      · rfl
    rw [hfill, show (PGROUNDDOWN va + PGSIZE) % 2 ^ 64 = (va / PGSIZE + 1) * PGSIZE by
      rw [Nat.succ_mul]; exact Nat.mod_eq_of_lt (next_page_lt h.1)]
  · rw [hno h, if_neg h]
    rfl

/-- **`copyin` copies up to the first byte that is not accessible.** -/
theorem copyinLoop_eq (hlen : len ≤ rounds) : copyinLoop t.mem t.root rounds dst d va len =
      .ok (fill dst d (fun i => t.byte (va + i)) (extent PGSIZE t.readOk va len),
        decide (extent PGSIZE t.readOk va len = len)) := by
  induction rounds generalizing dst d va len with
  | zero =>
    obtain rfl : len = 0 := Nat.le_zero.mp hlen
    rw [copyinLoop, extent, fill_zero]
    rfl
  | succ rounds ih =>
    by_cases h0 : len = 0
    · subst h0
      rw [copyinLoop, if_pos rfl, extent, fill_zero]
      rfl
    · obtain ⟨n, hn⟩ : ∃ n, n = min (PGSIZE - va % PGSIZE) len := ⟨_, rfl⟩
      obtain ⟨hpos, hle, hin, hnext⟩ := chunk_next h0 hn
      rw [copyinLoop_succ h0 hn]
      by_cases h : t.Readable va
      · rw [if_pos h, ih (by omega), extent_eq_of_or hnext,
          extent_chunk (readOk_iff.mpr h) hle hin, ← fill_fill]
        refine congrArg Except.ok (Prod.ext ?_ ?_)
        · show fill _ _ (fun i => t.byte ((va / PGSIZE + 1) * PGSIZE + i)) _ =
            fill _ _ (fun i => t.byte (va + (n + i))) _
          refine fill_congr fun i hi => ?_
          rcases hnext with hz | hz
          · rw [hz] at hi
            exact absurd hi (Nat.not_lt_zero i)
          · rw [hz, add_assoc]
        · exact decide_eq_decide.mpr (by omega)
      · rw [if_neg h, extent_of_not_ok (Bool.eq_false_iff.mpr (fun hc => h (readOk_iff.mp hc))),
          fill_zero, decide_eq_false (fun hc => h0 hc.symm)]

/-! ## `copyinstr` -/

/-- The inner loop copies up to a null byte, or all of the chunk. -/
theorem copystr_eq (bs : List UInt8) (dst : Buffer) (d max : ℕ) :
    (∃ k < bs.length, bs.getD k 0 = 0 ∧ (∀ i < k, bs.getD i 0 ≠ 0) ∧ copystr bs dst d max =
        (fill dst d (fun i => bs.getD i 0) (k + 1), d + k, max - k, true)) ∨
    ((∀ i < bs.length, bs.getD i 0 ≠ 0) ∧ copystr bs dst d max =
        (fill dst d (fun i => bs.getD i 0) bs.length, d + bs.length, max - bs.length, false)) := by
  induction bs generalizing dst d max with
  | nil => exact .inr ⟨fun i hi => absurd hi (Nat.not_lt_zero i), by rw [copystr]; simp [fill_zero]⟩
  | cons b bs ih =>
    rw [copystr]
    by_cases hb : b = 0
    · refine .inl ⟨0, Nat.succ_pos _, hb, fun i hi => absurd hi (Nat.not_lt_zero i), ?_⟩
      rw [if_pos hb, fill_one, getD_cons_zero, hb]
      rfl
    · rw [if_neg hb]
      -- the buffer with the first byte, filled on
      have hfill : ∀ k, fill (update dst d b) (d + 1) (fun i => bs.getD i 0) k =
          fill dst d (fun i => (b :: bs).getD i 0) (k + 1) := by
        intro k
        rw [add_comm k 1, ← fill_fill, fill_one, getD_cons_zero]
        refine fill_congr fun i _ => ?_
        rw [add_comm 1 i, getD_cons_succ]
      have hne : ∀ k, (∀ i < k, bs.getD i 0 ≠ 0) → ∀ i < k + 1, (b :: bs).getD i 0 ≠ 0 := by
        intro k hk i hi
        cases i with
        | zero => exact hb
        | succ i => exact hk i (Nat.lt_of_succ_lt_succ hi)
      rcases ih (update dst d b) (d + 1) (max - 1) with ⟨k, hk, hz, hnz, heq⟩ | ⟨hnz, heq⟩
      · refine .inl ⟨k + 1, Nat.succ_lt_succ hk, hz, hne k hnz, ?_⟩
        rw [heq, hfill, add_assoc d 1 k, Nat.sub_sub, add_comm 1 k]
      · refine .inr ⟨hne _ hnz, ?_⟩
        rw [heq, hfill, length_cons, add_assoc d 1, Nat.sub_sub, add_comm 1]

/-- A round of `copyinstr`. -/
theorem copyinstrLoop_succ (rounds : ℕ) (dst : Buffer) (d : ℕ) (hmax : max ≠ 0)
    (hn : n = min (PGSIZE - va % PGSIZE) max) :
    (¬ t.Readable va ∧ copyinstrLoop t.mem t.root (rounds + 1) dst d va max = .ok (dst, false)) ∨
    (t.Readable va ∧ ((∃ k < n, t.byte (va + k) = 0 ∧ (∀ i < k, t.byte (va + i) ≠ 0) ∧
        copyinstrLoop t.mem t.root (rounds + 1) dst d va max =
          .ok (fill dst d (fun i => t.byte (va + i)) (k + 1), true)) ∨
      ((∀ i < n, t.byte (va + i) ≠ 0) ∧ copyinstrLoop t.mem t.root (rounds + 1) dst d va max =
          copyinstrLoop t.mem t.root rounds (fill dst d (fun i => t.byte (va + i)) n) (d + n)
            ((va / PGSIZE + 1) * PGSIZE) (max - n)))) := by
  obtain ⟨r, hr, hyes, hno⟩ := t.walkaddr_pgrounddown va
  have hrun : copyinstrLoop t.mem t.root (rounds + 1) dst d va max =
      (t.mem.walkaddr t.root (PGROUNDDOWN va) >>= fun pa0 =>
        if pa0.getD 0 = 0 then .ok (dst, false)
        else match copystr ((t.mem.page (pa0.getD 0)).read (va - PGROUNDDOWN va)
            (min (PGSIZE - (va - PGROUNDDOWN va)) max)) dst d max with
        | (dst, _, _, true) => .ok (dst, true)
        | (dst, d, max, false) =>
          copyinstrLoop t.mem t.root rounds dst d ((PGROUNDDOWN va + PGSIZE) % 2 ^ 64) max) := by
    rw [copyinstrLoop, if_neg hmax]
  rw [hrun, hr, ok_bind]
  by_cases h : t.Readable va
  · obtain ⟨rfl, hne⟩ := hyes h
    obtain ⟨-, -, hin, -⟩ := chunk_next hmax hn
    refine .inr ⟨h, ?_⟩
    simp only [Option.getD_some, if_neg hne, sub_pgrounddown, ← hn]
    rw [show (PGROUNDDOWN va + PGSIZE) % 2 ^ 64 = (va / PGSIZE + 1) * PGSIZE by
      rw [Nat.succ_mul]; exact Nat.mod_eq_of_lt (next_page_lt h.1)]
    have hbyte : ∀ i < n, ((t.mem.page (t.mem.frame t.root (va / PGSIZE))).read
        (va % PGSIZE) n).getD i 0 = t.byte (va + i) := fun i hi => getD_read hin hi
    have hlen := length_read (t.mem.page (t.mem.frame t.root (va / PGSIZE))) (va % PGSIZE) n
    generalize (t.mem.page (t.mem.frame t.root (va / PGSIZE))).read (va % PGSIZE) n = bs
      at hbyte hlen ⊢
    subst hlen
    rcases copystr_eq bs dst d max with ⟨k, hk, hz, hnz, heq⟩ | ⟨hnz, heq⟩
    · refine .inl ⟨k, hk, (hbyte k hk).symm.trans hz, fun i hi => ?_, ?_⟩
      · rw [← hbyte i (hi.trans hk)]
        exact hnz i hi
      · rw [heq]
        rw [fill_congr (fun i hi => hbyte i (hi.trans_le hk))]
    · refine .inr ⟨fun i hi => ?_, ?_⟩
      · rw [← hbyte i hi]
        exact hnz i hi
      · rw [heq]
        rw [fill_congr hbyte]
  · rw [hno h]
    exact .inl ⟨h, rfl⟩

/-- **`copyinstr` copies up to the first null byte or up to the first byte that is
not accessible.** -/
theorem copyinstrLoop_eq (dst : Buffer) (d va : ℕ) (hmax : max ≤ rounds) :
    ∃ k ok, copyinstrLoop t.mem t.root rounds dst d va max =
        .ok (fill dst d (fun i => t.byte (va + i)) k, ok) ∧
      (ok = true → ∃ n < extent PGSIZE t.readOk va max, k = n + 1 ∧ t.byte (va + n) = 0 ∧
        ∀ i < n, t.byte (va + i) ≠ 0) ∧
      (ok = false → k = extent PGSIZE t.readOk va max ∧ ∀ i < k, t.byte (va + i) ≠ 0) := by
  induction rounds generalizing dst d va max with
  | zero =>
    obtain rfl : max = 0 := Nat.le_zero.mp hmax
    exact ⟨0, false, by rw [copyinstrLoop, fill_zero], nofun,
      fun _ => ⟨rfl, fun i hi => absurd hi (Nat.not_lt_zero i)⟩⟩
  | succ rounds ih =>
    by_cases h0 : max = 0
    · subst h0
      exact ⟨0, false, by rw [copyinstrLoop, if_pos rfl, fill_zero], nofun,
        fun _ => ⟨rfl, fun i hi => absurd hi (Nat.not_lt_zero i)⟩⟩
    · obtain ⟨n, hn⟩ : ∃ n, n = min (PGSIZE - va % PGSIZE) max := ⟨_, rfl⟩
      obtain ⟨hpos, hle, hin, hnext⟩ := chunk_next h0 hn
      rcases copyinstrLoop_succ rounds dst d h0 hn with
        ⟨h, heq⟩ | ⟨h, ⟨k, hk, hz, hnz, heq⟩ | ⟨hnz, heq⟩⟩
      · refine ⟨0, false, by rw [heq, fill_zero], nofun, fun _ => ⟨?_, fun i hi =>
          absurd hi (Nat.not_lt_zero i)⟩⟩
        rw [extent_of_not_ok (Bool.eq_false_iff.mpr (fun hc => h (readOk_iff.mp hc)))]
      · rw [extent_chunk (readOk_iff.mpr h) hle hin]
        exact ⟨k + 1, true, heq, fun _ => ⟨k, by omega, rfl, hz, hnz⟩, nofun⟩
      · obtain ⟨k, ok, hrun, htrue, hfalse⟩ := ih (fill dst d (fun i => t.byte (va + i)) n)
          (d + n) ((va / PGSIZE + 1) * PGSIZE) (show max - n ≤ rounds by omega)
        rw [heq, hrun, extent_chunk (readOk_iff.mpr h) hle hin]
        rcases hnext with hz | hz
        · -- `max` bytes have been read
          rw [hz] at hrun htrue hfalse ⊢
          cases ok with
          | true =>
            obtain ⟨j, hj, -⟩ := htrue rfl
            exact absurd hj (Nat.not_lt_zero j)
          | false =>
            obtain ⟨rfl, -⟩ := hfalse rfl
            refine ⟨n, false, ?_, nofun, fun _ => ⟨rfl, hnz⟩⟩
            show Except.ok (fill _ _ _ 0, false) = _
            rw [fill_zero]
        · rw [hz] at htrue hfalse ⊢
          have hstr : ∀ j, (∀ i < j, t.byte (va + n + i) ≠ 0) → ∀ i < n + j,
              t.byte (va + i) ≠ 0 := by
            intro j hj i hi
            rcases lt_or_ge i n with hin' | hge
            · exact hnz i hin'
            · have := hj (i - n) (by omega)
              rwa [show va + n + (i - n) = va + i by omega] at this
          refine ⟨n + k, ok, ?_, fun hok => ?_, fun hok => ?_⟩
          · rw [← fill_fill]
            refine congrArg (fun b => Except.ok (b, ok)) (fill_congr (fun i _ => ?_))
            rw [add_assoc]
          · obtain ⟨j, hj, rfl, hzero, hnzj⟩ := htrue hok
            exact ⟨n + j, by omega, rfl, by rw [← add_assoc]; exact hzero, hstr j hnzj⟩
          · obtain ⟨rfl, hnzk⟩ := hfalse hok
            exact ⟨rfl, hstr _ hnzk⟩

/-! ## The accessors -/

theorem apart (t : UserTable) : t.mem.Apart t.root := fun v hv hw => t.notTable v hv hw.mayRead

theorem stored_storeAt (t : UserTable) (va : ℕ) (bs : List UInt8) :
    t.Stored va bs (t.mem.storeAt (fun i => t.loc (va + i)) bs) where
  hit _ hi hlast := store_hit (fun i => t.loc (va + i)) hi hlast
  miss _ _ h := store_miss (fun i => t.loc (va + i)) h
  freelist := rfl
  kend := rfl
  trampoline := rfl

/-- Of `n` bytes from `va` on, `k` are accessible before one that is not. -/
def Reach (accessible : ℕ → Prop) (va n k : ℕ) : Prop :=
  k ≤ n ∧ (∀ i < k, accessible (va + i)) ∧ (k < n → ¬ accessible (va + k))

/-- A copy gets as far as that. -/
theorem reach_extent {ok : ℕ → Bool} {acc : ℕ → Prop} (h : ∀ {a}, ok (a / PGSIZE) = true ↔ acc a)
    (va n : ℕ) : Reach acc va n (extent PGSIZE ok va n) := by
  refine ⟨extent_le va n, fun i hi => h.mp (ok_of_lt_extent hi), fun hlt hacc => ?_⟩
  have hstop := not_ok_of_extent_lt hlt
  rw [h.mpr hacc] at hstop
  cases hstop

/-- It is complete exactly if everything is accessible. -/
theorem extent_eq_iff_forall {ok : ℕ → Bool} {acc : ℕ → Prop}
    (h : ∀ {a}, ok (a / PGSIZE) = true ↔ acc a) (va n : ℕ) :
    decide (extent PGSIZE ok va n = n) = true ↔ ∀ a, va ≤ a → a < va + n → acc a := by
  rw [decide_eq_true_iff, extent_eq_iff]
  exact forall_congr' fun a => imp_congr Iff.rfl (imp_congr Iff.rfl h)

theorem fill_zero_apply (dst f : Buffer) (k i : ℕ) :
    fill dst 0 f k i = if i < k then f i else dst i := by
  simp only [fill, zero_le, true_and, zero_add, Nat.sub_zero]

/-- **`copyin`.** -/
theorem copyin_exact (t : UserTable) (va : ℕ) (dst : Buffer) (len : ℕ) :
    ∃ dst' ok k, t.mem.copyin t.root dst va len = .ok (dst', ok) ∧
      (ok = true ↔ ∀ a, va ≤ a → a < va + len → t.Readable a) ∧ Reach t.Readable va len k ∧
      (ok = true → k = len) ∧ ∀ i, dst' i = if i < k then t.byte (va + i) else dst i :=
  ⟨_, _, _, copyinLoop_eq le_rfl, extent_eq_iff_forall readOk_iff va len,
    reach_extent readOk_iff va len, of_decide_eq_true, fill_zero_apply _ _ _⟩

/-- **`copyinstr`.** -/
theorem copyinstr_exact (t : UserTable) (va : ℕ) (dst : Buffer) (max : ℕ) :
    ∃ dst' ok k, t.mem.copyinstr t.root dst va max = .ok (dst', ok) ∧
      (ok = true ↔ ∃ n < max, t.byte (va + n) = 0 ∧ ∀ i ≤ n, t.Readable (va + i)) ∧
      k ≤ max ∧ (∀ i < k, t.Readable (va + i)) ∧
      (ok = true → ∃ n, k = n + 1 ∧ t.byte (va + n) = 0 ∧ ∀ i < n, t.byte (va + i) ≠ 0) ∧
      (ok = false → Reach t.Readable va max k ∧ ∀ i < k, t.byte (va + i) ≠ 0) ∧
      ∀ i, dst' i = if i < k then t.byte (va + i) else dst i := by
  obtain ⟨k, ok, hrun, htrue, hfalse⟩ := copyinstrLoop_eq (t := t) dst 0 va (le_refl max)
  obtain ⟨hle, hacc, hend⟩ : Reach t.Readable va max _ := reach_extent readOk_iff va max
  refine ⟨_, ok, k, hrun, ?_, ?_, ?_, fun hok => ?_, fun hok => ?_, fill_zero_apply _ _ _⟩
  · refine ⟨fun hok => ?_, fun ⟨n, hn, hz, hr⟩ => by_contra fun hok => ?_⟩
    · obtain ⟨n, hn, -, hz, -⟩ := htrue hok
      exact ⟨n, hn.trans_le hle, hz, fun i hi => hacc i (hi.trans_lt hn)⟩
    · obtain ⟨rfl, hnz⟩ := hfalse (Bool.eq_false_iff.mpr hok)
      -- the copy got past the null byte
      refine hnz n (not_le.mp fun hge => ?_) hz
      exact hend (hge.trans_lt hn) (hr _ hge)
  · cases ok with
    | true =>
      obtain ⟨n, hn, rfl, -⟩ := htrue rfl
      exact le_trans hn hle
    | false => exact (hfalse rfl).1 ▸ hle
  · cases ok with
    | true =>
      obtain ⟨n, hn, rfl, -⟩ := htrue rfl
      exact fun i hi => hacc i (lt_of_lt_of_le hi hn)
    | false => exact (hfalse rfl).1 ▸ hacc
  · obtain ⟨n, -, hk, hz, hnz⟩ := htrue hok
    exact ⟨n, hk, hz, hnz⟩
  · obtain ⟨rfl, hnz⟩ := hfalse hok
    exact ⟨⟨hle, hacc, hend⟩, hnz⟩

/-- **The accessors of user memory are exact.** `copyout` and `copyin` succeed
exactly if every page of the range is below `MAXVA` and mapped for the access, and
`copyinstr` exactly if there is a null byte among the first `max` with every page up
to it mapped for user mode. On success the whole range, or the string with its null
byte, has been transferred; otherwise what comes before the first byte that is not
accessible. So no address wraps around, and no other byte of memory, or of the buffer,
has changed. -/
theorem copy_exact (t : UserTable) (va : ℕ) :
    (∀ src : List UInt8, ∃ m ok k, t.mem.copyout t.root va src = .ok (m, ok) ∧
      (ok = true ↔ ∀ a, va ≤ a → a < va + src.length → t.Writable a) ∧
      Reach t.Writable va src.length k ∧ (ok = true → k = src.length) ∧
      t.Stored va (src.take k) m) ∧
    (∀ (dst : Buffer) (len : ℕ), ∃ dst' ok k, t.mem.copyin t.root dst va len = .ok (dst', ok) ∧
      (ok = true ↔ ∀ a, va ≤ a → a < va + len → t.Readable a) ∧ Reach t.Readable va len k ∧
      (ok = true → k = len) ∧ ∀ i, dst' i = if i < k then t.byte (va + i) else dst i) ∧
    (∀ (dst : Buffer) (max : ℕ), ∃ dst' ok k, t.mem.copyinstr t.root dst va max = .ok (dst', ok) ∧
      (ok = true ↔ ∃ n < max, t.byte (va + n) = 0 ∧ ∀ i ≤ n, t.Readable (va + i)) ∧
      k ≤ max ∧ (∀ i < k, t.Readable (va + i)) ∧
      (ok = true → ∃ n, k = n + 1 ∧ t.byte (va + n) = 0 ∧ ∀ i < n, t.byte (va + i) ≠ 0) ∧
      (ok = false → Reach t.Readable va max k ∧ ∀ i < k, t.byte (va + i) ≠ 0) ∧
      ∀ i, dst' i = if i < k then t.byte (va + i) else dst i) :=
  ⟨fun src => ⟨_, _, _, copyoutLoop_eq t.apart (fun _ _ => rfl) le_rfl,
    extent_eq_iff_forall writeOk_iff va src.length, reach_extent writeOk_iff va src.length,
    of_decide_eq_true, t.stored_storeAt va _⟩, t.copyin_exact va, t.copyinstr_exact va⟩

end UserTable

end Xv6
